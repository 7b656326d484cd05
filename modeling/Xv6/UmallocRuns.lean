/-
# What `malloc` hands out

`malloc` goes round the free list until a block is large enough, and asks for more memory when it
has come round.  As long as the size asked for is in the range of `sbrk`, the block it hands out is
memory of the program and apart from the blocks handed out before.
-/
import Xv6.UmallocFree

namespace Xv6.Umalloc

open Function OrderedRing Packing

variable {h h' : Heap} {start nunits : ℕ} {F U : Finset ℕ} {a p prevp : ℕ}

/-! ## Taking a block -/

/-- A heap after the block `a` is handed out. -/
structure Taken (h h' : Heap) (start : ℕ) (U : Finset ℕ) (nunits a : ℕ) (F' : Finset ℕ) :
    Prop where
  core : Core h' start F' (insert a U)
  freep : h'.freep ∈ F'
  new : a ∉ U
  size_new : h'.size a = nunits
  size : ∀ x ∈ U, h'.size x = h.size x
  brk : h'.brk = h.brk

theorem taken_whole (hc : Core h start F U) (hprev : prevp ∈ F) (hnext : h.ptr prevp = p)
    (hpos : 0 < nunits) (hsize : h.size p = nunits) :
    Taken h { h with ptr := update h.ptr prevp (h.ptr p), freep := prevp } start U nunits p
      (F.erase p) := by
  have hpF : p ∈ F := hnext ▸ hc.ring.next_mem prevp hprev
  have hbase : p ≠ h.base := by
    rintro rfl
    have := hc.base_size
    omega
  have hne : prevp ≠ p := by
    rintro rfl
    exact hbase.symm (hc.ring.eq_of_next_eq hpF hnext hc.base_mem)
  refine ⟨?_, Finset.mem_erase.mpr ⟨hne, hprev⟩, hc.apart p hpF, hsize, fun _ _ => rfl, rfl⟩
  constructor
  · have hunlink := hc.ring.unlink hprev (by rw [hnext]; exact hne.symm)
    rwa [hnext] at hunlink
  · exact Finset.mem_erase.mpr ⟨hbase.symm, hc.base_mem⟩
  · exact hc.base_pos
  · exact hc.base_lt
  · exact hc.base_size
  · have hset : (F.erase p).erase h.base ∪ insert p U = F.erase h.base ∪ U := by
      ext x
      simp only [Finset.mem_union, Finset.mem_erase, Finset.mem_insert]
      by_cases hx : x = p
      · subst hx
        simp [hbase, hpF]
      · simp [hx]
    exact hset ▸ hc.packed
  · intro x hx hxU
    obtain ⟨hxp, hxF⟩ := Finset.mem_erase.mp hx
    rcases Finset.mem_insert.mp hxU with rfl | hxU
    · exact hxp rfl
    · exact hc.apart x hxF hxU
  · exact hc.start_le
  · exact hc.brk_le

theorem taken_upper (hc : Core h start F U) (hprev : prevp ∈ F) (hpF : p ∈ F) (hpos : 0 < nunits)
    (hsize : nunits < h.size p) :
    Taken h { h with
        size := update (update h.size p (h.size p - nunits))
          (p + 16 * (h.size p - nunits)) nunits
        freep := prevp } start U nunits (p + 16 * (h.size p - nunits)) F := by
  have hbase : p ≠ h.base := by
    rintro rfl
    have := hc.base_size
    omega
  have hpB : p ∈ F.erase h.base ∪ U := mem_blocks_of_free hpF hbase
  have hcut := hc.packed.cut hpB (show 0 < 16 * (h.size p - nunits) by omega) (by omega)
  obtain ⟨q, hq⟩ : ∃ q, q = p + 16 * (h.size p - nunits) := ⟨_, rfl⟩
  rw [← hq] at hcut ⊢
  have hqB : q ∉ F.erase h.base ∪ U := hc.packed.not_mem_inside hpB (by omega) (by omega)
  have hqb : q ≠ h.base := by
    have := hc.base_lt_of_mem hpB
    omega
  have hqF : q ∉ F := fun hmem => hqB (mem_blocks_of_free hmem hqb)
  have hqU : q ∉ U := fun hmem => hqB (Finset.mem_union_right _ hmem)
  have hqp : q ≠ p := fun heq => hqF (heq ▸ hpF)
  refine ⟨?_, hprev, hqU, update_self .., ?_, rfl⟩
  · constructor
    · exact hc.ring
    · exact hc.base_mem
    · exact hc.base_pos
    · exact hc.base_lt
    · dsimp only
      rw [update_of_ne hqb.symm, update_of_ne hbase.symm, hc.base_size]
    · dsimp only
      rw [Finset.union_insert]
      refine hcut.congr fun x hx => ?_
      by_cases hxq : x = q
      · subst hxq
        rw [update_self, update_self]
        omega
      · rw [update_of_ne hxq, update_of_ne hxq]
        by_cases hxp : x = p
        · subst hxp
          rw [update_self, update_self]
        · rw [update_of_ne hxp, update_of_ne hxp]
    · intro x hx hxU
      rcases Finset.mem_insert.mp hxU with rfl | hxU
      · exact hqF hx
      · exact hc.apart x hx hxU
    · exact hc.start_le
    · exact hc.brk_le
  · intro x hx
    have hxq : x ≠ q := fun heq => hqU (heq ▸ hx)
    have hxp : x ≠ p := fun heq => hc.apart p hpF (heq ▸ hx)
    dsimp only
    rw [update_of_ne hxq, update_of_ne hxp]

theorem take_spec (hc : Core h start F U) (hprev : prevp ∈ F) (hnext : h.ptr prevp = p)
    (hpos : 0 < nunits) (hfit : nunits ≤ h.size p) :
    ∃ a h' F', h.take nunits prevp p = .ok (a + 16, h') ∧ Taken h h' start U nunits a F' := by
  have hpF : p ∈ F := hnext ▸ hc.ring.next_mem prevp hprev
  unfold Heap.take
  by_cases hsize : h.size p = nunits
  · rw [if_pos hsize]
    exact ⟨p, _, _, rfl, taken_whole hc hprev hnext hpos hsize⟩
  · rw [if_neg hsize]
    have htaken := taken_upper hc hprev hpF hpos (by omega)
    refine ⟨_, _, F, ?_, htaken⟩
    have haccess : h.access (p + 16 * (h.size p - nunits)) = .ok () :=
      htaken.core.access_block (Finset.mem_union_right _ (Finset.mem_insert_self _ _))
    simp only [haccess, ok_bind]
    rfl

/-! ## More memory -/

/-- A heap that has grown, with room for `nunits`. -/
structure Grown (h h' : Heap) (start : ℕ) (U : Finset ℕ) (nunits : ℕ) (F' : Finset ℕ) : Prop where
  core : Core h' start F' U
  freep : h'.freep ∈ F'
  brk : h.brk ≤ h'.brk
  size : ∀ x ∈ U, h'.size x = h.size x
  room : ∃ a ∈ F', nunits ≤ h'.size a

theorem Core.pos_of_mem (hc : Core h start F U) (ha : a ∈ F) : 0 < a := by
  have hbase := hc.base_pos
  by_cases heq : a = h.base
  · omega
  · have := hc.base_lt_of_mem (mem_blocks_of_free (U := U) ha heq)
    omega

/-- The memory that `sbrk` returns is a block of its own. -/
theorem Core.grow (hc : Core h start F U) {nu : ℕ} (hpos : 0 < nu)
    (hle : h.brk + 16 * nu ≤ physTop) (grants : List Bool) :
    Core { h with
      brk := h.brk + 16 * nu
      grants := grants
      size := update h.size h.brk nu } start F (insert h.brk U) := by
  have hlt : ∀ x ∈ F.erase h.base ∪ U, x ≠ h.brk := fun x hx => by
    have := hc.header_le hx
    omega
  have hbase : h.base ≠ h.brk := by
    have := hc.base_lt
    have := hc.start_le
    omega
  constructor
  · exact hc.ring
  · exact hc.base_mem
  · exact hc.base_pos
  · exact hc.base_lt
  · exact (update_of_ne hbase ..).trans hc.base_size
  · dsimp only
    rw [Finset.union_insert]
    refine (hc.packed.grow hc.start_le (show 0 < 16 * nu by omega)).congr fun x hx => ?_
    by_cases hxb : x = h.brk
    · rw [hxb, update_self, update_self]
    · rw [update_of_ne hxb, update_of_ne hxb]
  · intro x hx hxU
    rcases Finset.mem_insert.mp hxU with rfl | hxU
    · exact hlt _ (mem_blocks_of_free hx hbase.symm) rfl
    · exact hc.apart x hx hxU
  · exact hc.start_le.trans (Nat.le_add_right ..)
  · exact hle

theorem int32_units {nu : ℕ} (hle : 16 * nu < 2 ^ 31) : int32 (nu * 16) = nu * 16 := by
  unfold int32
  rw [Int.bmod_def]
  split_ifs <;> omega

theorem moreUnits_spec (hunits : 16 * nunits < 2 ^ 31) : nunits ≤ Heap.moreUnits nunits
    ∧ 0 < Heap.moreUnits nunits ∧ 16 * Heap.moreUnits nunits < 2 ^ 31 := by
  unfold Heap.moreUnits
  split_ifs <;> omega

theorem sbrk_of_pos (h : Heap) {nu : ℕ} (hpos : 0 < nu) : h.sbrk (nu * 16)
    = if h.grants.head? = some true ∧ h.brk + 16 * nu ≤ physTop then
        (some h.brk, { h with brk := h.brk + 16 * nu, grants := h.grants.tail })
      else (none, { h with grants := h.grants.tail }) := by
  have hn : ((nu : ℤ) * 16).toNat = 16 * nu := by omega
  unfold Heap.sbrk
  rw [if_pos (by omega), hn]

theorem access_congr (hbrk : h.brk = h'.brk) (a : ℕ) : h.access a = h'.access a := by
  unfold Heap.access
  rw [hbrk]

/-- **`morecore`** fails, or the heap has grown. -/
theorem morecore_spec (hc : Core h start F U) (hfreep : h.freep ∈ F)
    (hunits : 16 * nunits < 2 ^ 31) :
    (∃ grants, h.morecore nunits = .ok (0, { h with grants := grants }))
      ∨ ∃ h' F', h.morecore nunits = .ok (h'.freep, h') ∧ Grown h h' start U nunits F' := by
  obtain ⟨hle, hpos, hlt⟩ := moreUnits_spec hunits
  obtain ⟨nu, hnu⟩ : ∃ nu, nu = Heap.moreUnits nunits := ⟨_, rfl⟩
  rw [← hnu] at hle hpos hlt
  unfold Heap.morecore
  rw [← hnu]
  dsimp only
  rw [int32_units hlt, sbrk_of_pos h hpos]
  unfold Heap.addCore
  split_ifs with hgrant
  · right
    have hgrow := hc.grow hpos hgrant.2 h.grants.tail
    have hmem := Finset.mem_insert_self h.brk U
    obtain ⟨h', F', hrun, hfreed⟩ := free_spec hgrow hfreep hmem
    have haccess := hgrow.access_block (Finset.mem_union_right _ hmem)
    have hnew : h.brk ∉ U := fun hU => by
      have := hc.header_le (Finset.mem_union_right _ hU)
      omega
    refine ⟨h', F', ?_, ?_⟩
    · have haccess' : Heap.access { h with brk := h.brk + 16 * nu, grants := h.grants.tail } h.brk
          = .ok () := (access_congr rfl h.brk).trans haccess
      simp only [haccess', ok_bind, hrun]
      rfl
    · have hcore := hfreed.core
      rw [Finset.erase_insert hnew] at hcore
      refine ⟨hcore, hfreed.freep, hfreed.brk ▸ Nat.le_add_right .., ?_, ?_⟩
      · intro x hx
        have hxb : x ≠ h.brk := fun heq => hnew (heq ▸ hx)
        exact (hfreed.size x (Finset.mem_insert_of_mem hx) hxb).trans (update_of_ne hxb ..)
      · obtain ⟨a, ha, hroom⟩ := hfreed.room
        simp only [update_self] at hroom
        exact ⟨a, ha, hle.trans hroom⟩
  · left
    exact ⟨_, rfl⟩

/-! ## Going round the list -/

theorem findFit_turn (hc : Core h start F U) (hp : p ∈ F) (nunits fuel prevp : ℕ) :
    Heap.findFit nunits (fuel + 1) h prevp p
      = if h.size p ≥ nunits then h.take nunits prevp p
        else if p = h.freep then h.morecore nunits >>= fun r =>
          if r.1 = 0 then .ok (0, r.2)
          else r.2.access r.1 >>= fun _ => Heap.findFit nunits fuel r.2 r.1 (r.2.ptr r.1)
        else Heap.findFit nunits fuel h p (h.ptr p) := by
  rw [Heap.findFit, hc.access_node hp, ok_bind]
  rfl

/-- If a block ahead is large enough, one is taken. -/
theorem findFit_of_room (hc : Core h start F U) (hfit : nunits ≤ h.size a) (k : ℕ) {fuel : ℕ}
    (hk : k < fuel) (hprev : prevp ∈ F) (hend : h.ptr^[k] (h.ptr prevp) = a)
    (hbefore : ∀ j < k, h.ptr^[j] (h.ptr prevp) ≠ h.freep) :
    ∃ q ∈ F, nunits ≤ h.size (h.ptr q)
      ∧ Heap.findFit nunits fuel h prevp (h.ptr prevp) = h.take nunits q (h.ptr q) := by
  induction k generalizing fuel prevp with
  | zero =>
    obtain ⟨fuel, rfl⟩ := Nat.exists_eq_succ_of_ne_zero (Nat.ne_of_gt hk)
    have hfit' : h.size (h.ptr prevp) ≥ nunits := by
      rw [show h.ptr prevp = a from hend]
      exact hfit
    exact ⟨prevp, hprev, hfit',
      by rw [findFit_turn hc (hc.ring.next_mem prevp hprev), if_pos hfit']⟩
  | succ k ih =>
    obtain ⟨fuel, rfl⟩ := Nat.exists_eq_succ_of_ne_zero (Nat.ne_of_gt (Nat.zero_lt_of_lt hk))
    have hpF := hc.ring.next_mem prevp hprev
    by_cases hfit' : h.size (h.ptr prevp) ≥ nunits
    · exact ⟨prevp, hprev, hfit', by rw [findFit_turn hc hpF, if_pos hfit']⟩
    · obtain ⟨q, hq, hqfit, hrun⟩ := ih (Nat.lt_of_succ_lt_succ hk) hpF hend
        fun j hj => hbefore (j + 1) (Nat.succ_lt_succ hj)
      have hne : h.ptr prevp ≠ h.freep := hbefore 0 (Nat.succ_pos k)
      refine ⟨q, hq, hqfit, ?_⟩
      rw [findFit_turn hc hpF, if_neg hfit', if_neg hne, hrun]

/-- What `malloc` does when it has come round. -/
def Heap.refill (h : Heap) (nunits fuel : ℕ) : Except Stop (ℕ × Heap) :=
  h.morecore nunits >>= fun r =>
    if r.1 = 0 then .ok (0, r.2)
    else r.2.access r.1 >>= fun _ => Heap.findFit nunits fuel r.2 r.1 (r.2.ptr r.1)

/-- If no block is large enough, more memory is asked for. -/
theorem findFit_of_full (hc : Core h start F U) (hfull : ∀ a ∈ F, h.size a < nunits) (k fuel : ℕ)
    (hprev : prevp ∈ F) (hend : h.ptr^[k] (h.ptr prevp) = h.freep) :
    ∃ l, Heap.findFit nunits (fuel + k + 1) h prevp (h.ptr prevp)
      = h.refill nunits (fuel + l) := by
  have hpF := hc.ring.next_mem prevp hprev
  have hsmall := not_le.mpr (hfull _ hpF)
  induction k generalizing prevp with
  | zero =>
    have hself : h.ptr prevp = h.freep := hend
    refine ⟨0, ?_⟩
    rw [findFit_turn hc hpF, if_neg hsmall, if_pos hself]
    rfl
  | succ k ih =>
    rw [findFit_turn hc hpF, if_neg hsmall]
    by_cases hself : h.ptr prevp = h.freep
    · rw [if_pos hself]
      exact ⟨k + 1, rfl⟩
    · rw [if_neg hself]
      have hpF' := hc.ring.next_mem _ hpF
      exact ih hpF hend hpF' (not_le.mpr (hfull _ hpF'))

/-! ## `malloc` -/

/-- What `malloc` leaves: the heap as it was, or with a block of `nunits` handed out. -/
structure Outcome (h h' : Heap) (start : ℕ) (U : Finset ℕ) (nunits r : ℕ) : Prop where
  size : ∀ x ∈ U, h'.size x = h.size x
  result : (r = 0 ∧ ∃ F', Core h' start F' U ∧ h'.freep ∈ F')
    ∨ ∃ a F', r = a + 16 ∧ a ∉ U ∧ h'.size a = nunits ∧ Core h' start F' (insert a U)
      ∧ h'.freep ∈ F'

theorem Taken.outcome {F' : Finset ℕ} (ht : Taken h h' start U nunits a F') :
    Outcome h h' start U nunits (a + 16) :=
  ⟨ht.size, Or.inr ⟨a, F', rfl, ht.new, ht.size_new, ht.core, ht.freep⟩⟩

/-- With room in the list, a block is handed out. -/
theorem findFit_room (hc : Core h start F U) (hfreep : h.freep ∈ F) (hpos : 0 < nunits)
    (hroom : ∃ a ∈ F, nunits ≤ h.size a) {fuel : ℕ} (hfuel : 2 ^ 33 ≤ fuel) :
    ∃ r h', Heap.findFit nunits fuel h h.freep (h.ptr h.freep) = .ok (r, h')
      ∧ Outcome h h' start U nunits r := by
  obtain ⟨a, ha, hfit⟩ := hroom
  obtain ⟨k, hk, hend, hbefore⟩ := hc.ring.exists_iterate_before hfreep ha
  have hcard := hc.card_le
  unfold physTop kernBase at hcard
  have hk' : k < fuel := by omega
  obtain ⟨q, hq, hqfit, hrun⟩ := findFit_of_room hc hfit k hk' hfreep hend hbefore
  obtain ⟨b, h', F', htake, htaken⟩ := take_spec hc hq rfl hpos hqfit
  exact ⟨b + 16, h', hrun.trans htake, htaken.outcome⟩

theorem Core.setGrants (hc : Core h start F U) (grants : List Bool) :
    Core { h with grants := grants } start F U :=
  ⟨hc.ring, hc.base_mem, hc.base_pos, hc.base_lt, hc.base_size, hc.packed, hc.apart, hc.start_le,
    hc.brk_le⟩

theorem refill_spec (hc : Core h start F U) (hfreep : h.freep ∈ F) (hpos : 0 < nunits)
    (hunits : 16 * nunits < 2 ^ 31) {fuel : ℕ} (hfuel : 2 ^ 33 ≤ fuel) :
    ∃ r h', h.refill nunits fuel = .ok (r, h') ∧ Outcome h h' start U nunits r := by
  unfold Heap.refill
  rcases morecore_spec hc hfreep hunits with ⟨grants, hmore⟩ | ⟨h₁, F₁, hmore, hgrown⟩
  · rw [hmore, ok_bind, if_pos rfl]
    exact ⟨0, _, rfl, fun _ _ => rfl, Or.inl ⟨rfl, F, hc.setGrants grants, hfreep⟩⟩
  · have hne := (hgrown.core.pos_of_mem hgrown.freep).ne'
    obtain ⟨r, h', hrun, hout⟩ :=
      findFit_room hgrown.core hgrown.freep hpos hgrown.room hfuel
    refine ⟨r, h', ?_, fun x hx => (hout.size x hx).trans (hgrown.size x hx), hout.result⟩
    rw [hmore, ok_bind, if_neg hne, hgrown.core.access_node hgrown.freep, ok_bind, hrun]

theorem findFit_spec (hc : Core h start F U) (hfreep : h.freep ∈ F) (hpos : 0 < nunits)
    (hunits : 16 * nunits < 2 ^ 31) :
    ∃ r h', Heap.findFit nunits Heap.turns h h.freep (h.ptr h.freep) = .ok (r, h')
      ∧ Outcome h h' start U nunits r := by
  by_cases hroom : ∃ a ∈ F, nunits ≤ h.size a
  · exact findFit_room hc hfreep hpos hroom (by decide)
  · have hfull : ∀ a ∈ F, h.size a < nunits :=
      fun a ha => not_le.mp fun hle => hroom ⟨a, ha, hle⟩
    obtain ⟨k, hk, hend, -⟩ := hc.ring.exists_iterate_before hfreep hfreep
    have hcard := hc.card_le
    unfold physTop kernBase at hcard
    have hturns : Heap.turns = (Heap.turns - k - 1) + k + 1 := by
      unfold Heap.turns
      omega
    obtain ⟨l, hrun⟩ := findFit_of_full hc hfull k (Heap.turns - k - 1) hfreep hend
    rw [hturns, hrun]
    exact refill_spec hc hfreep hpos hunits (by unfold Heap.turns; omega)

/-! ## Programs -/

/-- The headers of blocks. -/
def headers (out : List (ℕ × ℕ)) : Finset ℕ := (out.map fun x => x.1 - 16).toFinset

/-- A program that has called the allocator. -/
structure Ready (start : ℕ) (st : Program) (F : Finset ℕ) : Prop where
  core : Core st.heap start F (headers st.out)
  freep : st.heap.freep ∈ F
  fits : ∀ x ∈ st.out, 16 ≤ x.1 ∧ x.2 + 16 ≤ 16 * st.heap.size (x.1 - 16)
  distinct : st.out.Pairwise fun x y => x.1 ≠ y.1

theorem mem_headers {out : List (ℕ × ℕ)} {x : ℕ × ℕ} (hx : x ∈ out) : x.1 - 16 ∈ headers out :=
  List.mem_toFinset.mpr (List.mem_map.mpr ⟨x, hx, rfl⟩)

variable {st st' : Program}

/-- The blocks of a program are its memory. -/
theorem Ready.real (hr : Ready start st F) : Real start st where
  inside := by
    intro x hx
    have hmem := Finset.mem_union_right (F.erase st.heap.base) (mem_headers hx)
    have hlower := hr.core.packed.lower _ hmem
    have hupper := hr.core.packed.upper _ hmem
    have hfits := hr.fits x hx
    omega
  apart := by
    refine hr.distinct.imp_of_mem fun {x y} hx hy hne => ?_
    have hmemx := Finset.mem_union_right (F.erase st.heap.base) (mem_headers hx)
    have hmemy := Finset.mem_union_right (F.erase st.heap.base) (mem_headers hy)
    have hfitx := hr.fits x hx
    have hfity := hr.fits y hy
    rcases hr.core.packed.disjoint hmemx hmemy (by omega) with hd | hd
    · left
      omega
    · right
      omega

/-- The first call of `malloc` makes the ring of `base`. -/
theorem Started.core_init (hs : Started start st) (grants : List Bool) :
    Core { st.heap with grants := grants }.init start {st.heap.base} ∅
      ∧ { st.heap with grants := grants }.init.freep ∈ ({st.heap.base} : Finset ℕ) := by
  unfold Heap.init
  rw [if_pos hs.freep]
  refine ⟨?_, Finset.mem_singleton_self _⟩
  constructor
  · refine (ring_singleton st.heap.base).congr fun a ha => ?_
    rw [Finset.mem_singleton.mp ha]
    exact update_self ..
  · exact Finset.mem_singleton_self _
  · exact hs.base_pos
  · exact hs.base_lt
  · exact update_self ..
  · dsimp only
    rw [Finset.erase_singleton, Finset.union_empty]
    exact packed_empty ..
  · intro a _ hmem
    exact absurd hmem (Finset.notMem_empty a)
  · exact hs.brk.ge
  · exact hs.brk.le.trans hs.start_le

/-- The sizes that `malloc` can ask the kernel for. -/
def Small : Event → Prop
  | .malloc nbytes _ => nbytes.toNat ≤ 2 ^ 31 - 32
  | _ => True

instance : (e : Event) → Decidable (Small e)
  | .malloc nbytes _ => inferInstanceAs (Decidable (nbytes.toNat ≤ 2 ^ 31 - 32))
  | .free _ | .write _ _ _ => inferInstanceAs (Decidable True)

theorem malloc_of_core {nbytes : UInt32} (hc : Core h.init start F U) (hfreep : h.init.freep ∈ F)
    (hsmall : nbytes.toNat ≤ 2 ^ 31 - 32) :
    ∃ r h', h.malloc nbytes = .ok (r, h')
      ∧ Outcome h.init h' start U ((nbytes.toNat + 16 - 1) / 16 + 1) r :=
  findFit_spec hc hfreep (Nat.succ_pos _) (by omega)

theorem Outcome.ready {out : List (ℕ × ℕ)} {r n : ℕ}
    (ho : Outcome h h' start (headers out) ((n + 16 - 1) / 16 + 1) r)
    (hfits : ∀ x ∈ out, 16 ≤ x.1 ∧ x.2 + 16 ≤ 16 * h.size (x.1 - 16))
    (hdistinct : out.Pairwise fun x y => x.1 ≠ y.1) :
    ∃ F, Ready start ⟨h', if r = 0 then out else (r, n) :: out⟩ F := by
  have hfits' : ∀ x ∈ out, 16 ≤ x.1 ∧ x.2 + 16 ≤ 16 * h'.size (x.1 - 16) :=
    fun x hx => ho.size _ (mem_headers hx) ▸ hfits x hx
  rcases ho.result with ⟨rfl, F, hc, hfreep⟩ | ⟨a, F, rfl, hnew, hsize, hc, hfreep⟩
  · rw [if_pos rfl]
    exact ⟨F, hc, hfreep, hfits', hdistinct⟩
  · rw [if_neg (Nat.succ_ne_zero _)]
    refine ⟨F, ?_, hfreep, ?_, ?_⟩
    · have hset : headers ((a + 16, n) :: out) = insert a (headers out) := by
        unfold headers
        rw [List.map_cons, List.toFinset_cons, Nat.add_sub_cancel]
      exact hset ▸ hc
    · intro x hx
      rcases List.mem_cons.mp hx with rfl | hx
      · dsimp only
        rw [Nat.add_sub_cancel, hsize]
        omega
      · exact hfits' x hx
    · refine List.pairwise_cons.mpr ⟨fun y hy heq => hnew ?_, hdistinct⟩
      have := mem_headers hy
      rwa [← heq, Nat.add_sub_cancel] at this

theorem step_malloc_started (hs : Started start st) (nbytes : UInt32) (grants : List Bool)
    (hsmall : nbytes.toNat ≤ 2 ^ 31 - 32) :
    ∃ st' F, step st (.malloc nbytes grants) = .ok st' ∧ Ready start st' F := by
  obtain ⟨hc, hfreep⟩ := hs.core_init grants
  obtain ⟨r, h', hrun, hout⟩ := malloc_of_core hc hfreep hsmall
  have hnil : headers [] = ∅ := rfl
  rw [← hnil] at hout
  obtain ⟨F, hready⟩ := hout.ready (fun x hx => absurd hx List.not_mem_nil) List.Pairwise.nil
  refine ⟨_, F, ?_, hready⟩
  simp only [step, hrun, ok_bind, hs.out]
  rfl

theorem step_malloc_ready (hr : Ready start st F) (nbytes : UInt32) (grants : List Bool)
    (hsmall : nbytes.toNat ≤ 2 ^ 31 - 32) :
    ∃ st' F', step st (.malloc nbytes grants) = .ok st' ∧ Ready start st' F' := by
  have hinit : { st.heap with grants := grants }.init = { st.heap with grants := grants } :=
    if_neg (hr.core.pos_of_mem hr.freep).ne'
  have hc := hr.core.setGrants grants
  rw [← hinit] at hc
  obtain ⟨r, h', hrun, hout⟩ := malloc_of_core hc (by rw [hinit]; exact hr.freep) hsmall
  rw [hinit] at hout
  obtain ⟨F', hready⟩ := hout.ready hr.fits hr.distinct
  refine ⟨_, F', ?_, hready⟩
  simp only [step, hrun, ok_bind]
  rfl

theorem step_free (hr : Ready start st F) {ap : ℕ} (he : Enabled st (.free ap)) :
    ∃ st' F', step st (.free ap) = .ok st' ∧ Ready start st' F' := by
  obtain ⟨x, hx, rfl⟩ := he
  have hx16 := (hr.fits x hx).1
  obtain ⟨h', F', hrun, hfreed⟩ := free_spec hr.core hr.freep (mem_headers hx)
  rw [Nat.sub_add_cancel hx16] at hrun
  refine ⟨⟨h', st.out.filter fun y => y.1 ≠ x.1⟩, F', ?_, ?_, hfreed.freep, ?_, ?_⟩
  · simp only [step, hrun, ok_bind]
    rfl
  · have hset : headers (st.out.filter fun y => y.1 ≠ x.1) = (headers st.out).erase (x.1 - 16) := by
      ext b
      simp only [headers, List.mem_toFinset, List.mem_map, List.mem_filter, Finset.mem_erase,
        decide_eq_true_eq]
      constructor
      · rintro ⟨y, ⟨hy, hne⟩, rfl⟩
        have hy16 := (hr.fits y hy).1
        exact ⟨by omega, y, hy, rfl⟩
      · rintro ⟨hne, y, hy, rfl⟩
        exact ⟨y, ⟨hy, fun heq => hne (by rw [heq])⟩, rfl⟩
    exact hset ▸ hfreed.core
  · intro y hy
    obtain ⟨hy, hne⟩ := List.mem_filter.mp hy
    have hne' : y.1 ≠ x.1 := of_decide_eq_true hne
    have hy16 := (hr.fits y hy).1
    dsimp only
    rw [hfreed.size _ (mem_headers hy) (by omega)]
    exact hr.fits y hy
  · exact hr.distinct.filter _

/-- A write to a block changes no header. -/
theorem step_write (hr : Ready start st F) {a ptr size : ℕ} (he : Enabled st (.write a ptr size)) :
    ∃ st', step st (.write a ptr size) = .ok st' ∧ Ready start st' F := by
  obtain ⟨x, hx, hlt, hgt⟩ := he
  refine ⟨_, rfl, ?_⟩
  have hmem := Finset.mem_union_right (F.erase st.heap.base) (mem_headers hx)
  have hfits := hr.fits x hx
  have hbase := hr.core.base_lt_of_mem hmem
  have haB : a ∉ F.erase st.heap.base ∪ headers st.out :=
    hr.core.packed.not_mem_inside hmem (by omega) (by omega)
  have hab : a ≠ st.heap.base := by omega
  have haF : ∀ y ∈ F, y ≠ a := by
    rintro y hy rfl
    exact haB (mem_blocks_of_free hy hab)
  have hsize : ∀ y ∈ F.erase st.heap.base ∪ headers st.out,
      update st.heap.size a size y = st.heap.size y := by
    intro y hy
    have hya : y ≠ a := by
      rintro rfl
      exact haB hy
    exact update_of_ne hya ..
  refine ⟨?_, hr.freep, ?_, hr.distinct⟩
  · constructor
    · exact hr.core.ring.congr fun y hy => update_of_ne (haF y hy) ..
    · exact hr.core.base_mem
    · exact hr.core.base_pos
    · exact hr.core.base_lt
    · exact (update_of_ne hab.symm ..).trans hr.core.base_size
    · exact hr.core.packed.congr fun y hy => congrArg (16 * ·) (hsize y hy)
    · exact hr.core.apart
    · exact hr.core.start_le
    · exact hr.core.brk_le
  · intro y hy
    dsimp only
    rw [hsize _ (Finset.mem_union_right _ (mem_headers hy))]
    exact hr.fits y hy

/-- A program before or after its first call of `malloc`. -/
def Inv (start : ℕ) (st : Program) : Prop := Started start st ∨ ∃ F, Ready start st F

theorem Inv.real (hi : Inv start st) : Real start st := by
  rcases hi with hs | ⟨F, hr⟩
  · exact ⟨by simp [hs.out], by simp [hs.out]⟩
  · exact hr.real

/-- **Every call returns** and keeps the heap in order. -/
theorem Inv.step (hi : Inv start st) {e : Event} (he : Enabled st e) (hsmall : Small e) :
    ∃ st', step st e = .ok st' ∧ Inv start st' := by
  rcases hi with hs | ⟨F, hr⟩
  · cases e with
    | malloc nbytes grants =>
      obtain ⟨st', F, hrun, hready⟩ := step_malloc_started hs nbytes grants hsmall
      exact ⟨st', hrun, Or.inr ⟨F, hready⟩⟩
    | free ap =>
      obtain ⟨x, hx, -⟩ := he
      rw [hs.out] at hx
      exact absurd hx List.not_mem_nil
    | write a ptr size =>
      obtain ⟨x, hx, -⟩ := he
      rw [hs.out] at hx
      exact absurd hx List.not_mem_nil
  · cases e with
    | malloc nbytes grants =>
      obtain ⟨st', F', hrun, hready⟩ := step_malloc_ready hr nbytes grants hsmall
      exact ⟨st', hrun, Or.inr ⟨F', hready⟩⟩
    | free ap =>
      obtain ⟨st', F', hrun, hready⟩ := step_free hr he
      exact ⟨st', hrun, Or.inr ⟨F', hready⟩⟩
    | write a ptr size =>
      obtain ⟨st', hrun, hready⟩ := step_write hr he
      exact ⟨st', hrun, Or.inr ⟨F, hready⟩⟩

theorem Run.inv {es : List Event} (h : Run start es st) (hsmall : ∀ e ∈ es, Small e) :
    Inv start st := by
  induction h with
  | start hs => exact Or.inl hs
  | step e _ he hs ih =>
    obtain ⟨st₁, hrun, hinv⟩ :=
      (ih fun d hd => hsmall d (List.mem_cons_of_mem e hd)).step he (hsmall e List.mem_cons_self)
    exact Except.ok.inj (hs.symm.trans hrun) ▸ hinv

/-- **`malloc` hands out real memory** in every run that asks for sizes in the range of `sbrk`. -/
theorem malloc_real_memory {es : List Event} (h : Run start es st) (hsmall : ∀ e ∈ es, Small e) :
    Real start st ∧ ∀ e, Enabled st e → Small e → ∃ st', step st e = .ok st' := by
  have hinv := h.inv hsmall
  refine ⟨hinv.real, fun e he hs => ?_⟩
  obtain ⟨st', hrun, -⟩ := hinv.step he hs
  exact ⟨st', hrun⟩

/-- Run a list of events, if the program may. -/
def runEvents (st : Program) : List Event → Option Program
  | [] => some st
  | e :: es =>
    if Enabled st e then (step st e).toOption.bind fun st' => runEvents st' es else none

theorem Run.events {es ds : List Event} (h : Run start es st) (hrun : runEvents st ds = some st') :
    Run start (ds.reverse ++ es) st' := by
  induction ds generalizing es st with
  | nil => exact Option.some.inj hrun ▸ h
  | cons d ds ih =>
    unfold runEvents at hrun
    split_ifs at hrun with he
    obtain ⟨st₁, hs, hrest⟩ := Option.bind_eq_some_iff.mp hrun
    have hstep : Umalloc.step st d = .ok st₁ := by
      cases hd : Umalloc.step st d with
      | error e =>
        rw [hd] at hs
        cases hs
      | ok st₂ =>
        rw [hd] at hs
        exact congrArg Except.ok (Option.some.inj hs)
    rw [List.reverse_cons, List.append_assoc]
    exact ih (h.step d he hstep) hrest

/-- A program with `base` at `0x1000` and the break at `0x4000`. -/
def smallProgram : Program := ⟨⟨0x1000, fun _ => 0, fun _ => 0, 0, 0x4000, []⟩, []⟩

theorem started_smallProgram : Started 0x4000 smallProgram := by
  constructor <;> decide

/-- Two blocks of a program, the second made from what the first left. -/
theorem malloc_real_memory_two : ∃ es st, Run 0x4000 es st ∧ st.out.length = 2
    ∧ Real 0x4000 st := by
  have hrun : ((runEvents smallProgram [.malloc 100 [true], .malloc 20 []]).any fun st =>
      st.out.length = 2) = true := by
    decide +kernel
  cases hst : runEvents smallProgram [.malloc 100 [true], .malloc 20 []] with
  | none =>
    rw [hst] at hrun
    cases hrun
  | some st =>
    rw [hst] at hrun
    have h := (Run.start started_smallProgram).events hst
    refine ⟨_, st, h, of_decide_eq_true hrun, (malloc_real_memory h ?_).1⟩
    intro e he
    simp only [List.append_nil, List.mem_reverse, List.mem_cons, List.not_mem_nil, or_false] at he
    rcases he with rfl | rfl <;> decide

/-- `malloc(0xFFFFFFFF)` asks the kernel for 16 bytes and hands out a block beyond the break. -/
theorem malloc_beyond_break : ∃ es st, Run 0x4000 es st ∧ ¬ Real 0x4000 st := by
  have hrun : ((runEvents smallProgram [.malloc 0xFFFFFFFF [true]]).any fun st =>
      decide (st.out = [(0x4010, 0xFFFFFFFF)] ∧ st.heap.brk = 0x4010)) = true := by
    decide +kernel
  cases hst : runEvents smallProgram [.malloc 0xFFFFFFFF [true]] with
  | none =>
    rw [hst] at hrun
    cases hrun
  | some st =>
    rw [hst] at hrun
    obtain ⟨hout, hbrk⟩ := of_decide_eq_true hrun
    refine ⟨_, st, (Run.start started_smallProgram).events hst, fun hreal => ?_⟩
    have hmem : (0x4010, 0xFFFFFFFF) ∈ st.out := by
      rw [hout]
      exact List.mem_singleton_self _
    have hinside := (hreal.inside _ hmem).2
    rw [hbrk] at hinside
    exact absurd hinside (by decide)

end Xv6.Umalloc
