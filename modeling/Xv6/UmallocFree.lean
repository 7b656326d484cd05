/-
# `free` keeps the heap in order

The nodes of the free list are a ring in the order of their addresses, with `base` as the smallest,
and the free and the given-out blocks lie side by side between the first and the current break
(`Core`).  `free` links the block behind its place and joins it with its neighbours.
-/
import Xv6.OrderedRing
import Xv6.Packing
import Xv6.UmallocModel

namespace Xv6.Umalloc

open Function OrderedRing Packing

variable {h h' : Heap} {start : ℕ} {F U : Finset ℕ} {a bp p : ℕ}

theorem ok_bind {α β : Type} (a : α) (f : α → Except Stop β) : (Except.ok a >>= f) = f a := rfl

/-- The heap with the nodes `F` of the free list and the headers `U` of the blocks given out. -/
structure Core (h : Heap) (start : ℕ) (F U : Finset ℕ) : Prop where
  ring : Ring F h.ptr
  base_mem : h.base ∈ F
  base_pos : 0 < h.base
  base_lt : h.base + 16 ≤ start
  base_size : h.size h.base = 0
  packed : Packed (F.erase h.base ∪ U) (fun a => 16 * h.size a) start h.brk
  apart : ∀ a ∈ F, a ∉ U
  start_le : start ≤ h.brk
  brk_le : h.brk ≤ physTop

theorem mem_blocks_of_free (ha : a ∈ F) (hne : a ≠ h.base) : a ∈ F.erase h.base ∪ U :=
  Finset.mem_union_left _ (Finset.mem_erase.mpr ⟨hne, ha⟩)

theorem le_pgRoundUp (n : ℕ) : n ≤ pgRoundUp n := by
  unfold pgRoundUp pgSize
  omega

namespace Core

theorem base_lt_of_mem (hc : Core h start F U) (ha : a ∈ F.erase h.base ∪ U) : h.base < a := by
  have := hc.packed.lower a ha
  have := hc.base_lt
  omega

theorem header_le (hc : Core h start F U) (ha : a ∈ F.erase h.base ∪ U) : a + 16 ≤ h.brk := by
  have hpos := hc.packed.pos a ha
  have hupper := hc.packed.upper a ha
  omega

/-- No access to a header is a page fault. -/
theorem access_block (hc : Core h start F U) (ha : a ∈ F.erase h.base ∪ U) :
    h.access a = .ok () :=
  if_pos ((hc.header_le ha).trans (le_pgRoundUp _))

theorem access_node (hc : Core h start F U) (ha : a ∈ F) : h.access a = .ok () := by
  by_cases hbase : a = h.base
  · have := hc.base_lt
    have := hc.start_le
    have := le_pgRoundUp h.brk
    exact if_pos (by omega)
  · exact hc.access_block (mem_blocks_of_free ha hbase)

theorem card_le (hc : Core h start F U) : F.card ≤ physTop := by
  have hsub : F ⊆ Finset.range h.brk := by
    intro a ha
    rw [Finset.mem_range]
    by_cases hbase : a = h.base
    · have := hc.base_lt
      have := hc.start_le
      omega
    · have := hc.header_le (U := U) (mem_blocks_of_free ha hbase)
      omega
  calc F.card ≤ (Finset.range h.brk).card := Finset.card_le_card hsub
    _ = h.brk := Finset.card_range _
    _ ≤ physTop := hc.brk_le

/-! ## The place of a block -/

theorem place_turn (hc : Core h start F U) (hp : p ∈ F) (bp fuel : ℕ) :
    h.place bp (fuel + 1) p
      = if Place h.ptr bp p then .ok p else h.place bp fuel (h.ptr p) := by
  rw [Heap.place, hc.access_node hp, ok_bind]
  by_cases hbetween : bp > p ∧ bp < h.ptr p
  · have hplace : Place h.ptr bp p := Or.inl hbetween
    rw [if_pos hbetween, if_pos hplace]
    rfl
  · rw [if_neg hbetween]
    by_cases hwrap : p ≥ h.ptr p ∧ (bp > p ∨ bp < h.ptr p)
    · have hplace : Place h.ptr bp p := Or.inr hwrap
      rw [if_pos hwrap, if_pos hplace]
      rfl
    · have hplace : ¬ Place h.ptr bp p := fun hor => hor.elim hbetween hwrap
      rw [if_neg hwrap, if_neg hplace]

/-- The loop of `free` ends at a place, if there is one ahead. -/
theorem place_loop (hc : Core h start F U) {b : ℕ} (hb : Place h.ptr bp b) (k : ℕ) {fuel : ℕ}
    (hk : k < fuel) (hp : p ∈ F) (hend : h.ptr^[k] p = b) :
    ∃ q ∈ F, Place h.ptr bp q ∧ h.place bp fuel p = .ok q := by
  induction k generalizing fuel p with
  | zero =>
    obtain ⟨fuel, rfl⟩ := Nat.exists_eq_succ_of_ne_zero (Nat.ne_of_gt hk)
    have hpb : p = b := hend
    exact ⟨p, hp, hpb ▸ hb, by rw [hc.place_turn hp, if_pos (hpb ▸ hb)]⟩
  | succ k ih =>
    obtain ⟨fuel, rfl⟩ := Nat.exists_eq_succ_of_ne_zero (Nat.ne_of_gt (Nat.zero_lt_of_lt hk))
    by_cases hplace : Place h.ptr bp p
    · exact ⟨p, hp, hplace, by rw [hc.place_turn hp, if_pos hplace]⟩
    · obtain ⟨q, hq, hplace', hrun⟩ := ih (Nat.lt_of_succ_lt_succ hk) (hc.ring.next_mem p hp) hend
      exact ⟨q, hq, hplace', by rw [hc.place_turn hp, if_neg hplace, hrun]⟩

/-- **The loop of `free`** finds the node behind which a block belongs. -/
theorem place_spec (hc : Core h start F U) (hfreep : h.freep ∈ F) (hbp : bp ∈ U) :
    ∃ p ∈ F, p < bp ∧ Place h.ptr bp p ∧ h.place bp Heap.turns h.freep = .ok p := by
  have hbase : h.base < bp := hc.base_lt_of_mem (Finset.mem_union_right _ hbp)
  obtain ⟨b, hbF, -, hb⟩ :=
    hc.ring.exists_place (fun hmem => hc.apart bp hmem hbp) hc.base_mem hbase
  obtain ⟨k, hk, hend⟩ := hc.ring.exists_iterate hfreep hbF
  have hturns : k < Heap.turns := by
    have := hc.card_le
    unfold physTop kernBase at this
    unfold Heap.turns
    omega
  obtain ⟨p, hp, hplace, hrun⟩ := hc.place_loop hb k hturns hfreep hend
  refine ⟨p, hp, ?_, hplace, hrun⟩
  -- the block is not below `base`
  rcases hc.ring.place_cases hp hplace with hcase | hcase | ⟨hsmall, -, hall⟩
  · exact hcase.1
  · exact hcase.1
  · have := (hall h.base hc.base_mem).2
    omega

end Core

/-! ## Linking and joining -/

namespace Heap

/-- The node `bp` is put behind `p`. -/
def linkAt (h : Heap) (bp p : ℕ) : Heap :=
  { h with ptr := update (update h.ptr bp (h.ptr p)) p bp }

/-- The node `a` takes in its successor. -/
def joinAt (h : Heap) (a : ℕ) : Heap :=
  { h with
    size := update h.size a ((h.size a + h.size (h.ptr a)) % 2 ^ 32)
    ptr := update h.ptr a (h.ptr (h.ptr a)) }

end Heap

theorem Core.linkAt (hc : Core h start F U) (hbp : bp ∈ U) (hp : p ∈ F)
    (hplace : Place h.ptr bp p) : Core (h.linkAt bp p) start (insert bp F) (U.erase bp) where
  ring := hc.ring.link hp (fun hmem => hc.apart bp hmem hbp) hplace
  base_mem := Finset.mem_insert_of_mem hc.base_mem
  base_pos := hc.base_pos
  base_lt := hc.base_lt
  base_size := hc.base_size
  packed := by
    have hne : bp ≠ h.base := fun heq => hc.apart h.base hc.base_mem (heq ▸ hbp)
    have hsame : (insert bp F).erase h.base ∪ U.erase bp = F.erase h.base ∪ U := by
      ext x
      simp only [Finset.mem_union, Finset.mem_erase, Finset.mem_insert]
      by_cases hx : x = bp
      · subst hx
        simp [hne, hbp]
      · simp [hx]
    exact hsame ▸ hc.packed
  apart := by
    intro x hx hxU
    obtain ⟨hne, hxU⟩ := Finset.mem_erase.mp hxU
    rcases Finset.mem_insert.mp hx with rfl | hxF
    · exact hne rfl
    · exact hc.apart x hxF hxU
  start_le := hc.start_le
  brk_le := hc.brk_le

/-- The sum of two sizes fits in a `uint`. -/
theorem Core.size_joinAt (hc : Core h start F U) (ha : a ∈ F) (hbase : a ≠ h.base)
    (hnext : a + 16 * h.size a = h.ptr a) : (h.joinAt a).size a = h.size a + h.size (h.ptr a) := by
  have hlt := hc.base_lt_of_mem (mem_blocks_of_free ha hbase)
  have hnB : h.ptr a ∈ F.erase h.base ∪ U :=
    mem_blocks_of_free (hc.ring.next_mem a ha) (by omega)
  have hupper := hc.packed.upper _ hnB
  have htop : h.brk < 2 ^ 32 := lt_of_le_of_lt hc.brk_le (by decide)
  simp only [Heap.joinAt, update_self]
  omega

theorem Core.joinAt (hc : Core h start F U) (ha : a ∈ F) (hbase : a ≠ h.base)
    (hnext : a + 16 * h.size a = h.ptr a) : Core (h.joinAt a) start (F.erase (h.ptr a)) U := by
  have haB : a ∈ F.erase h.base ∪ U := mem_blocks_of_free ha hbase
  have hpos := hc.packed.pos a haB
  have hlt := hc.base_lt_of_mem haB
  have hnF := hc.ring.next_mem a ha
  have hnB : h.ptr a ∈ F.erase h.base ∪ U := mem_blocks_of_free hnF (by omega)
  constructor
  · exact hc.ring.unlink ha (by omega)
  · exact Finset.mem_erase.mpr ⟨show h.base ≠ h.ptr a by omega, hc.base_mem⟩
  · exact hc.base_pos
  · exact hc.base_lt
  · exact (update_of_ne hbase.symm ..).trans hc.base_size
  · have hset : (F.erase (h.ptr a)).erase h.base ∪ U = (F.erase h.base ∪ U).erase (h.ptr a) := by
      rw [Finset.erase_union_distrib, Finset.erase_right_comm,
        Finset.erase_eq_of_notMem (hc.apart _ hnF)]
    have hjoin := hc.packed.join haB (by rwa [hnext])
    rw [hnext] at hjoin
    show Packed ((F.erase (h.ptr a)).erase h.base ∪ U) _ start h.brk
    rw [hset]
    refine hjoin.congr fun x hx => ?_
    by_cases hxa : x = a
    · rw [hxa, hc.size_joinAt ha hbase hnext, update_self]
      omega
    · simp only [Heap.joinAt, update_of_ne hxa]
  · intro x hx
    exact hc.apart x (Finset.mem_of_mem_erase hx)
  · exact hc.start_le
  · exact hc.brk_le

/-! ## `free` -/

/-- The second half of `free` in terms of linking and joining. -/
theorem joinLower_eq (g : Heap) (hne : p ≠ bp) :
    g.joinLower p bp = if p + 16 * g.size p = bp then
        { g with ptr := update g.ptr p bp }.joinAt p
      else { g with ptr := update g.ptr p bp } := by
  unfold Heap.joinLower Heap.joinAt
  split_ifs with hlow
  · simp only [update_self, update_of_ne hne.symm, update_idem]
  · rfl

theorem joinUpper_eq (hc : Core h start F U) (hp : p ∈ F) (hlt : p < bp) (hbp : bp ∈ U) :
    ∃ g, h.joinUpper bp (h.ptr p) = .ok g ∧ { g with ptr := update g.ptr p bp }
      = if bp + 16 * h.size bp = h.ptr p then (h.linkAt bp p).joinAt bp else h.linkAt bp p := by
  have hn := hc.ring.next_mem p hp
  unfold Heap.joinUpper
  by_cases hup : bp + 16 * h.size bp = h.ptr p
  · rw [if_pos hup, if_pos hup, hc.access_node hn, ok_bind]
    refine ⟨_, rfl, ?_⟩
    have hpos := hc.packed.pos bp (Finset.mem_union_right _ hbp)
    have hnp : h.ptr p ≠ p := by omega
    have hnb : h.ptr p ≠ bp := by omega
    unfold Heap.joinAt Heap.linkAt
    simp only [update_of_ne hlt.ne', update_self, update_of_ne hnp,
      update_of_ne hnb]
    rw [update_comm hlt.ne, update_idem]
  · rw [if_neg hup, if_neg hup]
    exact ⟨_, rfl, rfl⟩

/-- The block `bp` is in the list, behind `p`, and may have taken in the block behind it. -/
structure Linked (h h' : Heap) (start : ℕ) (U : Finset ℕ) (bp p : ℕ) (F' : Finset ℕ) : Prop where
  core : Core h' start F' (U.erase bp)
  mem : p ∈ F'
  ptr : h'.ptr p = bp
  brk : h'.brk = h.brk
  base : h'.base = h.base
  size : ∀ x, x ≠ bp → h'.size x = h.size x
  room : h.size bp ≤ h'.size bp

theorem linked_upper (hc : Core h start F U) (hbp : bp ∈ U) (hp : p ∈ F) (hlt : p < bp)
    (hplace : Place h.ptr bp p) : ∃ F', Linked h
      (if bp + 16 * h.size bp = h.ptr p then (h.linkAt bp p).joinAt bp else h.linkAt bp p)
      start U bp p F' := by
  have hlink := hc.linkAt hbp hp hplace
  have hself : (h.linkAt bp p).ptr p = bp := update_self ..
  have hnew : (h.linkAt bp p).ptr bp = h.ptr p := by
    simp only [Heap.linkAt, update_of_ne hlt.ne', update_self]
  split_ifs with hup
  · have hbase := hc.base_lt_of_mem (Finset.mem_union_right _ hbp)
    have hpos := hc.packed.pos bp (Finset.mem_union_right _ hbp)
    have hjoin := hlink.joinAt (Finset.mem_insert_self bp F) hbase.ne' (hup.trans hnew.symm)
    have hroom : h.size bp ≤ ((h.linkAt bp p).joinAt bp).size bp := by
      rw [hlink.size_joinAt (Finset.mem_insert_self bp F) hbase.ne' (hup.trans hnew.symm)]
      exact Nat.le_add_right ..
    refine ⟨_, hjoin, ?_, ?_, rfl, rfl, ?_, hroom⟩
    · rw [hnew, Finset.mem_erase]
      exact ⟨by omega, Finset.mem_insert_of_mem hp⟩
    · exact (update_of_ne hlt.ne ..).trans hself
    · intro x hx
      exact update_of_ne hx ..
  · exact ⟨_, hlink, Finset.mem_insert_of_mem hp, hself, rfl, rfl, fun _ _ => rfl, le_rfl⟩

/-- A heap after the block `bp` is given back. -/
structure Freed (h h' : Heap) (start : ℕ) (U : Finset ℕ) (bp : ℕ) (F' : Finset ℕ) : Prop where
  core : Core h' start F' (U.erase bp)
  freep : h'.freep ∈ F'
  brk : h'.brk = h.brk
  base : h'.base = h.base
  size : ∀ x ∈ U, x ≠ bp → h'.size x = h.size x
  /-- Some node is as large as the block. -/
  room : ∃ a ∈ F', h.size bp ≤ h'.size a

theorem Core.setFreep (hc : Core h start F U) (p : ℕ) : Core { h with freep := p } start F U :=
  ⟨hc.ring, hc.base_mem, hc.base_pos, hc.base_lt, hc.base_size, hc.packed, hc.apart, hc.start_le,
    hc.brk_le⟩

theorem freed_lower {g : Heap} {F' : Finset ℕ} (hl : Linked h g start U bp p F') (hlt : p < bp) :
    ∃ F'', Freed h { (if p + 16 * g.size p = bp then g.joinAt p else g) with freep := p }
      start U bp F'' := by
  have hsame : ∀ x ∈ U, x ≠ bp → g.size x = h.size x := fun x _ hx => hl.size x hx
  have hbpF : bp ∈ F' := hl.ptr ▸ hl.core.ring.next_mem p hl.mem
  split_ifs with hlow
  · have hne : p ≠ g.base := by
      rintro rfl
      rw [hl.core.base_size] at hlow
      omega
    have hnext : p + 16 * g.size p = g.ptr p := hlow.trans hl.ptr.symm
    have hpos := hl.core.packed.pos p (mem_blocks_of_free hl.mem hne)
    have hjoin := hl.core.joinAt hl.mem hne hnext
    have hmem : p ∈ F'.erase (g.ptr p) := Finset.mem_erase.mpr ⟨by omega, hl.mem⟩
    refine ⟨_, hjoin.setFreep p, hmem, hl.brk, hl.base, ?_, p, hmem, ?_⟩
    · intro x hx hxb
      refine (update_of_ne ?_ ..).trans (hsame x hx hxb)
      rintro rfl
      exact hl.core.apart x hl.mem (Finset.mem_erase.mpr ⟨hxb, hx⟩)
    · have hsize := hl.core.size_joinAt hl.mem hne hnext
      have hroom := hl.room
      rw [hl.ptr] at hsize
      exact hroom.trans (by rw [hsize]; exact Nat.le_add_left ..)
  · exact ⟨F', hl.core.setFreep p, hl.mem, hl.brk, hl.base, hsame, bp, hbpF, hl.room⟩

theorem free_spec (hc : Core h start F U) (hfreep : h.freep ∈ F) (hbp : bp ∈ U) :
    ∃ h' F', h.free (bp + 16) = .ok h' ∧ Freed h h' start U bp F' := by
  obtain ⟨p, hp, hlt, hplace, hrun⟩ := hc.place_spec hfreep hbp
  obtain ⟨g, hg, hgeq⟩ := joinUpper_eq hc hp hlt hbp
  obtain ⟨F₁, hl⟩ := linked_upper hc hbp hp hlt hplace
  rw [← hgeq] at hl
  obtain ⟨F₂, hfreed⟩ := freed_lower hl hlt
  refine ⟨_, F₂, ?_, hfreed⟩
  simp only [Heap.free, Nat.add_sub_cancel, hrun, ok_bind,
    hc.access_block (Finset.mem_union_right _ hbp), hg, joinLower_eq g hlt.ne]
  rfl

end Xv6.Umalloc
