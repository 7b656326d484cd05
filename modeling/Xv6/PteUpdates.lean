/-
# `mappages` and `uvmunmap` update the translation exactly

The three indices of an address determine its page, so that writing the entry `walk` leads to
changes the translation of one page (`lookup_store`), and the tables `walk` links on its way change
the translation of none (`walk_alloc`).  The loops of `mappages` and `uvmunmap` repeat these two
steps.
-/
import Xv6.PteModel
import Mathlib.Tactic.SplitIfs

namespace Xv6.Sv39

open RadixTree

variable {doFree : Bool} {a f stop : Word} {fuel : ℕ}

variable {s s' : State} {root : ℕ} {va va' pa perm w : Word}

/-! ## Bit fields -/

/-- The number of a virtual page. -/
def vpn (va : Word) : ℕ := va.toNat / 4096

theorem idx_val (level : ℕ) (va : Word) :
    (idx level va).val = va.toNat / 2 ^ (12 + 9 * level) % 512 := by
  unfold idx px
  simp only [BitVec.toNat_and, BitVec.toNat_ushiftRight, Nat.shiftRight_eq_div_pow]
  exact Nat.and_two_pow_sub_one_eq_mod _ 9

theorem lt_maxVa : va < maxVa ↔ va.toNat < 2 ^ 38 := by
  rw [BitVec.lt_def]
  rfl

theorem vpn_eq_iff (h : va < maxVa) (h' : va' < maxVa) :
    vpn va' = vpn va ↔
      idx 2 va' = idx 2 va ∧ idx 1 va' = idx 1 va ∧ idx 0 va' = idx 0 va := by
  rw [lt_maxVa] at h h'
  simp only [Fin.ext_iff, idx_val, vpn]
  omega

theorem valid_iff (w : Word) : w &&& pteV = 0 ↔ w.toNat % 2 = 0 := by
  rw [← BitVec.toNat_inj, BitVec.toNat_and]
  exact Eq.congr_left (Nat.and_one_is_mod _)

theorem toNat_pa2pte_or (hf : f.toNat < 1024) (pa : Word) :
    (pa2pte pa ||| f).toNat = pa.toNat / 4096 * 1024 + f.toNat := by
  have hpa := pa.isLt
  unfold pa2pte
  rw [BitVec.toNat_or, BitVec.toNat_shiftLeft, BitVec.toNat_ushiftRight,
    Nat.shiftRight_eq_div_pow, Nat.shiftLeft_eq, Nat.mod_eq_of_lt (by omega), ← Nat.shiftLeft_eq,
    ← Nat.shiftLeft_add_eq_or_of_lt (b := f.toNat) (i := 10) hf, Nat.shiftLeft_eq]

theorem pte2pa_or (hf : f.toNat < 1024) (hpa : pa.toNat % 4096 = 0) :
    pte2pa (pa2pte pa ||| f) = pa := by
  have hlt := pa.isLt
  apply BitVec.eq_of_toNat_eq
  unfold pte2pa
  rw [BitVec.toNat_shiftLeft, BitVec.toNat_ushiftRight, toNat_pa2pte_or hf,
    Nat.shiftRight_eq_div_pow, Nat.shiftLeft_eq]
  omega

theorem pteFlags_or (hf : f.toNat < 1024) (pa : Word) : pteFlags (pa2pte pa ||| f) = f := by
  apply BitVec.eq_of_toNat_eq
  unfold pteFlags
  rw [BitVec.toNat_and, toNat_pa2pte_or hf]
  refine (Nat.and_two_pow_sub_one_eq_mod _ 10).trans ?_
  omega

theorem flags_lt (hperm : perm.toNat < 1024) : (perm ||| pteV).toNat < 1024 := by
  rw [BitVec.toNat_or]
  exact Nat.or_lt_two_pow (n := 10) hperm (by decide)

theorem or_pteV_valid (w : Word) : (w ||| pteV) &&& pteV ≠ 0 := by
  rw [Ne, valid_iff, BitVec.toNat_or]
  have : (w.toNat ||| 1) % 2 = 1 := Nat.or_mod_two_eq_one.mpr (Or.inr rfl)
  exact fun h => absurd (this.symm.trans h) one_ne_zero

theorem toNat_pgRoundDown (a : Word) : (pgRoundDown a).toNat = a.toNat / 4096 * 4096 := by
  have hmask : pgRoundDown a = (a >>> 12) <<< 12 := by
    apply BitVec.eq_of_getLsbD_eq
    intro i hi
    unfold pgRoundDown
    have hm : (0xFFF : Word) = (BitVec.allOnes 12).setWidth 64 := by decide
    rw [hm]
    simp only [BitVec.getLsbD_and, BitVec.getLsbD_not, BitVec.getLsbD_setWidth,
      BitVec.getLsbD_allOnes, BitVec.getLsbD_shiftLeft, BitVec.getLsbD_ushiftRight, hi]
    by_cases h : i < 12
    · simp [h]
    · rw [Nat.add_sub_cancel' (Nat.le_of_not_lt h)]
      simp [h]
  rw [hmask, BitVec.toNat_shiftLeft, BitVec.toNat_ushiftRight, Nat.shiftRight_eq_div_pow,
    Nat.shiftLeft_eq]
  have := a.isLt
  omega

theorem nextTable_of_not_valid (h : w &&& pteV = 0) : nextTable w = none := if_pos h

theorem nextTable_of_valid (h : w &&& pteV ≠ 0) : nextTable w = some (pte2pa w).toNat := if_neg h

/-! ## Well-formed tables -/

/-- A three-level table: no table page is reached in two ways. -/
structure WellFormed (s : State) (root : ℕ) : Prop where
  aligned : root % 4096 = 0
  separated : Separated nextTable s.mem root 2

/-- The table pages are allocated, so that `kalloc` hands out none of them. -/
def TablesHeld (s : State) (root : ℕ) : Prop :=
  ∀ q t, q.length ≤ 2 → node nextTable s.mem root q = some t → t ∈ s.pool.outstanding

/-- The indices of the tables below a level. -/
def below : ℕ → Word → List (Fin 512)
  | 0, _ => []
  | level + 1, va => idx (level + 1) va :: below level va

/-- A word as the entry of a page. -/
def entry (pte : Word) : Option Word := if pte &&& pteV = 0 then none else some pte

theorem walkFrom_false (level : ℕ) (s : State) (table : ℕ) (va : Word) :
    walkFrom level s table va false
      = ((node nextTable s.mem table (below level va)).map fun t => (t, idx 0 va), s) := by
  induction level generalizing table with
  | zero => rfl
  | succ level ih =>
    unfold walkFrom below node
    by_cases h : s.mem table (idx (level + 1) va) &&& pteV = 0
    · rw [nextTable_of_not_valid h, if_neg (not_not.mpr h), if_pos rfl]
      rfl
    · rw [nextTable_of_valid h, if_pos h, ih]
      rfl

/-- What `walk` without allocation leads to. -/
theorem lookup_eq (h : va < maxVa) :
    lookup s root va = (word nextTable s.mem root (below 2 va) (idx 0 va)).bind entry := by
  unfold lookup walk word
  rw [if_neg (BitVec.not_le.mpr h), walkFrom_false]
  cases node nextTable s.mem root (below 2 va) <;> rfl

theorem lookup_of_maxVa (h : ¬ va < maxVa) : lookup s root va = none := by
  unfold lookup walk
  rw [if_pos (BitVec.not_lt.mp h)]
  rfl

theorem lookup_pool (s : State) (root : ℕ) (pool : PagePool) (va : Word) :
    lookup ⟨s.mem, pool⟩ root va = lookup s root va := by
  by_cases h : va < maxVa
  · rw [lookup_eq h, lookup_eq h]
  · rw [lookup_of_maxVa h, lookup_of_maxVa h]

theorem below_eq_iff (h : va < maxVa) (h' : va' < maxVa) :
    below 2 va' = below 2 va ∧ idx 0 va' = idx 0 va ↔ vpn va' = vpn va := by
  rw [vpn_eq_iff h h']
  simp [below, and_assoc]

theorem lt_maxVa_of_vpn (hva : va < maxVa) (h : vpn va' = vpn va) : va' < maxVa := by
  rw [lt_maxVa] at hva ⊢
  unfold vpn at h
  omega

/-- A translation is one of pages. -/
theorem lookup_congr (hva : va < maxVa) (h : vpn va' = vpn va) :
    lookup s root va' = lookup s root va := by
  have hva' := lt_maxVa_of_vpn hva h
  obtain ⟨hpath, hidx⟩ := (below_eq_iff hva hva').mpr h
  rw [lookup_eq hva', lookup_eq hva, hpath, hidx]

/-! ## One entry -/

section Store

variable {t : ℕ} (hwf : WellFormed s root) (ht : node nextTable s.mem root (below 2 va) = some t)

include hwf ht

/-- **Writing an entry** of level 0 changes the translation of its page only. -/
theorem lookup_store (hva : va < maxVa) (w : Word) (pool : PagePool) (va' : Word) :
    lookup ⟨write s.mem t (idx 0 va) w, pool⟩ root va'
      = if vpn va' = vpn va then entry w else lookup s root va' := by
  by_cases hva' : va' < maxVa
  · rw [lookup_eq hva', lookup_eq hva', word_write hwf.separated ht rfl _ _ rfl]
    simp only [below_eq_iff hva hva']
    split_ifs <;> rfl
  · rw [if_neg fun h => hva' (lt_maxVa_of_vpn hva h), lookup_of_maxVa hva', lookup_of_maxVa hva']

theorem WellFormed.store (i : Fin 512) (w : Word) (pool : PagePool) :
    WellFormed ⟨write s.mem t i w, pool⟩ root :=
  ⟨hwf.aligned, hwf.separated.write ht rfl i w⟩

theorem TablesHeld.store (hheld : TablesHeld s root) (i : Fin 512) (w : Word) :
    TablesHeld ⟨write s.mem t i w, s.pool⟩ root := by
  intro q u hq hu
  rw [node_write hwf.separated ht rfl i w hq] at hu
  exact hheld q u hq hu

end Store

/-! ## `walk` with allocation -/

/-- A step that keeps the table well formed and every translation. -/
structure Kept (root : ℕ) (s s' : State) : Prop where
  wellFormed : WellFormed s' root
  held : TablesHeld s' root
  lookup_eq : ∀ va', lookup s' root va' = lookup s root va'

theorem Kept.trans {s₁ s₂ s₃ : State} (h : Kept root s₁ s₂) (h' : Kept root s₂ s₃) :
    Kept root s₁ s₃ :=
  ⟨h'.wellFormed, h'.held, fun va' => (h'.lookup_eq va').trans (h.lookup_eq va')⟩

theorem nextTable_link {page : ℕ} (hpage : page % 4096 = 0) (hlt : page < 2 ^ 64) :
    nextTable (pa2pte (BitVec.ofNat 64 page) ||| pteV) = some page := by
  have hnat : (BitVec.ofNat 64 page).toNat = page := by
    rw [BitVec.toNat_ofNat, Nat.mod_eq_of_lt hlt]
  rw [nextTable_of_valid (or_pteV_valid _), pte2pa_or (by decide) (by rwa [hnat]), hnat]

theorem nextTable_link_page {m : PagePool} {page : ℕ} (h : m.IsPage page) :
    nextTable (pa2pte (BitVec.ofNat 64 page) ||| pteV) = some page :=
  nextTable_link h.1 (lt_of_lt_of_le h.2.2 (by decide))

section Link

variable {p : List (Fin 512)} {t page : ℕ} {i : Fin 512} {pool : PagePool}
  (hwf : WellFormed s root) (hheld : TablesHeld s root) (ht : node nextTable s.mem root p = some t)
  (hp : p.length < 2) (hinvalid : s.mem t i &&& pteV = 0)
  (hpage : s.pool.IsPage page) (hfree : page ∉ s.pool.outstanding)
  (hpool : pool.outstanding = insert page s.pool.outstanding)

include hwf hheld ht hp hinvalid hpage hfree

theorem node_linked {q : List (Fin 512)} (hq : q.length ≤ 2) :
    node nextTable (write (fill s.mem page 0) t i (pa2pte (BitVec.ofNat 64 page) ||| pteV)) root q
      = if q = p ++ [i] then some page else node nextTable s.mem root q :=
  node_link hwf.separated ht hp (nextTable_of_not_valid hinvalid)
    (fun r hr h => hfree (hheld r page hr h))
    (nextTable_link_page hpage) rfl hq

include hpool

/-- **The table that `walk` links** is empty: no translation changes. -/
theorem kept_link :
    Kept root s ⟨write (fill s.mem page 0) t i (pa2pte (BitVec.ofNat 64 page) ||| pteV), pool⟩ where
  wellFormed := ⟨hwf.aligned, hwf.separated.link ht hp (nextTable_of_not_valid hinvalid)
    (fun r hr h => hfree (hheld r page hr h))
    (nextTable_link_page hpage) rfl⟩
  held := by
    intro q u hq hu
    rw [node_linked hwf hheld ht hp hinvalid hpage hfree hq] at hu
    rw [hpool, Finset.mem_insert]
    split_ifs at hu with h
    · exact Or.inl (Option.some.inj hu).symm
    · exact Or.inr (hheld q u hq hu)
  lookup_eq := by
    intro va'
    by_cases hva' : va' < maxVa
    · rw [lookup_eq hva', lookup_eq hva', word_link hwf.separated ht hp
        (nextTable_of_not_valid hinvalid) (fun r hr h => hfree (hheld r page hr h))
        (nextTable_link_page hpage) rfl rfl]
      split_ifs with h
      · rw [h, word_of_none ht (nextTable_of_not_valid hinvalid)]
        rfl
      · rfl
    · rw [lookup_of_maxVa hva', lookup_of_maxVa hva']

end Link

/-- What the loop of `walk` does with allocation, from a level on. -/
theorem walkFrom_alloc (va : Word) (level : ℕ) {p : List (Fin 512)} {t : ℕ}
    (hwf : WellFormed s root) (hheld : TablesHeld s root)
    (ht : node nextTable s.mem root p = some t) (hp : p.length + level = 2) :
    ∃ r s', walkFrom level s t va true = (r, s') ∧ Kept root s s' ∧
      ∀ e, r = some e → node nextTable s'.mem root (p ++ below level va) = some e.1
        ∧ e.2 = idx 0 va := by
  induction level generalizing s p t with
  | zero =>
    refine ⟨_, s, rfl, ⟨hwf, hheld, fun _ => rfl⟩, ?_⟩
    rintro e ⟨⟩
    exact ⟨by rw [below, List.append_nil, ht], rfl⟩
  | succ level ih =>
    unfold walkFrom below
    rw [List.append_cons]
    by_cases hvalid : s.mem t (idx (level + 1) va) &&& pteV = 0
    · rw [if_neg (not_not.mpr hvalid), if_neg Bool.noConfusion]
      rcases kalloc_cases s.pool with ⟨pool, hk, hout, -⟩ | ⟨page, pool, hk, hpage, hfree, hout, -⟩
      · rw [hk]
        refine ⟨none, _, rfl, ⟨⟨hwf.aligned, hwf.separated⟩, ?_, lookup_pool s root pool⟩, ?_⟩
        · intro q u hq hu
          exact hout ▸ hheld q u hq hu
        · rintro e ⟨⟩
      · rw [hk]
        have hkept := kept_link hwf hheld ht (by omega) hvalid hpage hfree hout
        obtain ⟨r, s', hwalk, hkept', hr⟩ := ih (p := p ++ [idx (level + 1) va]) (t := page)
          hkept.wellFormed hkept.held
          (by rw [node_linked hwf hheld ht (by omega) hvalid hpage hfree (by simp; omega),
            if_pos rfl])
          (by simp; omega)
        exact ⟨r, s', hwalk, hkept.trans hkept', hr⟩
    · rw [if_pos hvalid]
      apply ih hwf hheld
      · rw [node_concat, ht, Option.bind_some, nextTable_of_valid hvalid]
      · rw [List.length_append, List.length_singleton]
        omega

/-- **`walk` with allocation** keeps every translation and leads to the entry of the address. -/
theorem walk_alloc (hwf : WellFormed s root) (hheld : TablesHeld s root) (hva : va < maxVa) :
    ∃ r s', walk s root va true = .ok (r, s') ∧ Kept root s s' ∧
      ∀ e, r = some e → node nextTable s'.mem root (below 2 va) = some e.1 ∧ e.2 = idx 0 va := by
  obtain ⟨r, s', hwalk, hkept, hr⟩ := walkFrom_alloc va 2 (p := []) hwf hheld rfl rfl
  refine ⟨r, s', ?_, hkept, hr⟩
  unfold walk
  rw [if_neg (BitVec.not_le.mpr hva), hwalk]

/-! ## The loop of `mappages` -/

theorem lookup_of_node {t : ℕ} (hva : va < maxVa)
    (ht : node nextTable s.mem root (below 2 va) = some t) :
    lookup s root va = entry (s.mem t (idx 0 va)) := by
  rw [lookup_eq hva, word, ht]
  rfl

theorem entry_eq_none_iff : entry w = none ↔ w &&& pteV = 0 := by
  unfold entry
  rw [ite_eq_left_iff]
  exact ⟨fun h => by_contra fun hw => Option.some_ne_none w (h hw), fun h hw => absurd h hw⟩

theorem entry_or_pteV (w : Word) : entry (w ||| pteV) = some (w ||| pteV) := if_neg (or_pteV_valid w)

theorem toNat_add_page (h : a.toNat + 4096 < 2 ^ 64) : (a + 4096).toNat = a.toNat + 4096 := by
  rw [BitVec.toNat_add]
  exact Nat.mod_eq_of_lt h

theorem vpn_add_page (h : a.toNat + 4096 < 2 ^ 64) : vpn (a + 4096) = vpn a + 1 := by
  unfold vpn
  rw [toNat_add_page h]
  omega

theorem pa_next {m n : ℕ} (h : m < n) (pa : Word) :
    pa + 4096 + BitVec.ofNat 64 ((n - (m + 1)) * 4096) = pa + BitVec.ofNat 64 ((n - m) * 4096) := by
  have hsplit : (n - m) * 4096 = 4096 + (n - (m + 1)) * 4096 := by omega
  rw [hsplit, BitVec.ofNat_add, BitVec.add_assoc]
  rfl

/-- One turn of the loop of `mappages`: no table is left, or the page is mapped. -/
theorem mapFrom_turn (last perm : Word) (fuel : ℕ) (pa : Word) (hwf : WellFormed s root)
    (hheld : TablesHeld s root) (ha : a < maxVa) (hun : lookup s root a = none) :
    (∃ s', mapFrom root last perm (fuel + 1) s a pa = .ok (false, s') ∧ Kept root s s')
      ∨ ∃ s', mapFrom root last perm (fuel + 1) s a pa
          = (if a = last then .ok (true, s')
            else mapFrom root last perm fuel s' (a + 4096) (pa + 4096))
        ∧ WellFormed s' root ∧ TablesHeld s' root
        ∧ ∀ va', lookup s' root va'
          = if vpn va' = vpn a then some (pa2pte pa ||| perm ||| pteV) else lookup s root va' := by
  obtain ⟨r, s₁, hwalk, hkept, hr⟩ := walk_alloc hwf hheld ha
  rw [mapFrom, hwalk, ok_bind]
  cases r with
  | none => exact Or.inl ⟨s₁, rfl, hkept⟩
  | some e =>
    obtain ⟨t, i⟩ := e
    obtain ⟨ht, rfl⟩ := hr _ rfl
    -- the entry is not valid, since the page is not mapped
    have hinvalid : s₁.mem t (idx 0 a) &&& pteV = 0 := by
      rw [← entry_eq_none_iff, ← lookup_of_node ha ht, hkept.lookup_eq, hun]
    refine Or.inr ⟨_, if_neg (not_not.mpr hinvalid), hkept.wellFormed.store ht _ _ _,
      hkept.held.store hkept.wellFormed ht _ _, ?_⟩
    intro va'
    rw [lookup_store hkept.wellFormed ht ha, entry_or_pteV, hkept.lookup_eq]

/-- **The loop of `mappages`** over `k + 1` unmapped pages. -/
theorem mapFrom_spec (last perm : Word) (hlt : last < maxVa) (k : ℕ) (hfuel : k < fuel) (pa : Word)
    (hwf : WellFormed s root) (hheld : TablesHeld s root) (hlast : a.toNat + k * 4096 = last.toNat)
    (hun : ∀ va', vpn a ≤ vpn va' → vpn va' ≤ vpn a + k → lookup s root va' = none) :
    ∃ r s', mapFrom root last perm fuel s a pa = .ok (r, s') ∧ WellFormed s' root
      ∧ TablesHeld s' root ∧ (r = true → ∀ va', lookup s' root va'
        = if vpn a ≤ vpn va' ∧ vpn va' ≤ vpn a + k then
            some (pa2pte (pa + BitVec.ofNat 64 ((vpn va' - vpn a) * 4096)) ||| perm ||| pteV)
          else lookup s root va') := by
  induction k generalizing fuel s a pa with
  | zero =>
    cases fuel with
    | zero => exact absurd hfuel (Nat.lt_irrefl 0)
    | succ fuel =>
      obtain rfl : a = last := BitVec.eq_of_toNat_eq (by omega)
      rcases mapFrom_turn a perm fuel pa hwf hheld hlt (hun a le_rfl le_rfl) with
        ⟨s', hmap, hkept⟩ | ⟨s', hmap, hwf', hheld', hlook⟩
      · exact ⟨false, s', hmap, hkept.wellFormed, hkept.held, fun h => Bool.noConfusion h⟩
      · rw [if_pos rfl] at hmap
        refine ⟨true, s', hmap, hwf', hheld', fun _ va' => ?_⟩
        rw [hlook]
        by_cases hpage : vpn va' = vpn a
        · simp [hpage]
        · rw [if_neg hpage, if_neg (by omega)]
  | succ k ih =>
    cases fuel with
    | zero => exact absurd hfuel (Nat.not_lt_zero _)
    | succ fuel =>
      have hnat := lt_maxVa.mp hlt
      have ha : a < maxVa := lt_maxVa.mpr (by omega)
      have hne : a ≠ last := by
        rintro rfl
        omega
      have hvpn : vpn (a + 4096) = vpn a + 1 := vpn_add_page (by omega)
      rcases mapFrom_turn last perm fuel pa hwf hheld ha (hun a le_rfl (by omega)) with
        ⟨s', hmap, hkept⟩ | ⟨s₁, hmap, hwf₁, hheld₁, hlook⟩
      · exact ⟨false, s', hmap, hkept.wellFormed, hkept.held, fun h => Bool.noConfusion h⟩
      · rw [if_neg hne] at hmap
        rw [hmap]
        have hun₁ : ∀ va', vpn (a + 4096) ≤ vpn va' → vpn va' ≤ vpn (a + 4096) + k →
            lookup s₁ root va' = none := by
          intro va' h h'
          rw [hlook, if_neg (by omega), hun va' (by omega) (by omega)]
        have hnext : (a + 4096).toNat = a.toNat + 4096 := toNat_add_page (by omega)
        obtain ⟨r, s', hrest, hwf', hheld', hr⟩ := ih (Nat.lt_of_succ_lt_succ hfuel)
          (pa + 4096) hwf₁ hheld₁ (by omega) hun₁
        refine ⟨r, s', hrest, hwf', hheld', fun hrt va' => ?_⟩
        rw [hr hrt va', hvpn, hlook]
        by_cases hpage : vpn va' = vpn a
        · rw [if_neg (by omega), if_pos hpage, if_pos (by omega), hpage]
          simp
        · by_cases hin : vpn a ≤ vpn va' ∧ vpn va' ≤ vpn a + (k + 1)
          · rw [if_pos (by omega), if_pos hin, pa_next (by omega)]
          · rw [if_neg (by omega), if_neg hpage, if_neg hin]

/-! ## The loop of `uvmunmap` -/

theorem walk_false (hva : va < maxVa) : walk s root va false
    = .ok ((node nextTable s.mem root (below 2 va)).map fun t => (t, idx 0 va), s) := by
  unfold walk
  rw [if_neg (BitVec.not_le.mpr hva), walkFrom_false]

/-- One turn of the loop of `uvmunmap`, if it returns. -/
theorem unmapFrom_turn (hlt : a < stop) (h : unmapFrom root stop doFree (fuel + 1) s a = .ok s') :
    a < maxVa ∧ ∃ t pool, node nextTable s.mem root (below 2 a) = some t
      ∧ s.mem t (idx 0 a) &&& pteV ≠ 0
      ∧ (pool = s.pool ∨ doFree = true
        ∧ pool.outstanding = s.pool.outstanding.erase (pte2pa (s.mem t (idx 0 a))).toNat)
      ∧ unmapFrom root stop doFree fuel ⟨write s.mem t (idx 0 a) 0, pool⟩ (a + 4096) = .ok s' := by
  rw [unmapFrom, if_pos hlt] at h
  have ha : a < maxVa := by
    by_contra hge
    unfold walk at h
    rw [if_pos (BitVec.not_lt.mp hge)] at h
    cases h
  refine ⟨ha, ?_⟩
  rw [walk_false ha, ok_bind] at h
  cases ht : node nextTable s.mem root (below 2 a) with
  | none =>
    rw [ht] at h
    cases h
  | some t =>
    rw [ht] at h
    dsimp only [Option.map_some] at h
    split_ifs at h with hinvalid hleaf hfree
    · obtain ⟨pool, hpool, hrest⟩ := bind_eq_ok_iff.mp h
      unfold kfree at hpool
      split_ifs at hpool with hpage
      cases hpool
      exact ⟨t, _, rfl, hinvalid, Or.inr ⟨hfree, rfl⟩, hrest⟩
    · exact ⟨t, s.pool, rfl, hinvalid, Or.inl rfl, h⟩

/-- **The loop of `uvmunmap`** over `k` pages, if it returns. -/
theorem unmapFrom_spec (k : ℕ) (hwf : WellFormed s root) (hstop : a.toNat + k * 4096 = stop.toNat)
    (h : unmapFrom root stop doFree fuel s a = .ok s') :
    WellFormed s' root
      ∧ (∀ va', vpn a ≤ vpn va' → vpn va' < vpn a + k → lookup s root va' ≠ none)
      ∧ ∀ va', lookup s' root va'
        = if vpn a ≤ vpn va' ∧ vpn va' < vpn a + k then none else lookup s root va' := by
  induction k generalizing fuel s a with
  | zero =>
    cases fuel with
    | zero => cases h
    | succ fuel =>
      obtain rfl : a = stop := BitVec.eq_of_toNat_eq (by omega)
      rw [unmapFrom, if_neg (BitVec.lt_irrefl a)] at h
      cases h
      exact ⟨hwf, fun va' h h' => absurd h (by omega), fun va' => (if_neg (by omega)).symm⟩
  | succ k ih =>
    cases fuel with
    | zero => cases h
    | succ fuel =>
      have hlt : a < stop := BitVec.lt_def.mpr (by omega)
      have hbound := stop.isLt
      obtain ⟨ha, t, pool, ht, hvalid, -, hrest⟩ := unmapFrom_turn hlt h
      have hnat := lt_maxVa.mp ha
      have hvpn : vpn (a + 4096) = vpn a + 1 := vpn_add_page (by omega)
      have hnext : (a + 4096).toNat = a.toNat + 4096 := toNat_add_page (by omega)
      obtain ⟨hwf', hmapped, hlook⟩ := ih (hwf.store ht _ _ pool) (by omega) hrest
      simp only [lookup_store hwf ht ha, hvpn] at hmapped hlook
      refine ⟨hwf', fun va' hge hlt' => ?_, fun va' => ?_⟩
      · by_cases hpage : vpn va' = vpn a
        · rw [lookup_congr ha hpage, lookup_of_node ha ht, Ne, entry_eq_none_iff]
          exact hvalid
        · have := hmapped va' (by omega) (by omega)
          rwa [if_neg hpage] at this
      · rw [hlook]
        by_cases hpage : vpn va' = vpn a
        · rw [if_neg (by omega), if_pos hpage, if_pos (by omega)]
          rfl
        · by_cases hin : vpn a ≤ vpn va' ∧ vpn va' < vpn a + (k + 1)
          · rw [if_pos (by omega), if_pos hin]
          · rw [if_neg (by omega), if_neg hpage, if_neg hin]

/-- `uvmunmap` frees no table, if it is not asked to free a page that is one. -/
theorem unmapFrom_held (k : ℕ) (hwf : WellFormed s root) (hheld : TablesHeld s root)
    (hstop : a.toNat + k * 4096 = stop.toNat)
    (hfree : doFree = true → ∀ va' pte, vpn a ≤ vpn va' → vpn va' < vpn a + k →
      lookup s root va' = some pte →
      ∀ q, q.length ≤ 2 → node nextTable s.mem root q ≠ some (pte2pa pte).toNat)
    (h : unmapFrom root stop doFree fuel s a = .ok s') : TablesHeld s' root := by
  induction k generalizing fuel s a with
  | zero =>
    cases fuel with
    | zero => cases h
    | succ fuel =>
      obtain rfl : a = stop := BitVec.eq_of_toNat_eq (by omega)
      rw [unmapFrom, if_neg (BitVec.lt_irrefl a)] at h
      cases h
      exact hheld
  | succ k ih =>
    cases fuel with
    | zero => cases h
    | succ fuel =>
      have hlt : a < stop := BitVec.lt_def.mpr (by omega)
      have hbound := stop.isLt
      obtain ⟨ha, t, pool, ht, hvalid, hpool, hrest⟩ := unmapFrom_turn hlt h
      have hnat := lt_maxVa.mp ha
      have hvpn : vpn (a + 4096) = vpn a + 1 := vpn_add_page (by omega)
      have hnext : (a + 4096).toNat = a.toNat + 4096 := toNat_add_page (by omega)
      have hself : lookup s root a = some (s.mem t (idx 0 a)) := by
        rw [lookup_of_node ha ht]
        exact if_neg hvalid
      have hnode : ∀ q, q.length ≤ 2 →
          node nextTable (write s.mem t (idx 0 a) 0) root q = node nextTable s.mem root q :=
        fun q hq => node_write hwf.separated ht rfl _ _ hq
      refine ih (hwf.store ht _ _ pool) ?_ (by omega) ?_ hrest
      · intro q u hq hu
        rw [hnode q hq] at hu
        rcases hpool with rfl | ⟨hdo, hpool⟩
        · exact hheld q u hq hu
        · rw [hpool, Finset.mem_erase]
          refine ⟨?_, hheld q u hq hu⟩
          rintro rfl
          exact hfree hdo a _ le_rfl (by omega) hself q hq hu
      · intro hdo va' pte hge hlt' hpte q hq
        rw [lookup_store hwf ht ha, if_neg (by omega)] at hpte
        rw [hnode q hq]
        exact hfree hdo va' pte (by omega) (by omega) hpte q hq

/-! ## Exact updates -/

/-- The pages of `[va, va+size)` are mapped to those from `pa` on, and no other page changes. -/
structure MapsExactly (s s' : State) (root : ℕ) (va size pa perm : Word) : Prop where
  mapped : ∀ va' i, i * 4096 < size.toNat → vpn va' = vpn va + i →
    ∃ pte, lookup s' root va' = some pte ∧ pte2pa pte = pa + BitVec.ofNat 64 (i * 4096)
      ∧ pteFlags pte = perm ||| pteV
  other : ∀ va', (∀ i, i * 4096 < size.toNat → vpn va' ≠ vpn va + i) →
    lookup s' root va' = lookup s root va'

/-- The `npages` pages from `va` on were mapped and are not any more, and no other page changes. -/
structure UnmapsExactly (s s' : State) (root : ℕ) (va npages : Word) : Prop where
  unmapped : ∀ va' i, i < npages.toNat → vpn va' = vpn va + i →
    lookup s root va' ≠ none ∧ lookup s' root va' = none
  other : ∀ va', (∀ i, i < npages.toNat → vpn va' ≠ vpn va + i) →
    lookup s' root va' = lookup s root va'

theorem mappages_exact (va size pa perm : Word) (hwf : WellFormed s root) (hheld : TablesHeld s root)
    (hva : va.toNat % 4096 = 0) (hpa : pa.toNat % 4096 = 0) (hperm : perm.toNat < 1024)
    (hsize : 0 < size.toNat) (hmax : va.toNat + size.toNat ≤ maxVa.toNat)
    (hun : ∀ va' i, i * 4096 < size.toNat → vpn va' = vpn va + i → lookup s root va' = none) :
    ∃ r s', mappages s root va size pa perm = .ok (r, s') ∧ WellFormed s' root
      ∧ TablesHeld s' root ∧ (r = true → MapsExactly s s' root va size pa perm) := by
  have hmax' : va.toNat + size.toNat ≤ 2 ^ 38 := hmax
  have hend : (va + size - 1).toNat = va.toNat + size.toNat - 1 := by
    have hone : (1 : Word).toNat = 1 := rfl
    rw [BitVec.toNat_sub, BitVec.toNat_add, hone]
    omega
  have hstart : pgRoundDown va = va := by
    apply BitVec.eq_of_toNat_eq
    rw [toNat_pgRoundDown]
    omega
  -- the loop takes one turn more than there are pages before the last
  obtain ⟨k, hk⟩ : ∃ k, k = (size.toNat - 1) / 4096 := ⟨_, rfl⟩
  have hlast : va.toNat + k * 4096 = (pgRoundDown (va + size - 1)).toNat := by
    rw [toNat_pgRoundDown, hend]
    omega
  have hin : ∀ i, i * 4096 < size.toNat ↔ i ≤ k := by
    intro i
    omega
  have hrange : ∀ va', vpn va ≤ vpn va' → vpn va' ≤ vpn va + k → lookup s root va' = none :=
    fun va' h h' => hun va' (vpn va' - vpn va) ((hin _).mpr (by omega)) (by omega)
  obtain ⟨r, s', hmap, hwf', hheld', hr⟩ := mapFrom_spec (pgRoundDown (va + size - 1)) perm
    (lt_maxVa.mpr (by omega)) k (show k < turns by unfold turns; omega) pa hwf hheld hlast hrange
  have hsize' : size ≠ 0 := by
    rintro rfl
    exact absurd hsize (by decide)
  refine ⟨r, s', ?_, hwf', hheld', fun hrt => ⟨?_, ?_⟩⟩
  · unfold mappages
    rw [if_neg hsize', hstart, hmap]
  · intro va' i hi hvpn
    have hik := (hin i).mp hi
    refine ⟨pa2pte (pa + BitVec.ofNat 64 (i * 4096)) ||| (perm ||| pteV), ?_, ?_, ?_⟩
    · rw [hr hrt, if_pos (by omega), hvpn, Nat.add_sub_cancel_left, BitVec.or_assoc]
    · apply pte2pa_or (flags_lt hperm)
      rw [BitVec.toNat_add, BitVec.toNat_ofNat]
      omega
    · exact pteFlags_or (flags_lt hperm) _
  · intro va' hva'
    rw [hr hrt, if_neg]
    rintro ⟨h, h'⟩
    exact hva' (vpn va' - vpn va) ((hin _).mpr (by omega)) (by omega)

theorem uvmunmap_exact {npages : Word} (hwf : WellFormed s root)
    (hbound : va.toNat + npages.toNat * 4096 < 2 ^ 64)
    (h : uvmunmap s root va npages doFree = .ok s') :
    WellFormed s' root ∧ UnmapsExactly s s' root va npages
      ∧ ((doFree = true → ∀ va' pte i, i < npages.toNat → vpn va' = vpn va + i →
            lookup s root va' = some pte →
            ∀ q, q.length ≤ 2 → node nextTable s.mem root q ≠ some (pte2pa pte).toNat) →
          TablesHeld s root → TablesHeld s' root) := by
  have hstop : va.toNat + npages.toNat * 4096 = (va + npages * 4096).toNat := by
    have hpage : (4096 : Word).toNat = 4096 := rfl
    rw [BitVec.toNat_add, BitVec.toNat_mul, hpage]
    omega
  unfold uvmunmap at h
  split_ifs at h with haligned
  obtain ⟨hwf', hmapped, hlook⟩ := unmapFrom_spec npages.toNat hwf hstop h
  refine ⟨hwf', ⟨fun va' i hi hvpn => ⟨hmapped va' (by omega) (by omega), ?_⟩, fun va' hva' => ?_⟩,
    fun hfree hheld => ?_⟩
  · rw [hlook, if_pos (by omega)]
  · rw [hlook, if_neg]
    rintro ⟨hge, hlt⟩
    exact hva' (vpn va' - vpn va) (by omega) (by omega)
  · refine unmapFrom_held npages.toNat hwf hheld hstop (fun hdo va' pte hge hlt hpte => ?_) h
    exact hfree hdo va' pte (vpn va' - vpn va) (by omega) (by omega) hpte

/-- **`mappages` and `uvmunmap` are exact updates of the translation.** -/
theorem mappages_uvmunmap_update (va : Word) (hwf : WellFormed s root) (hva : va.toNat % 4096 = 0) :
    (∀ size pa perm : Word, TablesHeld s root → pa.toNat % 4096 = 0 → perm.toNat < 1024 →
        0 < size.toNat → va.toNat + size.toNat ≤ maxVa.toNat →
        (∀ va' i, i * 4096 < size.toNat → vpn va' = vpn va + i → lookup s root va' = none) →
        ∃ r s', mappages s root va size pa perm = .ok (r, s') ∧ WellFormed s' root
          ∧ TablesHeld s' root ∧ (r = true → MapsExactly s s' root va size pa perm))
      ∧ ∀ npages doFree s', va.toNat + npages.toNat * 4096 < 2 ^ 64 →
        uvmunmap s root va npages doFree = .ok s' →
        WellFormed s' root ∧ UnmapsExactly s s' root va npages
          ∧ ((doFree = true → ∀ va' pte i, i < npages.toNat → vpn va' = vpn va + i →
                lookup s root va' = some pte →
                ∀ q, q.length ≤ 2 → node nextTable s.mem root q ≠ some (pte2pa pte).toNat) →
              TablesHeld s root → TablesHeld s' root) :=
  ⟨fun size pa perm hheld hpa hperm hsize hmax hun =>
      mappages_exact va size pa perm hwf hheld hva hpa hperm hsize hmax hun,
    fun _ _ _ hbound h => uvmunmap_exact hwf hbound h⟩

/-- A table page with no entry, as `uvmcreate` makes it. -/
def emptyTable (root : ℕ) (supply : List ℕ) : State where
  mem := fun _ _ => 0
  pool := ⟨0x80030000, {root}, supply⟩

theorem nextTable_zero : nextTable 0 = none := if_pos (by decide)

theorem node_emptyTable (root : ℕ) (supply : List ℕ) {q : List (Fin 512)} {t : ℕ}
    (h : node nextTable (emptyTable root supply).mem root q = some t) : q = [] ∧ t = root := by
  cases q with
  | nil => exact ⟨rfl, (Option.some.inj h).symm⟩
  | cons i q =>
    rw [node, show (emptyTable root supply).mem root i = 0 from rfl, nextTable_zero] at h
    cases h

theorem wellFormed_emptyTable (root : ℕ) (supply : List ℕ) (h : root % 4096 = 0) :
    WellFormed (emptyTable root supply) root :=
  ⟨h, fun _ _ _ _ _ hp hq => (node_emptyTable root supply hp).1.trans
    (node_emptyTable root supply hq).1.symm⟩

theorem tablesHeld_emptyTable (root : ℕ) (supply : List ℕ) :
    TablesHeld (emptyTable root supply) root := by
  intro q t _ h
  rw [(node_emptyTable root supply h).2]
  exact Finset.mem_singleton_self root

theorem lookup_emptyTable (root : ℕ) (supply : List ℕ) (va : Word) :
    lookup (emptyTable root supply) root va = none := by
  by_cases h : va < maxVa
  · rw [lookup_eq h, word, below, node, show (emptyTable root supply).mem root _ = 0 from rfl,
      nextTable_zero]
    rfl
  · exact lookup_of_maxVa h

/-- Two pages are mapped in an empty table, and the first of them is unmapped. -/
theorem mappages_uvmunmap_update_two :
    ∃ s s', mappages (emptyTable 0x80040000 [0x80041000, 0x80042000]) 0x80040000 0x1000 0x1800
        0x80050000 0x16 = .ok (true, s)
      ∧ MapsExactly (emptyTable 0x80040000 [0x80041000, 0x80042000]) s 0x80040000 0x1000 0x1800
        0x80050000 0x16
      ∧ uvmunmap s 0x80040000 0x1000 1 false = .ok s' ∧ UnmapsExactly s s' 0x80040000 0x1000 1 := by
  have hrun : ((mappages (emptyTable 0x80040000 [0x80041000, 0x80042000]) 0x80040000 0x1000 0x1800
      0x80050000 0x16).toOption.any fun r => r.1
        && (uvmunmap r.2 0x80040000 0x1000 1 false).toOption.isSome) = true := by
    decide +kernel
  obtain ⟨r, s, hmap, hwf, -, hexact⟩ := (mappages_uvmunmap_update 0x1000
      (wellFormed_emptyTable 0x80040000 [0x80041000, 0x80042000] rfl) rfl).1
    0x1800 0x80050000 0x16 (tablesHeld_emptyTable _ _) rfl (by decide) (by decide) (by decide)
    fun va' _ _ _ => lookup_emptyTable _ _ va'
  rw [hmap] at hrun
  obtain ⟨hr, hun⟩ := Bool.and_eq_true_iff.mp hrun
  cases hu : uvmunmap s 0x80040000 0x1000 1 false with
  | error f =>
    rw [hu] at hun
    cases hun
  | ok s' =>
    obtain rfl : r = true := hr
    refine ⟨s, s', hmap, hexact rfl, hu, ?_⟩
    exact ((mappages_uvmunmap_update 0x1000 hwf rfl).2 1 false s' (by decide) hu).2.1

/-- With a page count of `2^52` the end of the range wraps to its start: `uvmunmap` returns and the
first page is still mapped. -/
theorem uvmunmap_wraps : ¬ ∀ (s s' : State) (root : ℕ) (va npages : Word) (doFree : Bool),
    WellFormed s root → va.toNat % 4096 = 0 → uvmunmap s root va npages doFree = .ok s' →
    ∀ va' i, i < npages.toNat → vpn va' = vpn va + i → lookup s' root va' = none := by
  intro h
  have hrun : ((mappages (emptyTable 0x80040000 [0x80041000, 0x80042000]) 0x80040000 0 0x1000
      0x80050000 0x16).toOption.any fun r => (lookup r.2 0x80040000 0).isSome) = true := by
    decide +kernel
  obtain ⟨r, s, hmap, hwf, -, -⟩ := mappages_exact 0 0x1000 0x80050000 0x16
    (wellFormed_emptyTable 0x80040000 [0x80041000, 0x80042000] rfl)
    (tablesHeld_emptyTable _ _) rfl rfl (by decide) (by decide) (by decide)
    fun va' _ _ _ => lookup_emptyTable _ _ va'
  rw [hmap] at hrun
  have hnone := h s s 0x80040000 0 (BitVec.ofNat 64 (2 ^ 52)) true hwf rfl rfl 0 0 (by decide) rfl
  rw [Except.toOption, Option.any_some, hnone] at hrun
  cases hrun

end Xv6.Sv39
