/-
# Walking, mapping and unmapping

The functions of `vm.c` that work on single entries, described by the entries they
change (`lookup`) and by the pages they move: `walk` takes pages for new tables,
`uvmunmap` gives back the pages it unmaps.
-/
import Xv6.VmLedger

namespace Xv6

open Function

variable {O : Finset ℕ} {mid : MidTable} {m m' m'' : PagePool} {pt pt' pt'' : PageTable} {pte : Pte}
  {a b pa va : ℕ}

/-! ## Pages that may be freed -/

/-- A page that may be freed without touching the old ones. -/
def Spare (m : PagePool) (O : Finset ℕ) (pa : ℕ) : Prop := m.IsPage pa ∧ pa ∉ O

theorem Spare.of_kend (h : Spare m O pa) (hkend : m'.kend = m.kend) : Spare m' O pa := by
  refine ⟨?_, h.2⟩
  unfold PagePool.IsPage
  rw [hkend]
  exact h.1

theorem spare_empty (h : m.IsPage pa) : Spare m ∅ pa := ⟨h, Finset.notMem_empty pa⟩

/-! ## Entries -/

/-- The addresses that three indices can reach, twice as many as `MAXVA` allows. -/
def vaSpan : ℕ := 2 * maxVa

theorem lt_vaSpan (h : va < maxVa) : va < vaSpan := by
  unfold vaSpan
  omega

/-- The three indices determine the page. -/
theorem px_inj (ha : a < vaSpan) (hb : b < vaSpan) (h2 : px 2 a = px 2 b) (h1 : px 1 a = px 1 b)
    (h0 : px 0 a = px 0 b) : a / pgSize = b / pgSize := by
  unfold px at h0 h1 h2
  unfold vaSpan maxVa at ha hb
  unfold pgSize
  norm_num at *
  omega

/-- Every three indices are those of an address. -/
theorem exists_px {i j k : ℕ} (hi : i < 512) (hj : j < 512) (hk : k < 512) :
    ∃ va, va < vaSpan ∧ px 2 va = i ∧ px 1 va = j ∧ px 0 va = k := by
  refine ⟨(i * 2 ^ 18 + j * 2 ^ 9 + k) * 2 ^ 12, ?_, ?_, ?_, ?_⟩
  · unfold vaSpan maxVa
    norm_num
    omega
  all_goals
    unfold px
    norm_num
    omega

namespace PageTable

/-- There is a table for the entry of `va`. -/
def HasTable (pt : PageTable) (va : ℕ) : Prop := (pt.leafTable va).isSome

theorem px_congr (h : a / pgSize = b / pgSize) (level : ℕ) : px level a = px level b := by
  have hdiv : ∀ x, x / 2 ^ (12 + 9 * level) = x / pgSize / 2 ^ (9 * level) := by
    intro x
    rw [Nat.div_div_eq_div_mul, pow_add]
    rfl
  unfold px
  rw [hdiv, hdiv, h]

theorem lookup_congr (pt : PageTable) (h : a / pgSize = b / pgSize) :
    pt.lookup a = pt.lookup b := by
  unfold lookup leafTable
  rw [px_congr h 0, px_congr h 1, px_congr h 2]

theorem lookup_setPte (pt : PageTable) (ha : a < vaSpan) (htab : pt.HasTable a) (pte : Option Pte)
    (hb : b < vaSpan) :
    (pt.setPte a pte).lookup b = if b / pgSize = a / pgSize then pte else pt.lookup b := by
  obtain ⟨leaf, hleaf⟩ := Option.isSome_iff_exists.mp htab
  obtain ⟨mid, hmid, hml⟩ := Option.bind_eq_some_iff.mp hleaf
  unfold setPte
  rw [hleaf]
  simp only [setLeaf, hmid]
  unfold lookup leafTable setMid
  simp only
  split_ifs with hpage
  · rw [px_congr hpage 2, px_congr hpage 1, px_congr hpage 0]
    simp
  · by_cases h2 : px 2 b = px 2 a
    · rw [h2, update_self, hmid]
      by_cases h1 : px 1 b = px 1 a
      · rw [h1]
        have h0 : px 0 b ≠ px 0 a := fun h0 => hpage (px_inj hb ha h2 h1 h0)
        simp [hml, update_of_ne h0]
      · simp [update_of_ne h1]
    · rw [update_of_ne h2]

theorem leafTable_setMid (hnone : pt.entry (px 2 va) = none) (page b : ℕ) :
    (pt.setMid va (MidTable.zero page)).leafTable b = pt.leafTable b := by
  unfold leafTable setMid
  by_cases h2 : px 2 b = px 2 va
  · rw [h2]
    simp [hnone, MidTable.zero]
  · simp [update_of_ne h2]

/-- A new table of level 0 is empty, and the others stay. -/
theorem leafTable_setLeaf (hmid : pt.entry (px 2 va) = some mid) (leaf : LeafTable) (b : ℕ) :
    (pt.setLeaf va leaf).leafTable b
      = if px 2 b = px 2 va ∧ px 1 b = px 1 va then some leaf else pt.leafTable b := by
  unfold setLeaf
  rw [hmid]
  unfold leafTable setMid
  by_cases h2 : px 2 b = px 2 va
  · rw [h2]
    by_cases h1 : px 1 b = px 1 va
    · simp [h1]
    · simp [h1, hmid]
  · simp [h2]

theorem hasTable_setPte (pte : Option Pte) (h : pt.HasTable b) : (pt.setPte va pte).HasTable b := by
  unfold setPte
  cases hleaf : pt.leafTable va with
  | none => exact h
  | some leaf =>
    obtain ⟨mid, hmid, -⟩ := leafTable_eq_some hleaf
    simp only
    unfold HasTable
    rw [leafTable_setLeaf hmid]
    split_ifs
    · rfl
    · exact h

theorem hasTable_of_lookup (h : pt.lookup va = some pte) : pt.HasTable va := by
  obtain ⟨leaf, hleaf, -⟩ := Option.bind_eq_some_iff.mp h
  exact Option.isSome_iff_exists.mpr ⟨leaf, hleaf⟩

end PageTable

/-! ## Growing a page table -/

/-- Tables are added, on pages taken from the pool, and no entry changes. -/
structure Grows (m : PagePool) (pt : PageTable) (m' : PagePool) (pt' : PageTable) : Prop where
  moves : Moves m pt.tables m' pt'.tables
  spare : (∀ pa ∈ pt.tablePages, Spare m ∅ pa) → ∀ pa ∈ pt'.tablePages, Spare m' ∅ pa
  lookup : ∀ b, pt'.lookup b = pt.lookup b
  table : ∀ b, pt.HasTable b → pt'.HasTable b

theorem Grows.of_moves (h : Moves m 0 m' 0) (pt : PageTable) : Grows m pt m' pt where
  moves := (h.frame pt.tables).congr (add_zero _) (add_zero _)
  spare := fun hpt pa hpa => (hpt pa hpa).of_kend h.kend
  lookup := fun _ => rfl
  table := fun _ hb => hb

theorem Grows.refl (m : PagePool) (pt : PageTable) : Grows m pt m pt :=
  Grows.of_moves (Moves.refl m 0) pt

theorem Grows.trans (h : Grows m pt m' pt') (h' : Grows m' pt' m'' pt'') : Grows m pt m'' pt'' where
  moves := h.moves.trans h'.moves
  spare := fun hpt => h'.spare (h.spare hpt)
  lookup := fun b => (h'.lookup b).trans (h.lookup b)
  table := fun b hb => h'.table b (h.table b hb)

/-- One more table, which is empty. -/
theorem Grows.add_table {page : ℕ} (hpage : m.IsPage page) (h : Moves m 0 m' {page})
    (htables : pt'.tables = pt.tables + {page}) (hlook : ∀ b, pt'.lookup b = pt.lookup b)
    (htab : ∀ b, pt.HasTable b → pt'.HasTable b) : Grows m pt m' pt' where
  moves := (h.frame pt.tables).congr (add_zero _) htables.symm
  spare := fun hpt pa hpa => by
    rw [← PageTable.mem_tables, htables, Multiset.mem_add, PageTable.mem_tables,
      Multiset.mem_singleton] at hpa
    rcases hpa with hpa | rfl
    · exact (hpt pa hpa).of_kend h.kend
    · exact (spare_empty hpage).of_kend h.kend
  lookup := hlook
  table := htab

theorem walkMid_spec (pt : PageTable) (m : PagePool) (va : ℕ) :
    ∃ ok pt' m', walkMid pt va m = (ok, pt', m') ∧ Grows m pt m' pt'
      ∧ (ok = true → ∃ mid, pt'.entry (px 2 va) = some mid) ∧ (pt.HasTable va → ok = true) := by
  unfold walkMid
  cases hmid : pt.entry (px 2 va) with
  | some mid => exact ⟨true, pt, m, rfl, Grows.refl m pt, fun _ => ⟨mid, hmid⟩, fun _ => rfl⟩
  | none =>
    have hno : ¬ pt.HasTable va := by
      unfold PageTable.HasTable PageTable.leafTable
      rw [hmid]
      simp
    rcases kalloc_moves m with ⟨m', hk, hmoves⟩ | ⟨page, m', hk, hpage, -, hmoves⟩
    · simp only [hk]
      exact ⟨false, pt, m', rfl, Grows.of_moves hmoves pt, by simp, fun ht => absurd ht hno⟩
    · simp only [hk]
      have hset := pt.tables_setMid va (MidTable.zero page)
      rw [hmid, MidTable.tables_zero, Option.elim_none, add_zero] at hset
      refine ⟨true, _, m', rfl, Grows.add_table hpage hmoves hset (fun b => ?_) (fun b hb => ?_),
        fun _ => ⟨_, update_self _ _ _⟩, fun _ => rfl⟩
      · unfold PageTable.lookup
        rw [PageTable.leafTable_setMid hmid]
      · unfold PageTable.HasTable
        rw [PageTable.leafTable_setMid hmid]
        exact hb

theorem walkLeaf_spec (hmid : pt.entry (px 2 va) = some mid) (m : PagePool) :
    ∃ ok pt' m', walkLeaf pt va m = (ok, pt', m') ∧ Grows m pt m' pt'
      ∧ (ok = true → pt'.HasTable va) ∧ (pt.HasTable va → ok = true) := by
  unfold walkLeaf
  cases hleaf : pt.leafTable va with
  | some leaf =>
    refine ⟨true, pt, m, rfl, Grows.refl m pt, fun _ => ?_, fun _ => rfl⟩
    exact Option.isSome_iff_exists.mpr ⟨leaf, hleaf⟩
  | none =>
    have hno : ¬ pt.HasTable va := by
      unfold PageTable.HasTable
      rw [hleaf]
      simp
    have hml : mid.entry (px 1 va) = none := by
      unfold PageTable.leafTable at hleaf
      rw [hmid] at hleaf
      exact hleaf
    rcases kalloc_moves m with ⟨m', hk, hmoves⟩ | ⟨page, m', hk, hpage, -, hmoves⟩
    · simp only [hk]
      exact ⟨false, pt, m', rfl, Grows.of_moves hmoves pt, by simp, fun ht => absurd ht hno⟩
    · simp only [hk]
      have hset := PageTable.tables_setLeaf hmid (LeafTable.zero page)
      rw [hml, Option.elim_none, add_zero] at hset
      refine ⟨true, _, m', rfl, Grows.add_table hpage hmoves hset (fun b => ?_) (fun b hb => ?_),
        fun _ => ?_, fun _ => rfl⟩
      · -- the new table is empty, and so was the missing one
        unfold PageTable.lookup
        rw [PageTable.leafTable_setLeaf hmid]
        split_ifs with hb
        · have : pt.leafTable b = none := by
            unfold PageTable.leafTable
            rw [hb.1, hb.2, hmid]
            exact hml
          rw [this]
          rfl
        · rfl
      · unfold PageTable.HasTable
        rw [PageTable.leafTable_setLeaf hmid]
        split_ifs
        · rfl
        · exact hb
      · unfold PageTable.HasTable
        rw [PageTable.leafTable_setLeaf hmid, if_pos ⟨rfl, rfl⟩]
        rfl

theorem walkAlloc_spec (pt : PageTable) (m : PagePool) (hva : va < maxVa) :
    ∃ ok pt' m', walkAlloc pt va m = .ok (ok, pt', m') ∧ Grows m pt m' pt'
      ∧ (ok = true → pt'.HasTable va) ∧ (pt.HasTable va → ok = true) := by
  unfold walkAlloc
  rw [if_neg (by omega)]
  obtain ⟨ok₁, pt₁, m₁, hrun₁, hgrow₁, hmid, hok₁⟩ := walkMid_spec pt m va
  rw [hrun₁]
  cases ok₁ with
  | false => exact ⟨false, pt₁, m₁, rfl, hgrow₁, by simp, hok₁⟩
  | true =>
    obtain ⟨mid, hmid⟩ := hmid rfl
    obtain ⟨ok, pt', m', hrun, hgrow, htab, hok⟩ := walkLeaf_spec hmid m₁
    exact ⟨ok, pt', m', by simp only [hrun], hgrow₁.trans hgrow, htab,
      fun ht => hok (hgrow₁.table va ht)⟩

/-! ## Mapping one page -/

theorem mappages_page (pt : PageTable) (m : PagePool) (hva : va % pgSize = 0) (pa : ℕ)
    (perm : Perm) : mappages pt m va pgSize pa perm = mapPage pt m va pa perm := by
  have hfirst : va / pgSize * pgSize = va := Nat.div_mul_cancel (Nat.dvd_of_mod_eq_zero hva)
  have hlast : (va + pgSize - 1) / pgSize - va / pgSize = 0 := by
    unfold pgSize at *
    omega
  unfold mappages
  rw [if_neg (by decide)]
  simp only [hfirst, hlast, mapPages]
  cases mapPage pt m va pa perm with
  | error f => rfl
  | ok r =>
    obtain ⟨ok, pt', m'⟩ := r
    cases ok <;> rfl

/-- What `mappages` does to a table for one page. -/
structure Maps (m : PagePool) (pt : PageTable) (va : ℕ) (pte : Pte) (ok : Bool) (m' : PagePool)
    (pt' : PageTable) : Prop where
  moves : Moves m pt.tables m' pt'.tables
  spare : (∀ pa ∈ pt.tablePages, Spare m ∅ pa) → ∀ pa ∈ pt'.tablePages, Spare m' ∅ pa
  enough : pt.HasTable va → ok = true
  table : ok = true → pt'.HasTable va
  lookup : ∀ b, b < vaSpan →
    pt'.lookup b = if ok = true ∧ b / pgSize = va / pgSize then some pte else pt.lookup b

/-- **`mappages` of one unmapped page.** -/
theorem mapPage_spec (m : PagePool) (hva : va < maxVa) (hnone : pt.lookup va = none) (pa : ℕ)
    (perm : Perm) :
    ∃ ok pt' m', mapPage pt m va pa perm = .ok (ok, pt', m') ∧ Maps m pt va ⟨pa, perm⟩ ok m' pt' := by
  obtain ⟨ok, pt₁, m₁, hrun, hgrow, htab, hok⟩ := walkAlloc_spec pt m hva
  unfold mapPage
  rw [hrun]
  simp only [ok_bind]
  cases ok with
  | false =>
    refine ⟨false, pt₁, m₁, rfl, hgrow.moves, hgrow.spare, hok, by simp, fun b _ => ?_⟩
    rw [hgrow.lookup b]
    simp
  | true =>
    have hfree : ¬ (pt₁.lookup va).isSome = true := by
      rw [hgrow.lookup va, hnone]
      simp
    refine ⟨true, pt₁.setPte va (some ⟨pa, perm⟩), m₁, ?_, ?_, ?_, fun _ => rfl,
      fun _ => PageTable.hasTable_setPte _ (htab rfl), fun b hb => ?_⟩
    · rw [if_neg (by simp), if_neg hfree]
    · rw [PageTable.tables_setPte]
      exact hgrow.moves
    · simp only [← PageTable.mem_tables, PageTable.tables_setPte]
      simpa only [PageTable.mem_tables] using hgrow.spare
    · rw [PageTable.lookup_setPte pt₁ (lt_vaSpan hva) (htab rfl) _ hb, hgrow.lookup b]
      simp

/-! ## Unmapping -/

theorem walk_of_lookup (hva : va < maxVa) (h : pt.lookup va = some pte) :
    walk pt va = .ok (some (some pte)) := by
  obtain ⟨leaf, hleaf, hpte⟩ := Option.bind_eq_some_iff.mp h
  unfold walk
  rw [if_neg (by omega), hleaf]
  simp only [Option.map_some, hpte]

/-- **`uvmunmap` of one page** without freeing it. -/
theorem uvmunmap_keep (hal : va % pgSize = 0) (hva : va < maxVa) (hl : pt.lookup va = some pte)
    (m : PagePool) : uvmunmap pt m va 1 false = .ok (pt.setPte va none, m) := by
  unfold uvmunmap
  rw [if_neg (not_not_intro hal), unmapPages, unmapPage, walk_of_lookup hva hl]
  rfl

/-- Pages `lo` to `hi` are mapped to pages that may be freed. -/
def UserMapped (m : PagePool) (O : Finset ℕ) (pt : PageTable) (lo hi : ℕ) : Prop :=
  ∀ i, lo ≤ i → i < hi → ∃ pte, pt.lookup (i * pgSize) = some pte ∧ Spare m O pte.pa

theorem mul_pgSize_div (i : ℕ) : i * pgSize / pgSize = i := Nat.mul_div_cancel i (by decide)

theorem mul_pgSize_lt {i n : ℕ} (hi : i < n) (hn : n * pgSize ≤ maxVa) : i * pgSize < maxVa :=
  lt_of_lt_of_le (Nat.mul_lt_mul_of_pos_right hi (by decide)) hn

/-- **`uvmunmap` of user pages, freeing them.** -/
theorem unmapPages_spec (n lo : ℕ) (hmap : UserMapped m ∅ pt lo (lo + n))
    (hbound : (lo + n) * pgSize ≤ maxVa) :
    ∃ pt' m', unmapPages n pt m (lo * pgSize) true = .ok (pt', m') ∧ pt'.tables = pt.tables
      ∧ Moves m (pt.segment lo n) m' 0
      ∧ ∀ b, b < vaSpan → pt'.lookup b
        = if lo ≤ b / pgSize ∧ b / pgSize < lo + n then none else pt.lookup b := by
  induction n generalizing m pt lo with
  | zero =>
    refine ⟨pt, m, rfl, rfl, ?_, fun b _ => ?_⟩
    · rw [PageTable.segment_zero]
      exact Moves.refl m 0
    · rw [if_neg (by omega)]
  | succ n ih =>
    obtain ⟨pte, hl, hpa⟩ := hmap lo le_rfl (by omega)
    have hva := mul_pgSize_lt (show lo < lo + (n + 1) by omega) hbound
    obtain ⟨m₁, hfree, hmoves₁⟩ := kfree_moves hpa.1
    have hone : unmapPage pt m (lo * pgSize) true = .ok (pt.setPte (lo * pgSize) none, m₁) := by
      unfold unmapPage
      rw [walk_of_lookup hva hl]
      simp only [ok_bind, if_true, hfree]
      rfl
    have hlook : ∀ b, b < vaSpan → (pt.setPte (lo * pgSize) none).lookup b
        = if b / pgSize = lo then none else pt.lookup b := by
      intro b hb
      rw [PageTable.lookup_setPte pt (lt_vaSpan hva) (PageTable.hasTable_of_lookup hl) none hb,
        mul_pgSize_div]
    have hlook' : ∀ i, lo + 1 ≤ i → i < lo + 1 + n →
        (pt.setPte (lo * pgSize) none).lookup (i * pgSize) = pt.lookup (i * pgSize) := by
      intro i hi hi'
      have hiva := mul_pgSize_lt (show i < lo + (n + 1) by omega) hbound
      rw [hlook _ (lt_vaSpan hiva), mul_pgSize_div, if_neg (by omega)]
    obtain ⟨pt', m', hrun, htables, hmoves, hlast⟩ := @ih m₁ (pt.setPte (lo * pgSize) none) (lo + 1)
      (by
        intro i hi hi'
        obtain ⟨pte', hl', hpa'⟩ := hmap i (by omega) (by omega)
        exact ⟨pte', (hlook' i hi (by omega)).trans hl', hpa'.of_kend hmoves₁.kend⟩)
      (by rw [show lo + 1 + n = lo + (n + 1) by omega]; exact hbound)
    rw [PageTable.segment_congr hlook'] at hmoves
    refine ⟨pt', m', ?_, htables.trans (pt.tables_setPte _ _), ?_, fun b hb => ?_⟩
    · rw [unmapPages, hone]
      simp only [ok_bind]
      rw [← hrun, Nat.add_mul, Nat.one_mul]
    · rw [PageTable.segment_succ hl, add_comm]
      exact ((hmoves₁.frame _).congr rfl (add_zero _)).trans hmoves
    · rw [hlast b hb, hlook b hb]
      by_cases h1 : b / pgSize = lo
      · rw [if_neg (by omega), if_pos h1, if_pos (by omega)]
      · rw [if_neg h1]
        by_cases h2 : lo + 1 ≤ b / pgSize ∧ b / pgSize < lo + 1 + n
        · rw [if_pos h2, if_pos (by omega)]
        · rw [if_neg h2, if_neg (by omega)]

end Xv6
