/-
# User address spaces

`AddressSpace m B pt n` says that `pt` maps `n` pages of user memory and that the
outstanding pages are `B`, the tables of `pt` and these user pages, each once.  Here
such a page table is created, gets one more page, loses some, and is freed, with every
failing path; a failure gives back every page that was allocated on the way.

There are fewer pages in RAM than below the trapframe, and user pages are different
pages, so no size that a caller asks for can lead into the trapframe: the allocator
fails first.
-/
import Xv6.VmPages

namespace Xv6

variable {O : Finset ℕ} {B : Multiset ℕ} {m m' : PagePool} {pt pt' : PageTable}
  {i k n oldsz sz : ℕ}

/-! ## Freeing the tables -/

/-- A loop each turn of which gives back the pages `g i`. -/
theorem foldlM_moves {f : PagePool → ℕ → Except Fault PagePool} {g : ℕ → Multiset ℕ} (l : List ℕ)
    (hf : ∀ i ∈ l, ∀ m, m.kend = k → ∃ m', f m i = .ok m' ∧ Moves m (g i) m' 0) (hk : m.kend = k) :
    ∃ m', l.foldlM f m = .ok m' ∧ Moves m (l.map g).sum m' 0 := by
  induction l generalizing m with
  | nil => exact ⟨m, rfl, Moves.refl m 0⟩
  | cons i l ih =>
    obtain ⟨m₁, hrun₁, hmoves₁⟩ := hf i List.mem_cons_self m hk
    obtain ⟨m', hrun, hmoves⟩ :=
      ih (fun j hj => hf j (List.mem_cons_of_mem i hj)) (hmoves₁.kend.trans hk)
    refine ⟨m', ?_, ?_⟩
    · rw [List.foldlM_cons, hrun₁]
      exact hrun
    · rw [List.map_cons, List.sum_cons, add_comm]
      exact ((hmoves₁.frame _).congr rfl (add_zero _)).trans hmoves

/-- No entry of any table is valid. -/
def PageTable.NoLeaf (pt : PageTable) : Prop := ∀ b, b < vaSpan → pt.lookup b = none

theorem freewalkLeaf_eq (hno : pt.NoLeaf) {j : ℕ} (hi : i < 512) (hj : j < 512) {mid : MidTable}
    {leaf : LeafTable} (hmid : pt.entry i = some mid) (hleaf : mid.entry j = some leaf)
    (m : PagePool) : freewalkLeaf m leaf = kfree m leaf.page := by
  unfold freewalkLeaf
  refine if_neg ?_
  simp only [List.any_eq_true, List.mem_range, not_exists, not_and]
  intro k hk
  -- entry `k` of this table is the entry of some address
  obtain ⟨va, hva, h2, h1, h0⟩ := exists_px hi hj hk
  have hlook := hno va hva
  unfold PageTable.lookup PageTable.leafTable at hlook
  rw [h2, h1, h0, hmid] at hlook
  simp only [Option.bind_some, hleaf] at hlook
  rw [hlook]
  simp

theorem freewalkMid_spec (hno : pt.NoLeaf) (hi : i < 512) {mid : MidTable}
    (hmid : pt.entry i = some mid) (hspare : ∀ pa ∈ pt.tablePages, Spare m ∅ pa) :
    ∃ m', freewalkMid m mid = .ok m' ∧ Moves m mid.tables m' 0 := by
  refine exists_bind_ok (foldlM_moves (k := m.kend)
    (g := fun j => (mid.entry j).elim 0 fun leaf => {leaf.page}) (List.range 512) ?_ rfl) ?_
  · intro j hj m' hk'
    have hj' := List.mem_range.mp hj
    cases hleaf : mid.entry j with
    | none => exact ⟨m', rfl, Moves.refl m' 0⟩
    | some leaf =>
      simp only
      rw [freewalkLeaf_eq hno hi hj' hmid hleaf]
      exact kfree_moves ((hspare leaf.page (Or.inr
        ⟨i, mid, hi, hmid, Or.inr ⟨j, leaf, hj', hleaf, rfl⟩⟩)).of_kend hk').1
  · -- the tables below are free, and the page of this one is left
    intro m₁ hmoves₁
    obtain ⟨m', hfree, hmoves⟩ := kfree_moves
      ((hspare mid.page (Or.inr ⟨i, mid, hi, hmid, Or.inl rfl⟩)).of_kend hmoves₁.kend).1
    refine ⟨m', hfree, ((hmoves₁.frame {mid.page}).congr ?_ (add_zero _)).trans hmoves⟩
    rw [Ledger.sum_map_range, MidTable.tables]

/-- **`freewalk`** frees the pages of all tables, once no leaf is left. -/
theorem freewalk_spec (hno : pt.NoLeaf) (hspare : ∀ pa ∈ pt.tablePages, Spare m ∅ pa) :
    ∃ m', freewalk m pt = .ok m' ∧ Moves m pt.tables m' 0 := by
  refine exists_bind_ok (foldlM_moves (k := m.kend)
    (g := fun i => (pt.entry i).elim 0 MidTable.tables) (List.range 512) ?_ rfl) ?_
  · intro i hi m' hk'
    cases hmid : pt.entry i with
    | none => exact ⟨m', rfl, Moves.refl m' 0⟩
    | some mid =>
      exact freewalkMid_spec hno (List.mem_range.mp hi) hmid
        fun pa hpa => (hspare pa hpa).of_kend hk'
  · intro m₁ hmoves₁
    obtain ⟨m', hfree, hmoves⟩ :=
      kfree_moves ((hspare pt.page (Or.inl rfl)).of_kend hmoves₁.kend).1
    refine ⟨m', hfree, ((hmoves₁.frame {pt.page}).congr ?_ (add_zero _)).trans hmoves⟩
    rw [Ledger.sum_map_range, PageTable.tables]

/-! ## User address spaces -/

/-- The number of pages below `sz`. -/
def pageCount (sz : ℕ) : ℕ := pgRoundUp sz / pgSize

/-- A user page table with `n` pages of user memory, the trampoline and the trapframe, and
nothing else; its pages may be freed without touching those in `O`. -/
structure UserSpace (m : PagePool) (O : Finset ℕ) (pt : PageTable) (n : ℕ) : Prop where
  bound : n * pgSize ≤ trapframeVa
  mapped : UserMapped m O pt 0 n
  trampoline : ∃ pte, pt.lookup trampolineVa = some pte
  trapframe : ∃ pte, pt.lookup trapframeVa = some pte
  only : ∀ b, b < vaSpan → n ≤ b / pgSize → b / pgSize ≠ trampolineVa / pgSize →
    b / pgSize ≠ trapframeVa / pgSize → pt.lookup b = none
  tables : ∀ pa ∈ pt.tablePages, Spare m O pa

/-- An address space does not depend on which other pages are outstanding. -/
theorem UserSpace.of_kend (h : UserSpace m O pt n) (hkend : m'.kend = m.kend) :
    UserSpace m' O pt n where
  bound := h.bound
  mapped := fun i hlo hi => by
    obtain ⟨pte, hl, hpa⟩ := h.mapped i hlo hi
    exact ⟨pte, hl, hpa.of_kend hkend⟩
  trampoline := h.trampoline
  trapframe := h.trapframe
  only := h.only
  tables := fun pa hpa => (h.tables pa hpa).of_kend hkend

theorem trapframeVa_le : trapframeVa ≤ maxVa := by decide

theorem UserSpace.page_lt (h : UserSpace m O pt n) (hi : i < n) : i * pgSize < maxVa :=
  mul_pgSize_lt hi (h.bound.trans trapframeVa_le)

/-- User pages lie below the trapframe. -/
theorem page_ne_top (hbound : n * pgSize ≤ trapframeVa) (hi : i < n) :
    i ≠ trampolineVa / pgSize ∧ i ≠ trapframeVa / pgSize := by
  have htop : trapframeVa / pgSize = 67108862 := by decide
  have htop' : trampolineVa / pgSize = 67108863 := by decide
  have hn : n ≤ trapframeVa / pgSize := (Nat.le_div_iff_mul_le (by decide)).mpr hbound
  omega

theorem PageTable.hasTable_congr (pt : PageTable) {a b : ℕ} (h2 : px 2 a = px 2 b)
    (h1 : px 1 a = px 1 b) (h : pt.HasTable a) : pt.HasTable b := by
  unfold PageTable.HasTable PageTable.leafTable at *
  rw [← h2, ← h1]
  exact h

theorem uvmfree_zero (pt : PageTable) (m : PagePool) : uvmfree pt m 0 = freewalk m pt := by
  unfold uvmfree
  rw [if_neg (lt_irrefl 0), ok_bind]

theorem lookup_zero (page b : ℕ) : (PageTable.zero page).lookup b = none := rfl

theorem UserSpace.congr {pt' : PageTable} (h : UserSpace m O pt n) (hkend : m'.kend = m.kend)
    (hlook : ∀ b, b < vaSpan → pt'.lookup b = pt.lookup b)
    (htables : ∀ pa ∈ pt'.tablePages, Spare m' O pa) :
    UserSpace m' O pt' n where
  bound := h.bound
  mapped := fun i hlo hi => by
    obtain ⟨pte, hl, hpa⟩ := h.mapped i hlo hi
    exact ⟨pte, (hlook _ (lt_vaSpan (h.page_lt hi))).trans hl, hpa.of_kend hkend⟩
  trampoline := by
    rw [hlook _ (by decide)]
    exact h.trampoline
  trapframe := by
    rw [hlook _ (by decide)]
    exact h.trapframe
  only := fun b hb hlo hne hne' => (hlook b hb).trans (h.only b hb hlo hne hne')
  tables := htables

theorem UserSpace.map_page {pt' : PageTable} {pte : Pte} (h : UserSpace m O pt n)
    (hkend : m'.kend = m.kend) (hbound : (n + 1) * pgSize ≤ trapframeVa)
    (hlook : ∀ b, b < vaSpan → pt'.lookup b = if b / pgSize = n then some pte else pt.lookup b)
    (hpte : Spare m' O pte.pa) (htables : ∀ pa ∈ pt'.tablePages, Spare m' O pa) :
    UserSpace m' O pt' (n + 1) where
  bound := hbound
  mapped := fun i hlo hi => by
    have hva := mul_pgSize_lt hi (hbound.trans trapframeVa_le)
    rw [hlook _ (lt_vaSpan hva), mul_pgSize_div]
    split_ifs with hin
    · exact ⟨pte, rfl, hpte⟩
    · obtain ⟨pte', hl, hpa⟩ := h.mapped i hlo (by omega)
      exact ⟨pte', hl, hpa.of_kend hkend⟩
  trampoline := by
    rw [hlook _ (by decide), if_neg (page_ne_top hbound (Nat.lt_succ_self n)).1.symm]
    exact h.trampoline
  trapframe := by
    rw [hlook _ (by decide), if_neg (page_ne_top hbound (Nat.lt_succ_self n)).2.symm]
    exact h.trapframe
  only := fun b hb hlo hne hne' => by
    rw [hlook b hb, if_neg (by omega)]
    exact h.only b hb (by omega) hne hne'
  tables := htables

/-- A user page table with `n` pages of user memory; besides its pages those of `B` are
outstanding. -/
structure AddressSpace (m : PagePool) (B : Multiset ℕ) (pt : PageTable) (n : ℕ) : Prop where
  user : UserSpace m ∅ pt n
  holds : Holds m (B + pt.tables + pt.user n)

/-! ## The size of an address space -/

theorem card_user (h : ∀ i, i < n → ∃ pte, pt.lookup (i * pgSize) = some pte) :
    (pt.user n).card = n := by
  induction n with
  | zero => rw [PageTable.user_zero, Multiset.card_zero]
  | succ n ih =>
    obtain ⟨pte, hl⟩ := h n (Nat.lt_succ_self n)
    rw [PageTable.user_succ hl, Multiset.card_add, ih fun i hi => h i (by omega),
      Multiset.card_singleton]

theorem mem_user_iff {pa : ℕ} :
    pa ∈ pt.user n ↔ ∃ i pte, i < n ∧ pt.lookup (i * pgSize) = some pte ∧ pa = pte.pa := by
  constructor
  · intro hpa
    unfold PageTable.user PageTable.segment at hpa
    obtain ⟨i, hi, hpa⟩ := Multiset.mem_sum.mp hpa
    rw [Nat.zero_add] at hpa
    cases hl : pt.lookup (i * pgSize) with
    | none =>
      rw [hl] at hpa
      simp at hpa
    | some pte =>
      rw [hl] at hpa
      exact ⟨i, pte, Finset.mem_range.mp hi, hl, Multiset.mem_singleton.mp hpa⟩
  · rintro ⟨i, pte, hi, hl, rfl⟩
    exact PageTable.mem_user hi hl

/-- **User memory fits in RAM**: its pages are different pages. -/
theorem AddressSpace.le_ram (h : AddressSpace m B pt n) : n ≤ physTop / pgSize := by
  have hnodup : (pt.user n).Nodup := Ledger.nodup_right h.holds.nodup
  have hsub : (pt.user n).toFinset ⊆ (Finset.range (physTop / pgSize)).image (· * pgSize) := by
    intro pa hpa
    obtain ⟨i, pte, hi, hl, rfl⟩ := mem_user_iff.mp (Multiset.mem_toFinset.mp hpa)
    obtain ⟨pte', hl', hpage, -⟩ := h.user.mapped i (Nat.zero_le i) hi
    rw [hl] at hl'
    cases hl'
    obtain ⟨halign, -, htop⟩ := hpage
    refine Finset.mem_image.mpr ⟨pte.pa / pgSize, Finset.mem_range.mpr ?_, ?_⟩
    · exact Nat.div_lt_div_of_lt_of_dvd (by decide) htop
    · exact Nat.div_mul_cancel (Nat.dvd_of_mod_eq_zero halign)
  calc n = (pt.user n).card := (card_user fun i hi => by
        obtain ⟨pte, hl, -⟩ := h.user.mapped i (Nat.zero_le i) hi
        exact ⟨pte, hl⟩).symm
    _ = (pt.user n).toFinset.card := by
        rw [Multiset.toFinset_card_of_nodup hnodup]
    _ ≤ ((Finset.range (physTop / pgSize)).image (· * pgSize)).card := Finset.card_le_card hsub
    _ ≤ physTop / pgSize := Finset.card_image_le.trans (Finset.card_range _).le

theorem AddressSpace.room (h : AddressSpace m B pt n) : (n + 1) * pgSize ≤ trapframeVa :=
  calc (n + 1) * pgSize ≤ (physTop / pgSize + 1) * pgSize :=
        Nat.mul_le_mul_right pgSize (Nat.add_le_add_right h.le_ram 1)
    _ ≤ trapframeVa := by decide

/-! ## Creating and freeing -/

/-- **`proc_pagetable`** maps the trampoline and the trapframe and nothing else, or gives back
all the pages it allocated. -/
theorem procPagetable_spec (m : PagePool) (trampoline trapframe : ℕ) :
    (∃ m', procPagetable trampoline trapframe m = .ok (none, m') ∧ Moves m 0 m' 0)
      ∨ ∃ pt m', procPagetable trampoline trapframe m = .ok (some pt, m')
        ∧ Moves m 0 m' pt.tables ∧ (∀ pa ∈ pt.tablePages, Spare m' ∅ pa)
        ∧ ∀ b, b < vaSpan → pt.lookup b
          = if b / pgSize = trapframeVa / pgSize then some ⟨trapframe, permRW⟩
            else if b / pgSize = trampolineVa / pgSize then some ⟨trampoline, permRX⟩ else none := by
  unfold procPagetable uvmcreate
  rcases kalloc_moves m with ⟨m₁, hk, hmoves⟩ | ⟨page, m₁, hk, hpage, -, hmoves⟩
  · exact Or.inl ⟨m₁, by rw [hk]; rfl, hmoves⟩
  · rw [hk]
    simp only
    have hspare : ∀ pa ∈ (PageTable.zero page).tablePages, Spare m₁ ∅ pa := by
      intro pa hpa
      rw [← PageTable.mem_tables, PageTable.tables_zero, Multiset.mem_singleton] at hpa
      rw [hpa]
      exact (spare_empty hpage).of_kend hmoves.kend
    rw [← PageTable.tables_zero] at hmoves
    rw [mappages_page _ _ (by decide)]
    obtain ⟨ok, pt₁, m₂, hrun₁, hmaps₁⟩ := mapPage_spec m₁
      (show trampolineVa < maxVa by decide) (lookup_zero page trampolineVa) trampoline permRX
    have hmoves₁ := hmoves.trans hmaps₁.moves
    rw [hrun₁]
    simp only [ok_bind]
    cases ok with
    | false =>
      -- the trampoline could not be mapped: only tables are left
      have hno : pt₁.NoLeaf := by
        intro b hb
        rw [hmaps₁.lookup b hb]
        simp [lookup_zero]
      obtain ⟨m₃, hrun₂, hmoves₂⟩ := freewalk_spec hno (hmaps₁.spare hspare)
      refine Or.inl ⟨m₃, ?_, hmoves₁.trans hmoves₂⟩
      rw [if_pos rfl, uvmfree_zero, hrun₂]
      rfl
    | true =>
      -- the trapframe's entry is in the same table, so mapping it needs no page
      have htab : pt₁.HasTable trapframeVa :=
        pt₁.hasTable_congr (by decide) (by decide) (hmaps₁.table rfl)
      have hnone : pt₁.lookup trapframeVa = none := by
        rw [hmaps₁.lookup _ (by decide), if_neg (by decide)]
        rfl
      rw [if_neg (by simp), mappages_page _ _ (by decide)]
      obtain ⟨ok, pt₂, m₃, hrun₂, hmaps₂⟩ :=
        mapPage_spec m₂ (show trapframeVa < maxVa by decide) hnone trapframe permRW
      obtain rfl := hmaps₂.enough htab
      rw [hrun₂]
      refine Or.inr ⟨pt₂, m₃, rfl, hmoves₁.trans hmaps₂.moves, hmaps₂.spare (hmaps₁.spare hspare),
        fun b hb => ?_⟩
      rw [hmaps₂.lookup b hb, hmaps₁.lookup b hb]
      simp [lookup_zero]

/-- **`proc_pagetable`** makes an empty address space, or leaves the account as it was. -/
theorem procPagetable_space (h : Holds m B) (trampoline trapframe : ℕ) :
    (∃ m', procPagetable trampoline trapframe m = .ok (none, m') ∧ m'.kend = m.kend ∧ Holds m' B)
      ∨ ∃ pt m', procPagetable trampoline trapframe m = .ok (some pt, m') ∧ m'.kend = m.kend
        ∧ AddressSpace m' B pt 0 := by
  have h₀ : Holds m (B + 0) := h.congr (add_zero B).symm
  rcases procPagetable_spec m trampoline trapframe with
    ⟨m', hrun, hmoves⟩ | ⟨pt, m', hrun, hmoves, hspare, hlook⟩
  · exact Or.inl ⟨m', hrun, hmoves.kend, (hmoves.holds B h₀).congr (add_zero B)⟩
  · refine Or.inr ⟨pt, m', hrun, hmoves.kend, ⟨by decide, ?_, ?_, ?_, ?_, hspare⟩, ?_⟩
    · exact fun i _ hi => absurd hi (Nat.not_lt_zero i)
    · exact ⟨_, (hlook _ (by decide)).trans ((if_neg (by decide)).trans (if_pos rfl))⟩
    · exact ⟨_, (hlook _ (by decide)).trans (if_pos rfl)⟩
    · intro b hb _ hne hne'
      rw [hlook b hb, if_neg hne', if_neg hne]
    · rw [PageTable.user_zero, add_zero]
      exact hmoves.holds B h₀

/-- **`proc_freepagetable`** gives back the tables and the user pages. -/
theorem procFreepagetable_spec (h : UserSpace m ∅ pt (pageCount sz)) :
    ∃ m', procFreepagetable pt m sz = .ok m'
      ∧ Moves m (pt.tables + pt.user (pageCount sz)) m' 0 := by
  obtain ⟨pte₁, hl₁⟩ := h.trampoline
  obtain ⟨pte₂, hl₂⟩ := h.trapframe
  set pt₁ := pt.setPte trampolineVa none with hpt₁
  have hlook₁ : ∀ b, b < vaSpan → pt₁.lookup b
      = if b / pgSize = trampolineVa / pgSize then none else pt.lookup b :=
    fun b hb => pt.lookup_setPte (by decide) (PageTable.hasTable_of_lookup hl₁) none hb
  have hl₂' : pt₁.lookup trapframeVa = some pte₂ := by
    rw [hlook₁ _ (by decide), if_neg (by decide), hl₂]
  set pt₂ := pt₁.setPte trapframeVa none with hpt₂
  have hlook₂ : ∀ b, b < vaSpan → pt₂.lookup b
      = if b / pgSize = trapframeVa / pgSize then none else pt₁.lookup b :=
    fun b hb => pt₁.lookup_setPte (by decide) (PageTable.hasTable_of_lookup hl₂') none hb
  -- unmapping the two top pages leaves the tables and the user pages
  have htables : pt₂.tables = pt.tables := (pt₁.tables_setPte _ _).trans (pt.tables_setPte _ _)
  have huser : ∀ i, i < pageCount sz → pt₂.lookup (i * pgSize) = pt.lookup (i * pgSize) := by
    intro i hi
    obtain ⟨hne, hne'⟩ := page_ne_top h.bound hi
    have hlt := lt_vaSpan (h.page_lt hi)
    rw [hlook₂ _ hlt, mul_pgSize_div, if_neg hne', hlook₁ _ hlt, mul_pgSize_div, if_neg hne]
  have hmap : UserMapped m ∅ pt₂ 0 (0 + pageCount sz) := by
    intro i hlo hi
    rw [Nat.zero_add] at hi
    obtain ⟨pte, hl, hpa⟩ := h.mapped i hlo hi
    exact ⟨pte, (huser i hi).trans hl, hpa⟩
  obtain ⟨pt₃, m₁, hrun, htables₃, hmoves₁, hlook₃⟩ := unmapPages_spec (pageCount sz) 0 hmap
    (by rw [Nat.zero_add]; exact h.bound.trans trapframeVa_le)
  rw [show pt₂.segment 0 (pageCount sz) = pt.user (pageCount sz) from PageTable.user_congr huser]
    at hmoves₁
  have hno : pt₃.NoLeaf := by
    intro b hb
    rw [hlook₃ b hb, hlook₂ b hb, hlook₁ b hb]
    split_ifs with hin h1 h2
    · rfl
    · rfl
    · rfl
    · refine h.only b hb (not_lt.mp fun hlt => hin ⟨Nat.zero_le _, ?_⟩) h2 h1
      rwa [Nat.zero_add]
  obtain ⟨m', hfree, hmoves⟩ := freewalk_spec (m := m₁) hno fun pa hpa => by
    rw [← PageTable.mem_tables, htables₃, htables, PageTable.mem_tables] at hpa
    exact (h.tables pa hpa).of_kend hmoves₁.kend
  rw [htables₃, htables] at hmoves
  refine ⟨m', ?_, ((hmoves₁.frame _).congr rfl (add_zero _)).trans hmoves⟩
  unfold procFreepagetable
  rw [uvmunmap_keep (by decide) (by decide) hl₁, ok_bind]
  simp only
  rw [uvmunmap_keep (by decide) (by decide) hl₂', ok_bind]
  simp only
  unfold uvmfree
  by_cases hsz : sz > 0
  · rw [if_pos hsz]
    have hunmap : uvmunmap pt₂ m 0 (pgRoundUp sz / pgSize) true = .ok (pt₃, m₁) := by
      unfold uvmunmap
      rw [if_neg (by decide)]
      rw [Nat.zero_mul] at hrun
      exact hrun
    rw [hunmap, ok_bind]
    exact hfree
  · -- `uvmfree` does not call `uvmunmap` for an empty range
    obtain rfl : sz = 0 := by omega
    have hrun' : (Except.ok (pt₂, m) : Except Fault _) = .ok (pt₃, m₁) := hrun
    cases hrun'
    rw [if_neg hsz, ok_bind]
    exact hfree

/-- **`proc_freepagetable`** gives back exactly the pages of the address space. -/
theorem procFreepagetable_space (h : AddressSpace m B pt (pageCount sz)) :
    ∃ m', procFreepagetable pt m sz = .ok m' ∧ m'.kend = m.kend ∧ Holds m' B := by
  obtain ⟨m', hrun, hmoves⟩ := procFreepagetable_spec h.user
  refine ⟨m', hrun, hmoves.kend, (hmoves.holds B (h.holds.congr ?_)).congr (add_zero B)⟩
  rw [add_assoc]

/-! ## Unmapping -/

/-- Unmapping the pages from `k` on. -/
theorem AddressSpace.unmap (h : AddressSpace m B pt n) (hk : k ≤ n) :
    ∃ pt' m', uvmunmap pt m (k * pgSize) (n - k) true = .ok (pt', m') ∧ m'.kend = m.kend
      ∧ AddressSpace m' B pt' k
      ∧ ∀ b, b < vaSpan → b / pgSize < k → pt'.lookup b = pt.lookup b := by
  obtain ⟨d, rfl⟩ := Nat.exists_eq_add_of_le hk
  obtain ⟨pt', m', hrun, htables, hmoves, hlook⟩ := unmapPages_spec d k
    (fun i _ hi => h.user.mapped i (Nat.zero_le i) hi) (h.user.bound.trans trapframeVa_le)
  have hsame : ∀ b, b < vaSpan → ¬ (k ≤ b / pgSize ∧ b / pgSize < k + d) →
      pt'.lookup b = pt.lookup b := by
    intro b hb hnot
    rw [hlook b hb, if_neg hnot]
  have huser : ∀ i, i < k → pt'.lookup (i * pgSize) = pt.lookup (i * pgSize) := by
    intro i hi
    refine hsame _ (lt_vaSpan (h.user.page_lt (show i < k + d by omega))) ?_
    rw [mul_pgSize_div]
    omega
  -- the two pages at the top lie above the user memory
  have htop : k + d ≤ trapframeVa / pgSize := (Nat.le_div_iff_mul_le (by decide)).mpr h.user.bound
  refine ⟨pt', m', ?_, hmoves.kend, ⟨⟨?_, ?_, ?_, ?_, ?_, ?_⟩, ?_⟩,
    fun b hb hbk => hsame b hb (by omega)⟩
  · unfold uvmunmap
    rw [if_neg (by simp), Nat.add_sub_cancel_left]
    exact hrun
  · exact (Nat.mul_le_mul_right pgSize hk).trans h.user.bound
  · intro i hlo hi
    obtain ⟨pte, hl, hpa⟩ := h.user.mapped i hlo (by omega)
    exact ⟨pte, (huser i hi).trans hl, hpa.of_kend hmoves.kend⟩
  · rw [hsame _ (by decide) fun hlt => absurd hlt.2 (not_lt.mpr (htop.trans (by decide)))]
    exact h.user.trampoline
  · rw [hsame _ (by decide) fun hlt => absurd hlt.2 (not_lt.mpr htop)]
    exact h.user.trapframe
  · intro b hb hlo hne hne'
    rw [hlook b hb]
    split_ifs with hin
    · rfl
    · exact h.user.only b hb (by omega) hne hne'
  · intro pa hpa
    rw [← PageTable.mem_tables, htables, PageTable.mem_tables] at hpa
    exact (h.user.tables pa hpa).of_kend hmoves.kend
  · rw [PageTable.user_congr huser, htables]
    refine (hmoves.holds (B + pt.tables + pt.user k) (h.holds.congr ?_)).congr (add_zero _)
    rw [PageTable.user_add]
    abel

theorem pageCount_mul (n : ℕ) : pageCount (n * pgSize) = n := by
  unfold pageCount pgRoundUp
  rw [mul_pgSize_div]
  unfold pgSize
  omega

@[simp] theorem pageCount_zero : pageCount 0 = 0 := by decide

theorem pgRoundUp_eq (sz : ℕ) : pgRoundUp sz = pageCount sz * pgSize := by
  unfold pageCount
  rw [show pgRoundUp sz = (sz + pgSize - 1) / pgSize * pgSize from rfl, mul_pgSize_div]

theorem pageCount_mono {a b : ℕ} (h : a ≤ b) : pageCount a ≤ pageCount b := by
  unfold pageCount pgRoundUp pgSize
  omega

/-- **`uvmdealloc`** returns the smaller size and keeps the pages below it. -/
theorem uvmdealloc_spec (h : AddressSpace m B pt (pageCount oldsz)) (newsz : ℕ) :
    ∃ pt' m', uvmdealloc pt m oldsz newsz = .ok (min oldsz newsz, pt', m') ∧ m'.kend = m.kend
      ∧ AddressSpace m' B pt' (pageCount (min oldsz newsz))
      ∧ ∀ b, b < vaSpan → b / pgSize < pageCount (min oldsz newsz) →
        pt'.lookup b = pt.lookup b := by
  unfold uvmdealloc
  by_cases hge : newsz ≥ oldsz
  · rw [if_pos hge, min_eq_left hge]
    exact ⟨pt, m, rfl, rfl, h, fun _ _ _ => rfl⟩
  · rw [if_neg hge, min_eq_right (by omega)]
    have hmono : pageCount newsz ≤ pageCount oldsz := pageCount_mono (by omega)
    rw [pgRoundUp_eq, pgRoundUp_eq]
    split_ifs with hlt
    · obtain ⟨pt', m', hrun, hkend, hspace, hsame⟩ := h.unmap hmono
      refine ⟨pt', m', ?_, hkend, hspace, hsame⟩
      simp only [← Nat.sub_mul, mul_pgSize_div, hrun, ok_bind]
      rfl
    · have heq : pageCount newsz = pageCount oldsz := by
        refine le_antisymm hmono (Nat.le_of_mul_le_mul_right (not_lt.mp hlt) (by decide))
      rw [← heq] at h
      exact ⟨pt, m, rfl, rfl, h, fun _ _ _ => rfl⟩

/-! ## One more page -/

/-- The page behind an address space is below `MAXVA` and not mapped. -/
theorem AddressSpace.next_page (h : AddressSpace m B pt n) :
    n * pgSize < maxVa ∧ pt.lookup (n * pgSize) = none := by
  have hroom := h.room
  have hva : n * pgSize < maxVa :=
    mul_pgSize_lt (Nat.lt_succ_self n) (hroom.trans trapframeVa_le)
  obtain ⟨hne, hne'⟩ := page_ne_top hroom (Nat.lt_succ_self n)
  refine ⟨hva, h.user.only _ (lt_vaSpan hva) ?_ ?_ ?_⟩
  · rw [mul_pgSize_div]
  · rwa [mul_pgSize_div]
  · rwa [mul_pgSize_div]

/-- One turn of the loops of `uvmalloc` and `uvmcopy`: `kalloc`, `mappages`, and where that
fails `kfree`. -/
inductive OneMore (m : PagePool) (B : Multiset ℕ) (pt : PageTable) (n : ℕ) (perm : Perm) : Prop
  | noPage {m₁ : PagePool} (hk : kalloc m = (none, m₁)) (hkend : m₁.kend = m.kend)
      (hspace : AddressSpace m₁ B pt n)
  | noTable {mem : ℕ} {m₁ m₂ m₃ : PagePool} {pt₂ : PageTable} (hk : kalloc m = (some mem, m₁))
      (hmap : mappages pt m₁ (n * pgSize) pgSize mem perm = .ok (false, pt₂, m₂))
      (hfree : kfree m₂ mem = .ok m₃) (hkend : m₃.kend = m.kend) (hspace : AddressSpace m₃ B pt₂ n)
      (hpage : m.IsPage mem ∧ mem ∉ B + pt.user n)
      (hlook : ∀ b, b < vaSpan → pt₂.lookup b = pt.lookup b)
  | mapped {mem : ℕ} {m₁ m₂ : PagePool} {pt₂ : PageTable} (hk : kalloc m = (some mem, m₁))
      (hmap : mappages pt m₁ (n * pgSize) pgSize mem perm = .ok (true, pt₂, m₂))
      (hkend : m₂.kend = m.kend) (hspace : AddressSpace m₂ B pt₂ (n + 1))
      (hpage : m.IsPage mem ∧ mem ∉ B + pt.user n) (huser : pt₂.user (n + 1) = pt.user n + {mem})
      (hlook : ∀ b, b < vaSpan →
        pt₂.lookup b = if b / pgSize = n then some ⟨mem, perm⟩ else pt.lookup b)

theorem AddressSpace.one_more (h : AddressSpace m B pt n) (perm : Perm) :
    OneMore m B pt n perm := by
  obtain ⟨hva, hnone⟩ := h.next_page
  rcases kalloc_moves m with ⟨m₁, hk, hmoves⟩ | ⟨mem, m₁, hk, hmem, hfresh, hmoves⟩
  · refine .noPage hk hmoves.kend ⟨h.user.of_kend hmoves.kend, ?_⟩
    exact (hmoves.holds _ (h.holds.congr (add_zero _).symm)).congr (add_zero _)
  · obtain ⟨ok, pt₂, m₂, hrun, hmaps⟩ := mapPage_spec m₁ hva hnone mem perm
    have hmap : mappages pt m₁ (n * pgSize) pgSize mem perm = .ok (ok, pt₂, m₂) := by
      rw [mappages_page _ _ (Nat.mul_mod_left n pgSize)]
      exact hrun
    have hkend : m₂.kend = m.kend := hmaps.moves.kend.trans hmoves.kend
    have hpage : m.IsPage mem ∧ mem ∉ B + pt.user n := by
      refine ⟨hmem, fun hin => hfresh ?_⟩
      rw [← Finset.mem_val, show m.outstanding.val = _ from h.holds]
      simp only [Multiset.mem_add] at hin ⊢
      tauto
    have hlook := hmaps.lookup
    rw [mul_pgSize_div] at hlook
    have hspare := hmaps.spare fun pa hpa => (h.user.tables pa hpa).of_kend hmoves.kend
    have hholds : Holds m₂ (B + pt.user n + {mem} + pt₂.tables) := by
      refine hmaps.moves.holds _ ?_
      refine (hmoves.holds _ (h.holds.congr (add_zero _).symm)).congr ?_
      abel
    have huser : pt₂.user n = pt.user n := by
      refine PageTable.user_congr fun i hi => ?_
      rw [hlook _ (lt_vaSpan (h.user.page_lt hi)), mul_pgSize_div, if_neg (by omega)]
    have hmem₂ : Spare m₂ ∅ mem := (spare_empty hmem).of_kend hkend
    cases ok with
    | true =>
      simp only [true_and] at hlook
      have huser' : pt₂.user (n + 1) = pt.user n + {mem} := by
        have hnew : pt₂.lookup (n * pgSize) = some ⟨mem, perm⟩ := by
          rw [hlook _ (lt_vaSpan hva), mul_pgSize_div, if_pos rfl]
        rw [PageTable.user_succ hnew, huser]
      refine .mapped hk hmap hkend ⟨?_, ?_⟩ hpage huser' hlook
      · exact h.user.map_page hkend h.room hlook hmem₂ hspare
      · rw [huser']
        exact hholds.congr (by abel)
    | false =>
      simp only [Bool.false_eq_true, false_and, if_false] at hlook
      obtain ⟨m₃, hfree, hmoves₃⟩ := kfree_moves hmem₂.1
      have hkend₃ := hmoves₃.kend.trans hkend
      refine .noTable hk hmap hfree hkend₃ ⟨?_, ?_⟩ hpage hlook
      · exact h.user.congr hkend₃ hlook fun pa hpa => (hspare pa hpa).of_kend hmoves₃.kend
      · rw [huser]
        exact (hmoves₃.holds _ (hholds.congr (by abel))).congr (add_zero (B + pt₂.tables + pt.user n))

/-- The call of `uvmdealloc` where `uvmalloc` fails at page `i`. -/
theorem AddressSpace.back (h : AddressSpace m B pt i) (hki : k ≤ i) :
    ∃ pt' m', uvmdealloc pt m (i * pgSize) (k * pgSize) = .ok (k * pgSize, pt', m')
      ∧ m'.kend = m.kend ∧ AddressSpace m' B pt' k
      ∧ ∀ b, b < vaSpan → b / pgSize < k → pt'.lookup b = pt.lookup b := by
  rw [← pageCount_mul i] at h
  have hspec := uvmdealloc_spec h (k * pgSize)
  rwa [min_eq_right (Nat.mul_le_mul_right pgSize hki), pageCount_mul] at hspec

/-- The `err` label of `uvmcopy`. -/
theorem AddressSpace.clear (h : AddressSpace m B pt i) :
    ∃ pt' m', uvmunmap pt m 0 i true = .ok (pt', m') ∧ m'.kend = m.kend
      ∧ AddressSpace m' B pt' 0 := by
  obtain ⟨pt', m', hrun, hkend, hspace, -⟩ := h.unmap (Nat.zero_le i)
  rw [Nat.zero_mul, Nat.sub_zero] at hrun
  exact ⟨pt', m', hrun, hkend, hspace⟩

/-- **`uvmfirst`** does not look at the result of `mappages`; where the page is mapped, it is
the only one. -/
theorem uvmfirst_spec (h : AddressSpace m B pt 0) :
    uvmfirst pt m = .error .nullDeref
      ∨ ∃ pt' m', uvmfirst pt m = .ok (pt', m') ∧ m'.kend = m.kend
        ∧ ∀ pte, pt'.lookup 0 = some pte → AddressSpace m' B pt' 1 := by
  unfold uvmfirst
  cases h.one_more permRWXU with
  | noPage hk =>
    rw [hk]
    exact Or.inl rfl
  | @noTable mem m₁ m₂ m₃ pt₂ hk hmap hfree hkend hspace =>
    -- without a table for its entry the page is not mapped
    rw [Nat.zero_mul] at hmap
    simp only [hk, deref_some, ok_bind, hmap]
    refine Or.inr ⟨pt₂, m₂, rfl, (kfree_kend hfree).symm.trans hkend, fun pte hl => ?_⟩
    rw [hspace.user.only 0 (by decide) (by decide) (by decide) (by decide)] at hl
    cases hl
  | mapped hk hmap hkend hspace =>
    rw [Nat.zero_mul] at hmap
    simp only [hk, deref_some, ok_bind, hmap]
    exact Or.inr ⟨_, _, rfl, hkend, fun _ _ => hspace⟩

/-! ## Memory to be copied -/

/-- The pages below `sz` are mapped and lie below the trapframe. -/
def MapsBelow (pt : PageTable) (sz : ℕ) : Prop :=
  pageCount sz * pgSize ≤ trapframeVa
    ∧ ∀ i, i < pageCount sz → ∃ pte, pt.lookup (i * pgSize) = some pte

theorem UserSpace.mapsBelow {O : Finset ℕ} (h : UserSpace m O pt (pageCount sz)) :
    MapsBelow pt sz := by
  refine ⟨h.bound, fun i hi => ?_⟩
  obtain ⟨pte, hl, -⟩ := h.mapped i (Nat.zero_le i) hi
  exact ⟨pte, hl⟩

end Xv6
