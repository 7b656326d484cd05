/-
# An exact account of the pages of a page table

`Holds m S` says that the outstanding pages of the pool are the multiset `S`, and
`Moves m S m' S'` says what a call does to it: the pages `S` have become `S'`, and
whatever else is outstanding has not been touched.  Every function of `vm.c` is
described in this way: what it allocates it links into the page table (`tables`), and
what it unlinks it frees.
-/
import Xv6.Ledger
import Xv6.VmModel

namespace Xv6

open Function

variable {B S S' : Multiset ℕ} {m m' m'' : PagePool} {pt pt' : PageTable} {pte : Pte} {n pa va : ℕ}

/-! ## The pool -/

/-- The outstanding pages are those of `S`. -/
def Holds (m : PagePool) (S : Multiset ℕ) : Prop := m.outstanding.val = S

theorem Holds.nodup (h : Holds m S) : S.Nodup :=
  h ▸ m.outstanding.nodup

theorem Holds.congr {S' : Multiset ℕ} (h : Holds m S) (heq : S = S') : Holds m S' :=
  heq ▸ h

theorem Holds.of_outstanding (h : Holds m S) (hout : m'.outstanding = m.outstanding) :
    Holds m' S := by
  unfold Holds
  rw [hout]
  exact h

/-- Of the outstanding pages those of `S` have become those of `S'`; the others stay. -/
structure Moves (m : PagePool) (S : Multiset ℕ) (m' : PagePool) (S' : Multiset ℕ) : Prop where
  kend : m'.kend = m.kend
  holds : ∀ B, Holds m (B + S) → Holds m' (B + S')

theorem Moves.refl (m : PagePool) (S : Multiset ℕ) : Moves m S m S := ⟨rfl, fun _ h => h⟩

theorem Moves.trans {S'' : Multiset ℕ} (h : Moves m S m' S') (h' : Moves m' S' m'' S'') :
    Moves m S m'' S'' :=
  ⟨h'.kend.trans h.kend, fun B hB => h'.holds B (h.holds B hB)⟩

/-- What is not moved may be counted with both sides. -/
theorem Moves.frame (h : Moves m S m' S') (T : Multiset ℕ) : Moves m (T + S) m' (T + S') := by
  refine ⟨h.kend, fun B hB => ?_⟩
  rw [← add_assoc] at hB ⊢
  exact h.holds (B + T) hB

theorem Moves.congr {T T' : Multiset ℕ} (h : Moves m S m' S') (hS : S = T) (hS' : S' = T') :
    Moves m T m' T' :=
  hS ▸ hS' ▸ h

/-- Nothing has been moved. -/
theorem Moves.outstanding (h : Moves m 0 m' 0) : m'.outstanding = m.outstanding :=
  Finset.val_injective (by simpa [Holds] using h.holds m.outstanding.val (add_zero _).symm)

/-- What `kalloc` does: it fails, or hands out a page that is not outstanding. -/
theorem kalloc_moves (m : PagePool) :
    (∃ m', kalloc m = (none, m') ∧ Moves m 0 m' 0)
      ∨ ∃ pa m', kalloc m = (some pa, m') ∧ m.IsPage pa ∧ pa ∉ m.outstanding
        ∧ Moves m 0 m' {pa} := by
  rcases kalloc_cases m with ⟨m', hk, hout, hkend⟩ | ⟨pa, m', hk, hpage, hfresh, hout, hkend⟩
  · exact Or.inl ⟨m', hk, hkend, fun B hB => hB.of_outstanding hout⟩
  · refine Or.inr ⟨pa, m', hk, hpage, hfresh, hkend, fun B hB => ?_⟩
    unfold Holds at *
    rw [hout, Finset.insert_val_of_notMem hfresh, hB, ← Multiset.singleton_add, add_zero, add_comm]

/-- What `kalloc` returns is added to the account. -/
theorem kalloc_holds (h : Holds m S) (hrun : kalloc m = (some pa, m')) : Holds m' (S + {pa}) := by
  rcases kalloc_moves m with ⟨m₁, hk, -⟩ | ⟨pa₁, m₁, hk, -, -, hmoves⟩
  · rw [hk] at hrun
    cases hrun
  · rw [hk] at hrun
    cases hrun
    exact hmoves.holds S (h.congr (add_zero S).symm)

/-- What `kfree` is given is taken off the account. -/
theorem kfree_holds (h : Holds m (S + {pa})) (hrun : kfree m pa = .ok m') : Holds m' S := by
  unfold kfree at hrun
  split_ifs at hrun with hpage
  cases hrun
  unfold Holds at *
  rw [Finset.erase_val, h, add_comm, Multiset.singleton_add, Multiset.erase_cons_head]

theorem kfree_kend (hrun : kfree m pa = .ok m') : m'.kend = m.kend := by
  unfold kfree at hrun
  split_ifs at hrun
  cases hrun
  rfl

theorem kfree_moves (h : m.IsPage pa) : ∃ m', kfree m pa = .ok m' ∧ Moves m {pa} m' 0 := by
  have hrun : kfree m pa = .ok { m with outstanding := m.outstanding.erase pa } :=
    if_neg (not_not_intro h)
  exact ⟨_, hrun, kfree_kend hrun, fun B hB => by simpa using kfree_holds hB hrun⟩

/-! ## The tables -/

theorem px_lt (level va : ℕ) : px level va < 512 := Nat.mod_lt _ (by decide)

theorem PageTable.leafTable_eq_some {leaf : LeafTable} (h : pt.leafTable va = some leaf) :
    ∃ mid, pt.entry (px 2 va) = some mid ∧ mid.entry (px 1 va) = some leaf :=
  Option.bind_eq_some_iff.mp h

/-- The pages in which the tables are stored. -/
def PageTable.tablePages (pt : PageTable) : Set ℕ :=
  {pa | pa = pt.page ∨ ∃ i mid, i < 512 ∧ pt.entry i = some mid
    ∧ (pa = mid.page ∨ ∃ j leaf, j < 512 ∧ mid.entry j = some leaf ∧ pa = leaf.page)}

/-- The pages of a table of level 1 and of the tables below it. -/
def MidTable.tables (mid : MidTable) : Multiset ℕ :=
  {mid.page} + ∑ j ∈ Finset.range 512, (mid.entry j).elim 0 fun leaf => {leaf.page}

/-- The pages of all tables of a page table. -/
def PageTable.tables (pt : PageTable) : Multiset ℕ :=
  {pt.page} + ∑ i ∈ Finset.range 512, (pt.entry i).elim 0 MidTable.tables

theorem MidTable.tables_zero (page : ℕ) : (MidTable.zero page).tables = {page} := by
  simp [MidTable.tables, MidTable.zero]

namespace PageTable

theorem tables_zero (page : ℕ) : (PageTable.zero page).tables = {page} := by
  simp [tables, PageTable.zero]

theorem mem_tables : pa ∈ pt.tables ↔ pa ∈ pt.tablePages := by
  have hmid : ∀ mid : MidTable, pa ∈ mid.tables ↔ pa = mid.page
      ∨ ∃ j leaf, j < 512 ∧ mid.entry j = some leaf ∧ pa = leaf.page := by
    intro mid
    rw [MidTable.tables, Multiset.mem_add, Multiset.mem_singleton, Multiset.mem_sum]
    refine or_congr Iff.rfl ⟨?_, ?_⟩
    · rintro ⟨j, hj, hpa⟩
      cases hleaf : mid.entry j with
      | none =>
        rw [hleaf] at hpa
        simp at hpa
      | some leaf =>
        rw [hleaf] at hpa
        exact ⟨j, leaf, Finset.mem_range.mp hj, hleaf, Multiset.mem_singleton.mp hpa⟩
    · rintro ⟨j, leaf, hj, hleaf, rfl⟩
      refine ⟨j, Finset.mem_range.mpr hj, ?_⟩
      rw [hleaf]
      exact Multiset.mem_singleton_self _
  rw [tables, Multiset.mem_add, Multiset.mem_singleton, Multiset.mem_sum]
  refine or_congr Iff.rfl ⟨?_, ?_⟩
  · rintro ⟨i, hi, hpa⟩
    cases hent : pt.entry i with
    | none =>
      rw [hent] at hpa
      simp at hpa
    | some mid =>
      rw [hent, Option.elim_some, hmid mid] at hpa
      exact ⟨i, mid, Finset.mem_range.mp hi, hent, hpa⟩
  · rintro ⟨i, mid, hi, hent, hor⟩
    refine ⟨i, Finset.mem_range.mpr hi, ?_⟩
    rw [hent, Option.elim_some, hmid mid]
    exact hor

theorem tables_setMid (pt : PageTable) (va : ℕ) (mid : MidTable) :
    (pt.setMid va mid).tables + (pt.entry (px 2 va)).elim 0 MidTable.tables
      = pt.tables + mid.tables := by
  have hsum := Ledger.sum_update (Finset.mem_range.mpr (px_lt 2 va)) pt.entry
    (fun o => o.elim 0 MidTable.tables) (some mid)
  unfold tables setMid
  rw [add_assoc, hsum, add_assoc]
  rfl

theorem tables_setLeaf {mid : MidTable} (hmid : pt.entry (px 2 va) = some mid) (leaf : LeafTable) :
    (pt.setLeaf va leaf).tables
        + (mid.entry (px 1 va)).elim 0 (fun old => {old.page})
      = pt.tables + {leaf.page} := by
  have hsum := Ledger.sum_update (Finset.mem_range.mpr (px_lt 1 va)) mid.entry
    (fun o : Option LeafTable => o.elim (0 : Multiset ℕ) fun leaf => {leaf.page}) (some leaf)
  have hset := tables_setMid pt va
    { mid with entry := update mid.entry (px 1 va) (some leaf) }
  rw [hmid] at hset
  unfold setLeaf
  rw [hmid]
  -- the tables below `mid` change by the one entry, and `pt` by `mid`
  refine add_right_cancel (b := mid.tables) ?_
  calc (pt.setMid va { mid with entry := update mid.entry (px 1 va) (some leaf) }).tables
        + (mid.entry (px 1 va)).elim 0 (fun old => {old.page}) + mid.tables
      = (pt.setMid va { mid with entry := update mid.entry (px 1 va) (some leaf) }).tables
        + mid.tables + (mid.entry (px 1 va)).elim 0 (fun old => {old.page}) := by abel
    _ = pt.tables + ({mid.page} + (∑ j ∈ Finset.range 512,
          (update mid.entry (px 1 va) (some leaf) j).elim 0 (fun leaf => {leaf.page})
        + (mid.entry (px 1 va)).elim 0 (fun old => {old.page}))) := by
      rw [show _ + mid.tables = _ from hset, MidTable.tables]
      abel
    _ = pt.tables + {leaf.page} + mid.tables := by
      rw [hsum, MidTable.tables]
      simp only [Option.elim_some]
      abel

theorem tables_setPte (pt : PageTable) (va : ℕ) (pte : Option Pte) :
    (pt.setPte va pte).tables = pt.tables := by
  unfold setPte
  cases hleaf : pt.leafTable va with
  | none => rfl
  | some leaf =>
    obtain ⟨mid, hmid, hml⟩ := leafTable_eq_some hleaf
    have hset := tables_setLeaf hmid { leaf with pte := update leaf.pte (px 0 va) pte }
    rw [hml] at hset
    exact add_right_cancel hset

end PageTable

/-! ## User pages -/

/-- The pages that the entries `lo` to `lo + n` map. -/
def PageTable.segment (pt : PageTable) (lo n : ℕ) : Multiset ℕ :=
  ∑ i ∈ Finset.range n, (pt.lookup ((lo + i) * pgSize)).elim 0 fun pte => {pte.pa}

/-- The pages that the first `n` entries map. -/
def PageTable.user (pt : PageTable) (n : ℕ) : Multiset ℕ := pt.segment 0 n

namespace PageTable

theorem segment_congr {lo : ℕ}
    (h : ∀ i, lo ≤ i → i < lo + n → pt'.lookup (i * pgSize) = pt.lookup (i * pgSize)) :
    pt'.segment lo n = pt.segment lo n := by
  refine Finset.sum_congr rfl fun i hi => ?_
  have hi' := Finset.mem_range.mp hi
  rw [h (lo + i) (by omega) (by omega)]

theorem segment_add (pt : PageTable) (lo n k : ℕ) :
    pt.segment lo (n + k) = pt.segment lo n + pt.segment (lo + n) k := by
  unfold segment
  rw [Finset.sum_range_add]
  simp only [Nat.add_assoc]

theorem segment_succ {lo : ℕ} (h : pt.lookup (lo * pgSize) = some pte) (n : ℕ) :
    pt.segment lo (n + 1) = {pte.pa} + pt.segment (lo + 1) n := by
  rw [Nat.add_comm n 1, segment_add]
  unfold segment
  rw [Finset.sum_range_one, Nat.add_zero, h]
  rfl

theorem segment_zero (pt : PageTable) (lo : ℕ) : pt.segment lo 0 = 0 := rfl

theorem user_zero (pt : PageTable) : pt.user 0 = 0 := rfl

theorem user_add (pt : PageTable) (n k : ℕ) : pt.user (n + k) = pt.user n + pt.segment n k := by
  unfold user
  rw [segment_add, Nat.zero_add]

theorem user_succ (h : pt.lookup (n * pgSize) = some pte) :
    pt.user (n + 1) = pt.user n + {pte.pa} := by
  rw [user_add, segment_succ h]
  simp [segment]

theorem user_congr (h : ∀ i, i < n → pt'.lookup (i * pgSize) = pt.lookup (i * pgSize)) :
    pt'.user n = pt.user n :=
  segment_congr fun i _ hi => h i (by omega)

theorem mem_user {i : ℕ} (hi : i < n) (h : pt.lookup (i * pgSize) = some pte) :
    pte.pa ∈ pt.user n := by
  refine Ledger.mem_sum_of_mem (Finset.mem_range.mpr hi) ?_
  rw [Nat.zero_add, h]
  exact Multiset.mem_singleton_self _

theorem user_inj {i j : ℕ} (hnodup : (pt.user n).Nodup) (hi : i < n) (hj : j < n) {pte' : Pte}
    (h : pt.lookup (i * pgSize) = some pte) (h' : pt.lookup (j * pgSize) = some pte')
    (hpa : pte.pa = pte'.pa) : i = j := by
  unfold user segment at hnodup
  refine Ledger.eq_of_mem hnodup (Finset.mem_range.mpr hi) (Finset.mem_range.mpr hj) (x := pte.pa) ?_ ?_
  · rw [Nat.zero_add, h]
    exact Multiset.mem_singleton_self _
  · rw [Nat.zero_add, h', hpa]
    exact Multiset.mem_singleton_self _

end PageTable

-- the sums over 512 entries are never to be computed
attribute [irreducible] MidTable.tables PageTable.tables PageTable.segment

end Xv6
