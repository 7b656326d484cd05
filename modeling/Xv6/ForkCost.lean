/-
# How many pages `fork` and `clone` ask for

A call that finds a slot takes a fixed number of pages, `forkPages n` for a caller
with `n` pages of memory: the trapframe, the page table with the tables for the two
top pages, a copy of each page, and one page for every table that the copy is the
first to need.  The call gets its child exactly when the allocator serves all of them
(`forkCopy_isSome`).
-/
import Xv6.ProcSteps

namespace Xv6

variable {ok : Bool} {r : Option ℕ} {m m' : PagePool} {pt : PageTable} {c i : ℕ}

/-! ## Taking pages -/

/-- The pool after the next `k` calls of `kalloc`, if all of them succeed. -/
def takePages : ℕ → PagePool → Option PagePool
  | 0, m => some m
  | k + 1, m =>
    match kalloc m with
    | (some _, m) => takePages k m
    | (none, _) => none

theorem takePages_add (j k : ℕ) (m : PagePool) :
    takePages (j + k) m = (takePages j m).bind (takePages k) := by
  induction j generalizing m with
  | zero => simp [takePages]
  | succ j ih =>
    rw [Nat.succ_add, takePages, takePages]
    split
    · exact ih _
    · rfl

/-- A computation that takes `c` pages, and succeeds if it gets them. -/
def Spends (c : ℕ) (m : PagePool) (ok : Bool) (m' : PagePool) : Prop :=
  takePages c m = if ok then some m' else none

theorem Spends.zero (m : PagePool) : Spends 0 m true m := rfl

theorem Spends.trans {d : ℕ} {m₁ : PagePool} (h : Spends c m true m₁) (h' : Spends d m₁ ok m') :
    Spends (c + d) m ok m' := by
  unfold Spends at *
  rw [takePages_add, h]
  exact h'

theorem Spends.fail {m₁ : PagePool} (h : Spends c m false m₁) (d : ℕ) (m' : PagePool) :
    Spends (c + d) m false m' := by
  unfold Spends at *
  rw [takePages_add, h]
  rfl

theorem Spends.eq_isSome (h : Spends c m ok m') : ok = (takePages c m).isSome := by
  unfold Spends at h
  rw [h]
  cases ok <;> rfl

theorem kalloc_spends (h : kalloc m = (r, m')) : Spends 1 m r.isSome m' := by
  unfold Spends takePages
  rw [h]
  cases r <;> rfl

/-! ## Tables -/

namespace PageTable

/-- There is a table of level 1 for `va`. -/
def HasMid (pt : PageTable) (va : ℕ) : Prop := (pt.entry (px 2 va)).isSome = true

instance (pt : PageTable) (va : ℕ) : Decidable (pt.HasMid va) := inferInstanceAs (Decidable (_ = _))

instance (pt : PageTable) (va : ℕ) : Decidable (pt.HasTable va) := inferInstanceAs (Decidable (_ = _))

/-- The number of tables that `walk` has to add for `va`. -/
def missing (pt : PageTable) (va : ℕ) : ℕ :=
  (if pt.HasMid va then 0 else 1) + if pt.HasTable va then 0 else 1

theorem hasTable_setPte_iff (pt : PageTable) (va : ℕ) (pte : Option Pte) (b : ℕ) :
    (pt.setPte va pte).HasTable b ↔ pt.HasTable b := by
  refine ⟨fun h => ?_, hasTable_setPte pte⟩
  unfold setPte at h
  cases hleaf : pt.leafTable va with
  | none =>
    rw [hleaf] at h
    exact h
  | some leaf =>
    obtain ⟨mid, hmid, -⟩ := leafTable_eq_some hleaf
    rw [hleaf] at h
    unfold HasTable at h
    simp only at h
    rw [leafTable_setLeaf hmid] at h
    split_ifs at h with hb
    · exact pt.hasTable_congr hb.1.symm hb.2.symm (Option.isSome_iff_exists.mpr ⟨leaf, hleaf⟩)
    · exact h

theorem hasMid_setLeaf_iff (pt : PageTable) (va : ℕ) (leaf : LeafTable) (b : ℕ) :
    (pt.setLeaf va leaf).HasMid b ↔ pt.HasMid b := by
  unfold HasMid setLeaf setMid
  cases hmid : pt.entry (px 2 va) with
  | none => rfl
  | some mid =>
    by_cases hb : px 2 b = px 2 va
    · simp [hb, hmid]
    · simp [hb]

theorem hasMid_setPte_iff (pt : PageTable) (va : ℕ) (pte : Option Pte) (b : ℕ) :
    (pt.setPte va pte).HasMid b ↔ pt.HasMid b := by
  unfold setPte
  cases hleaf : pt.leafTable va with
  | none => rfl
  | some leaf => exact hasMid_setLeaf_iff pt va _ b

/-- The tables of `pt'` are those of `pt` and those that `va` needs. -/
structure AddsTables (pt pt' : PageTable) (va : ℕ) : Prop where
  mid : ∀ b, pt'.HasMid b ↔ pt.HasMid b ∨ px 2 b = px 2 va
  leaf : ∀ b, pt'.HasTable b ↔ pt.HasTable b ∨ (px 2 b = px 2 va ∧ px 1 b = px 1 va)

end PageTable

open PageTable

theorem walkMid_spends (pt : PageTable) (va : ℕ) (m : PagePool) :
    ∃ ok pt' m', walkMid pt va m = (ok, pt', m') ∧ Spends (if pt.HasMid va then 0 else 1) m ok m'
      ∧ (∀ b, pt'.leafTable b = pt.leafTable b)
      ∧ (ok = true → ∀ b, pt'.HasMid b ↔ pt.HasMid b ∨ px 2 b = px 2 va) := by
  unfold walkMid
  cases hmid : pt.entry (px 2 va) with
  | some mid =>
    have hhas : pt.HasMid va := by simp [HasMid, hmid]
    refine ⟨true, pt, m, rfl, by rw [if_pos hhas]; exact Spends.zero m, fun _ => rfl,
      fun _ b => ⟨Or.inl, ?_⟩⟩
    rintro (h | h)
    · exact h
    · unfold HasMid at *
      rw [h]
      exact hhas
  | none =>
    have hno : ¬ pt.HasMid va := by simp [HasMid, hmid]
    rw [if_neg hno]
    simp only
    cases hk : kalloc m with
    | mk r m' =>
      have hspend := kalloc_spends hk
      cases r with
      | none => exact ⟨false, pt, m', rfl, hspend, fun _ => rfl, fun h => by cases h⟩
      | some page =>
        refine ⟨true, _, m', rfl, hspend, leafTable_setMid hmid page, fun _ b => ?_⟩
        unfold HasMid setMid
        by_cases hb : px 2 b = px 2 va
        · simp [hb]
        · simp [hb]

theorem walkLeaf_spends {va : ℕ} (m : PagePool) (hmid : pt.HasMid va) :
    ∃ ok pt' m', walkLeaf pt va m = (ok, pt', m') ∧ Spends (if pt.HasTable va then 0 else 1) m ok m'
      ∧ (ok = true → (∀ b, pt'.HasMid b ↔ pt.HasMid b)
        ∧ ∀ b, pt'.HasTable b ↔ pt.HasTable b ∨ (px 2 b = px 2 va ∧ px 1 b = px 1 va)) := by
  unfold walkLeaf
  cases hleaf : pt.leafTable va with
  | some leaf =>
    have hhas : pt.HasTable va := by simp [HasTable, hleaf]
    refine ⟨true, pt, m, rfl, by rw [if_pos hhas]; exact Spends.zero m, fun _ => ⟨fun _ => Iff.rfl,
      fun b => ⟨Or.inl, ?_⟩⟩⟩
    rintro (h | ⟨h2, h1⟩)
    · exact h
    · exact pt.hasTable_congr h2.symm h1.symm hhas
  | none =>
    have hno : ¬ pt.HasTable va := by simp [HasTable, hleaf]
    obtain ⟨mid, hmid⟩ := Option.isSome_iff_exists.mp hmid
    rw [if_neg hno]
    simp only
    cases hk : kalloc m with
    | mk r m' =>
      have hspend := kalloc_spends hk
      cases r with
      | none => exact ⟨false, pt, m', rfl, hspend, fun h => by cases h⟩
      | some page =>
        refine ⟨true, _, m', rfl, hspend, fun _ => ⟨hasMid_setLeaf_iff pt va _, fun b => ?_⟩⟩
        unfold HasTable
        rw [leafTable_setLeaf hmid]
        by_cases hb : px 2 b = px 2 va ∧ px 1 b = px 1 va
        · simp [hb]
        · simp [hb]

theorem mapPage_spends {pt' : PageTable} {va pa : ℕ} {perm : Perm}
    (h : mapPage pt m va pa perm = .ok (ok, pt', m')) :
    Spends (pt.missing va) m ok m' ∧ (ok = true → AddsTables pt pt' va) := by
  unfold mapPage at h
  obtain ⟨⟨ok₁, pt₁, m₁⟩, hwalk, h⟩ := bind_eq_ok_iff.mp h
  unfold walkAlloc at hwalk
  split_ifs at hwalk with hva
  obtain ⟨ok₂, pt₂, m₂, hrun₂, hspend₂, hleaf₂, hmid₂⟩ := walkMid_spends pt va m
  rw [hrun₂] at hwalk
  have hhas : ∀ b, pt₂.HasTable b ↔ pt.HasTable b := fun b => by
    unfold HasTable
    rw [hleaf₂ b]
  cases ok₂ with
  | false =>
    -- no page for the table of level 1
    obtain ⟨rfl, rfl, rfl⟩ : false = ok₁ ∧ pt₂ = pt₁ ∧ m₂ = m₁ := by
      simpa using Except.ok.inj hwalk
    simp only [if_true] at h
    obtain ⟨rfl, rfl, rfl⟩ : false = ok ∧ pt₂ = pt' ∧ m₂ = m' := by simpa using Except.ok.inj h
    exact ⟨hspend₂.fail _ _, fun hc => by cases hc⟩
  | true =>
    have hmid : pt₂.HasMid va := (hmid₂ rfl va).mpr (Or.inr rfl)
    obtain ⟨ok₃, pt₃, m₃, hrun₃, hspend₃, htab₃⟩ := walkLeaf_spends m₂ hmid
    obtain ⟨rfl, rfl, rfl⟩ : ok₃ = ok₁ ∧ pt₃ = pt₁ ∧ m₃ = m₁ := by
      simpa [hrun₃] using hwalk
    have hspend : Spends (pt.missing va) m ok₃ m₃ := by
      unfold PageTable.missing
      rw [if_congr (hhas va) rfl rfl] at hspend₃
      exact hspend₂.trans hspend₃
    cases ok₃ with
    | false =>
      simp only [if_true] at h
      obtain ⟨rfl, rfl, rfl⟩ : false = ok ∧ pt₃ = pt' ∧ m₃ = m' := by simpa using Except.ok.inj h
      exact ⟨hspend, fun hc => by cases hc⟩
    | true =>
      simp only [Bool.true_eq_false, if_false] at h
      split_ifs at h with hmap
      obtain ⟨rfl, rfl, rfl⟩ : true = ok ∧ pt₃.setPte va (some ⟨pa, perm⟩) = pt' ∧ m₃ = m' := by
        simpa using Except.ok.inj h
      refine ⟨hspend, fun _ => ⟨fun b => ?_, fun b => ?_⟩⟩
      · rw [hasMid_setPte_iff, (htab₃ rfl).1 b, hmid₂ rfl b]
      · rw [hasTable_setPte_iff, (htab₃ rfl).2 b, hhas b]

/-! ## Address spaces -/

/-- A table of level 1 for the copy of page `i`: none if the two top pages or a page before `i`
have needed it already. -/
def midPages (i : ℕ) : ℕ :=
  if px 2 (i * pgSize) = px 2 trapframeVa ∨ ∃ j < i, px 2 (i * pgSize) = px 2 (j * pgSize) then 0
  else 1

/-- A table of level 0 for the copy of page `i`. -/
def leafPages (i : ℕ) : ℕ :=
  if (px 2 (i * pgSize) = px 2 trapframeVa ∧ px 1 (i * pgSize) = px 1 trapframeVa)
      ∨ ∃ j < i, px 2 (i * pgSize) = px 2 (j * pgSize) ∧ px 1 (i * pgSize) = px 1 (j * pgSize) then 0
  else 1

/-- What `uvmcopy` takes for the `n` pages from page `i` on. -/
def copyPages (i n : ℕ) : ℕ := ∑ j ∈ Finset.range n, (1 + (midPages (i + j) + leafPages (i + j)))

/-- What `fork` and `clone` take for a process with `n` pages of memory: the trapframe, the
page table with the two tables for the top pages, and the copy. -/
def forkPages (n : ℕ) : ℕ := 1 + (3 + copyPages 0 n)

/-- The tables for the two top pages and the user pages below `i`. -/
structure TablesTo (pt : PageTable) (i : ℕ) : Prop where
  mid : ∀ b, pt.HasMid b ↔ px 2 b = px 2 trapframeVa ∨ ∃ j < i, px 2 b = px 2 (j * pgSize)
  leaf : ∀ b, pt.HasTable b ↔ (px 2 b = px 2 trapframeVa ∧ px 1 b = px 1 trapframeVa)
    ∨ ∃ j < i, px 2 b = px 2 (j * pgSize) ∧ px 1 b = px 1 (j * pgSize)

theorem TablesTo.missing (h : TablesTo pt i) :
    pt.missing (i * pgSize) = midPages i + leafPages i := by
  unfold PageTable.missing midPages leafPages
  rw [if_congr (h.mid _) rfl rfl, if_congr (h.leaf _) rfl rfl]

theorem exists_lt_succ_iff {P : ℕ → Prop} : (∃ j < i + 1, P j) ↔ (∃ j < i, P j) ∨ P i := by
  constructor
  · rintro ⟨j, hj, hP⟩
    rcases Nat.lt_succ_iff_lt_or_eq.mp hj with hlt | rfl
    · exact Or.inl ⟨j, hlt, hP⟩
    · exact Or.inr hP
  · rintro (⟨j, hj, hP⟩ | hP)
    · exact ⟨j, Nat.lt_succ_of_lt hj, hP⟩
    · exact ⟨i, Nat.lt_succ_self i, hP⟩

theorem TablesTo.succ {pt' : PageTable} (h : TablesTo pt i)
    (hadd : AddsTables pt pt' (i * pgSize)) : TablesTo pt' (i + 1) := by
  constructor
  · intro b
    rw [hadd.mid b, h.mid b, exists_lt_succ_iff, or_assoc]
  · intro b
    rw [hadd.leaf b, h.leaf b, exists_lt_succ_iff, or_assoc]

theorem copyPages_succ (i n : ℕ) :
    copyPages i (n + 1) = 1 + ((midPages i + leafPages i) + copyPages (i + 1) n) := by
  have hsplit : ∀ f : ℕ → ℕ, ∑ j ∈ Finset.range (n + 1), f (i + j)
      = f i + ∑ j ∈ Finset.range n, f (i + 1 + j) := by
    intro f
    rw [Finset.sum_range_succ', Nat.add_zero, Nat.add_comm]
    simp only [Nat.add_assoc, Nat.add_comm 1]
  exact (hsplit fun j => 1 + (midPages j + leafPages j)).trans (Nat.add_assoc _ _ _)

/-- `uvmcopy` succeeds exactly when it gets the pages for its copy. -/
theorem uvmcopyFrom_spends {old : PageTable} (n : ℕ) {new new' : PageTable} (htab : TablesTo new i)
    (h : uvmcopyFrom old n i new m = .ok (ok, new', m')) :
    ok = (takePages (copyPages i n) m).isSome := by
  induction n generalizing i new m with
  | zero =>
    obtain ⟨rfl, -, -⟩ : true = ok ∧ new = new' ∧ m = m' := by simpa [uvmcopyFrom] using h
    rfl
  | succ n ih =>
    rw [copyPages_succ]
    unfold uvmcopyFrom at h
    obtain ⟨pte?, -, h⟩ := bind_eq_ok_iff.mp h
    rcases pte? with _ | _ | pte
    · cases h
    · cases h
    · simp only at h
      cases hk : kalloc m with
      | mk r m₁ =>
        rw [hk] at h
        have hspend := kalloc_spends hk
        cases r with
        | none =>
          obtain ⟨⟨new₁, m₂⟩, -, h⟩ := bind_eq_ok_iff.mp h
          obtain ⟨rfl, -, -⟩ : false = ok ∧ new₁ = new' ∧ m₂ = m' := by
            simpa using Except.ok.inj h
          exact (hspend.fail _ m₁).eq_isSome
        | some mem =>
          obtain ⟨⟨ok₁, new₁, m₂⟩, hmap, h⟩ := bind_eq_ok_iff.mp h
          rw [mappages_page _ _ (Nat.mul_mod_left i pgSize)] at hmap
          obtain ⟨hspend₁, hadd⟩ := mapPage_spends hmap
          rw [htab.missing] at hspend₁
          cases ok₁ with
          | false =>
            obtain ⟨m₃, -, h⟩ := bind_eq_ok_iff.mp h
            obtain ⟨⟨new₂, m₄⟩, -, h⟩ := bind_eq_ok_iff.mp h
            obtain ⟨rfl, -, -⟩ : false = ok ∧ new₂ = new' ∧ m₄ = m' := by
              simpa using Except.ok.inj h
            exact (hspend.trans (hspend₁.fail _ m₁)).eq_isSome
          | true =>
            have hcopy := ih (htab.succ (hadd rfl)) h
            -- the first page and its tables come out of the pool before the rest
            have hfirst := hspend.trans hspend₁
            rw [← Nat.add_assoc, takePages_add, hfirst]
            exact hcopy

theorem tablesTo_zero {page : ℕ} {pt₁ pt₂ : PageTable}
    (h₁ : AddsTables (PageTable.zero page) pt₁ trampolineVa)
    (h₂ : AddsTables pt₁ pt₂ trapframeVa) : TablesTo pt₂ 0 := by
  have hpx : px 2 trampolineVa = px 2 trapframeVa ∧ px 1 trampolineVa = px 1 trapframeVa := by decide
  constructor
  · intro b
    rw [h₂.mid b, h₁.mid b, hpx.1]
    simp [HasMid, PageTable.zero]
  · intro b
    rw [h₂.leaf b, h₁.leaf b, hpx.1, hpx.2]
    simp [HasTable, leafTable, PageTable.zero]

/-- `proc_pagetable` takes three pages. -/
theorem procPagetable_spends {trampoline trapframe : ℕ} {r : Option PageTable}
    (h : procPagetable trampoline trapframe m = .ok (r, m')) :
    Spends 3 m r.isSome m' ∧ ∀ pt, r = some pt → TablesTo pt 0 := by
  unfold procPagetable uvmcreate at h
  cases hk : kalloc m with
  | mk page m₁ =>
    have hspend := kalloc_spends hk
    rw [hk] at h
    cases page with
    | none =>
      obtain ⟨rfl, rfl⟩ : none = r ∧ m₁ = m' := by simpa using Except.ok.inj h
      exact ⟨hspend.fail 2 m₁, fun _ hc => by cases hc⟩
    | some page =>
      obtain ⟨⟨ok₁, pt₁, m₂⟩, hmap₁, h⟩ := bind_eq_ok_iff.mp h
      rw [mappages_page _ _ (by decide)] at hmap₁
      obtain ⟨hspend₁, hadd₁⟩ := mapPage_spends hmap₁
      have hmissing : (PageTable.zero page).missing trampolineVa = 2 := rfl
      rw [hmissing] at hspend₁
      cases ok₁ with
      | false =>
        obtain ⟨m₃, -, h⟩ := bind_eq_ok_iff.mp h
        obtain ⟨rfl, rfl⟩ : none = r ∧ m₃ = m' := by simpa using Except.ok.inj h
        exact ⟨(hspend.trans hspend₁).fail 0 m₃, fun _ hc => by cases hc⟩
      | true =>
        obtain ⟨⟨ok₂, pt₂, m₃⟩, hmap₂, h⟩ := bind_eq_ok_iff.mp h
        rw [mappages_page _ _ (by decide)] at hmap₂
        obtain ⟨hspend₂, hadd₂⟩ := mapPage_spends hmap₂
        -- the tables for the trampoline are those of the trapframe too
        have hmissing₂ : pt₁.missing trapframeVa = 0 := by
          unfold PageTable.missing
          rw [if_pos (((hadd₁ rfl).mid _).mpr (Or.inr (by decide))),
            if_pos (((hadd₁ rfl).leaf _).mpr (Or.inr (by decide)))]
        rw [hmissing₂] at hspend₂
        cases ok₂ with
        | false => cases hspend₂
        | true =>
          obtain ⟨rfl, rfl⟩ : some pt₂ = r ∧ m₃ = m' := by simpa using Except.ok.inj h
          refine ⟨(hspend.trans hspend₁).trans hspend₂, fun pt hpt => ?_⟩
          cases hpt
          exact tablesTo_zero (hadd₁ rfl) (hadd₂ rfl)

/-! ## `fork` and `clone` -/

/-- `allocproc` takes four pages for a slot, and changes no size. -/
theorem allocprocFound_spends {s t : Kernel} (h : allocprocFound s i = .ok (r, t)) :
    Spends 4 s.mem r.isSome t.mem ∧ ∀ np, r = some np →
      (∃ pt, (t.proc np).pagetable = some pt ∧ TablesTo pt 0)
      ∧ ∀ q, (t.proc q).sz = (s.proc q).sz := by
  unfold allocprocFound allocpid at h
  simp only [Kernel.updProc] at h
  cases hk : kalloc s.mem with
  | mk tf m₁ =>
    have hspend := kalloc_spends hk
    rw [hk] at h
    cases tf with
    | none =>
      obtain ⟨u, -, h⟩ := bind_eq_ok_iff.mp h
      obtain ⟨rfl, rfl⟩ : none = r ∧ u = t := by simpa using Except.ok.inj h
      exact ⟨hspend.fail 3 _, fun _ hc => by cases hc⟩
    | some tf =>
      obtain ⟨⟨pt, m₂⟩, hpt, h⟩ := bind_eq_ok_iff.mp h
      obtain ⟨hspend₁, htab⟩ := procPagetable_spends hpt
      cases pt with
      | none =>
        obtain ⟨u, -, h⟩ := bind_eq_ok_iff.mp h
        obtain ⟨rfl, rfl⟩ : none = r ∧ u = t := by simpa using Except.ok.inj h
        exact ⟨(hspend.trans hspend₁).fail 0 _, fun _ hc => by cases hc⟩
      | some pt =>
        obtain ⟨rfl, ht⟩ := Prod.mk.inj (Except.ok.inj h)
        subst ht
        refine ⟨hspend.trans hspend₁, fun np hnp => ?_⟩
        cases hnp
        refine ⟨⟨pt, by simp, htab pt rfl⟩, fun q => ?_⟩
        by_cases hq : q = i
        · subst hq
          simp
        · simp [Function.update_of_ne hq]

/-- **`fork` and `clone` get their child** exactly when the allocator serves all the pages
they ask for, if there is a slot. -/
theorem forkCopy_isSome {s t : Kernel} {p : ℕ} (hslot : ∃ i < nproc, (s.proc i).state = .unused)
    (h : forkCopy s p = .ok (r, t)) :
    r.isSome = (takePages (forkPages (pageCount (s.proc p).sz)) s.mem).isSome := by
  have hpages : ∀ n, forkPages n = 4 + copyPages 0 n := fun n => (Nat.add_assoc 1 3 _).symm
  rw [hpages]
  unfold forkCopy at h
  obtain ⟨⟨np, u⟩, halloc, h⟩ := bind_eq_ok_iff.mp h
  rcases allocproc_cases s with ⟨-, hfull⟩ | ⟨i, -, -, hfound⟩
  · obtain ⟨i, hi, hunused⟩ := hslot
    exact absurd hunused (hfull i hi)
  · rw [hfound] at halloc
    obtain ⟨hspend, hnew⟩ := allocprocFound_spends halloc
    cases np with
    | none =>
      obtain ⟨rfl, -⟩ : none = r ∧ u = t := by simpa using Except.ok.inj h
      exact (hspend.fail _ u.mem).eq_isSome
    | some np =>
      obtain ⟨⟨new, hnewpt, htab⟩, hsz⟩ := hnew np rfl
      obtain ⟨old, -, h⟩ := bind_eq_ok_iff.mp h
      obtain ⟨new', hnew', h⟩ := bind_eq_ok_iff.mp h
      obtain rfl : new = new' := by simpa [hnewpt] using hnew'
      obtain ⟨⟨ok, new₁, m₁⟩, hcopy, h⟩ := bind_eq_ok_iff.mp h
      rw [hsz p] at hcopy
      have hok := uvmcopyFrom_spends _ htab hcopy
      rw [takePages_add, hspend]
      refine Eq.trans ?_ hok
      cases ok with
      | false =>
        obtain ⟨v, -, h⟩ := bind_eq_ok_iff.mp h
        obtain ⟨rfl, -⟩ : none = r ∧ v = t := by simpa using Except.ok.inj h
        rfl
      | true =>
        obtain ⟨v, -, h⟩ := bind_eq_ok_iff.mp h
        obtain ⟨rfl, -⟩ : some np = r ∧ v = t := by simpa using Except.ok.inj h
        rfl

end Xv6
