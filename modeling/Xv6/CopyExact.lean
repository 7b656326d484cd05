/-
# What `copyout` and `copyin` copy (`kernel/vm.c`)

Both loops cut the request at the same page boundaries and succeed exactly if the user may access
every page of it (`copyout_copyin_agree`).  Neither looks at the permission to write, so `copyout`
writes to pages that are mapped without `PTE_W`: it respects them exactly if every page that it
reaches has the bit (`copyout_writable_iff`).
-/
import Xv6.UserMem

namespace Xv6.UserMem

open Window
open Sv39 (Word pgRoundDown)

variable {pte : Pte} {a n p va : ℕ}

variable {pt : PageTable} {ram : Ram} {src : ℕ → UInt8} {fuel : ℕ} {dstva srcva off len : Word}

/-! ## User memory -/

/-- The leaf of `va` is one that the user may access. -/
def UserLeaf (pt : PageTable) (va : ℕ) (pte : Pte) : Prop :=
  va < maxVa ∧ pt.lookup va = some pte ∧ pte.perm.u = true

/-- The page of `va` lies below `MAXVA` and is mapped with `PTE_V` and `PTE_U`. -/
def Accessible (pt : PageTable) (va : ℕ) : Prop := ∃ pte, UserLeaf pt va pte

/-- No user leaf maps the page at address `0`, which `walkaddr` returns for a missing page. -/
def NonZero (pt : PageTable) : Prop := ∀ va pte, UserLeaf pt va pte → pte.pa ≠ 0

/-- The user leaves map distinct pages other than `0` and the pages of the table itself. -/
structure UserPages (pt : PageTable) : Prop where
  aligned : ∀ va pte, UserLeaf pt va pte → pte.pa % pgSize = 0
  nonzero : NonZero pt
  distinct : ∀ va va' pte pte', UserLeaf pt va pte → UserLeaf pt va' pte' → pte.pa = pte'.pa →
    va / pgSize = va' / pgSize
  apart : ∀ va pte, UserLeaf pt va pte → pte.pa ∉ pt.tablePages

/-- The page `p` overlaps `[va, va + len)`. -/
def Overlaps (p va len : ℕ) : Prop := ∃ a, va ≤ a ∧ a < va + len ∧ a / pgSize = p

/-- The user may access every page that overlaps `[va, va + len)`. -/
def Covered (pt : PageTable) (va len : ℕ) : Prop :=
  ∀ p, Overlaps p va len → Accessible pt (p * pgSize)

/-- The byte that the user sees at `va`. -/
def userByte (pt : PageTable) (ram : Ram) (va : ℕ) : Option UInt8 := (translate pt va).map ram

theorem walkaddr_of_leaf (h : UserLeaf pt va pte) : walkaddr pt va = pte.pa := by
  obtain ⟨hlt, hlook, hu⟩ := h
  unfold walkaddr
  rw [if_neg (Nat.not_le.mpr hlt), hlook]
  exact if_pos hu

theorem exists_leaf (h : walkaddr pt va ≠ 0) : Accessible pt va := by
  have hlt := walkaddr_lt h
  unfold walkaddr at h
  rw [if_neg (Nat.not_le.mpr hlt)] at h
  cases hlook : pt.lookup va with
  | none => simp [hlook] at h
  | some pte =>
    refine ⟨pte, hlt, hlook, ?_⟩
    by_contra hu
    simp [hlook, hu] at h

theorem NonZero.walkaddr_ne_zero (h : NonZero pt) : walkaddr pt va ≠ 0 ↔ Accessible pt va := by
  constructor
  · exact exists_leaf
  · rintro ⟨pte, hleaf⟩
    rw [walkaddr_of_leaf hleaf]
    exact h va pte hleaf

theorem translate_ne_none : translate pt va ≠ none ↔ walkaddr pt va ≠ 0 :=
  not_congr translate_eq_none

/-- A place of a user byte is in the page of a leaf. -/
theorem exists_leaf_of_translate (h : translate pt va = some a) :
    ∃ pte, UserLeaf pt va pte ∧ a = pte.pa + va % pgSize := by
  have hne : walkaddr pt va ≠ 0 := by
    intro hzero
    rw [translate_eq_none.mpr hzero] at h
    exact absurd h (by simp)
  obtain ⟨pte, hleaf⟩ := exists_leaf hne
  refine ⟨pte, hleaf, ?_⟩
  unfold translate at h
  rw [if_neg hne, walkaddr_of_leaf hleaf] at h
  exact (Option.some.inj h).symm

/-- The request is covered if the user may access each of its bytes. -/
theorem NonZero.covered_iff (h : NonZero pt) (va n : ℕ) :
    Covered pt va n ↔ ∀ i, i < n → translate pt (va + i) ≠ none := by
  have hpage : ∀ a, walkaddr pt (a / pgSize * pgSize) = walkaddr pt a := by
    intro a
    apply walkaddr_page
    rw [mul_pgSize_div]
  constructor
  · intro hcov i hi
    rw [translate_ne_none, ← hpage, h.walkaddr_ne_zero]
    exact hcov _ ⟨va + i, by omega, by omega, rfl⟩
  · rintro hall p ⟨a, hle, hlt, rfl⟩
    rw [← h.walkaddr_ne_zero, hpage, ← translate_ne_none]
    obtain ⟨i, rfl⟩ := Nat.exists_eq_add_of_le hle
    exact hall i (by omega)

theorem UserPages.translate_inj (h : UserPages pt) {va' : ℕ} (ha : translate pt va = some a)
    (ha' : translate pt va' = some a) : va = va' := by
  obtain ⟨pte, hleaf, rfl⟩ := exists_leaf_of_translate ha
  obtain ⟨pte', hleaf', heq⟩ := exists_leaf_of_translate ha'
  have hal := h.aligned va pte hleaf
  have hal' := h.aligned va' pte' hleaf'
  have hpa : pte.pa = pte'.pa := by
    unfold pgSize at *
    omega
  have hdiv := h.distinct va va' pte pte' hleaf hleaf' hpa
  unfold pgSize at *
  omega

/-- No user byte is in a page of the table. -/
theorem UserPages.translate_table (h : UserPages pt) (ha : translate pt va = some a) :
    a / pgSize * pgSize ∉ pt.tablePages := by
  obtain ⟨pte, hleaf, rfl⟩ := exists_leaf_of_translate ha
  have hal := h.aligned va pte hleaf
  have hbase : (pte.pa + va % pgSize) / pgSize * pgSize = pte.pa := by
    unfold pgSize at *
    omega
  rw [hbase]
  exact h.apart va pte hleaf

/-! ## `copyout` -/

/-- `p` is the address of a page of `[va, va + n)`, and the user may access all bytes up to it. -/
def Reached (pt : PageTable) (va n p : ℕ) : Prop :=
  ∃ i, i < n ∧ (∀ j, j ≤ i → walkaddr pt (va + j) ≠ 0) ∧ p = (va + i) / pgSize * pgSize

theorem Reached.lt_maxVa (h : Reached pt va n p) : p < maxVa := by
  obtain ⟨i, -, hall, rfl⟩ := h
  have hlt := walkaddr_lt (hall i (le_refl i))
  exact lt_of_le_of_lt (Nat.div_mul_le_self _ _) hlt

theorem not_reached (hpa : walkaddr pt (va / pgSize * pgSize) = 0) : ¬ Reached pt va n p := by
  rintro ⟨i, -, hall, -⟩
  apply hall 0 (Nat.zero_le i)
  rw [Nat.add_zero, ← hpa]
  exact walkaddr_page pt (mul_pgSize_div _).symm

/-- The first chunk, and the rest of the request. -/
theorem reached_page {k next : ℕ} (hk : k = min (pgSize - (va - va / pgSize * pgSize)) n)
    (hn : n ≠ 0) (hpa : walkaddr pt (va / pgSize * pgSize) ≠ 0) (hnext : n ≠ k → next = va + k) :
    Reached pt va n p ↔ p = va / pgSize * pgSize ∨ Reached pt next (n - k) p := by
  have hpage : ∀ i, i < k → (va + i) / pgSize = va / pgSize := by
    intro i hi
    unfold pgSize at *
    omega
  have hfirst : ∀ i, i < k → walkaddr pt (va + i) ≠ 0 := by
    intro i hi
    rw [walkaddr_page pt ((hpage i hi).trans (mul_pgSize_div _).symm)]
    exact hpa
  constructor
  · rintro ⟨i, hi, hall, rfl⟩
    by_cases hik : i < k
    · exact Or.inl (by rw [hpage i hik])
    · right
      have hva := hnext (by omega)
      refine ⟨i - k, by omega, fun j hj => ?_, ?_⟩
      · rw [hva, Nat.add_assoc]
        exact hall (k + j) (by omega)
      · rw [hva, Nat.add_assoc, Nat.add_sub_cancel' (Nat.le_of_not_lt hik)]
  · rintro (rfl | ⟨i, hi, hall, rfl⟩)
    · have hpos : 0 < k := by
        unfold pgSize at *
        omega
      refine ⟨0, by omega, fun j hj => hfirst j (by omega), rfl⟩
    · have hva := hnext (by omega)
      subst hva
      refine ⟨k + i, by omega, fun j hj => ?_, by rw [Nat.add_assoc]⟩
      by_cases hjk : j < k
      · exact hfirst j hjk
      · have := hall (j - k) (by omega)
        rwa [Nat.add_assoc, Nat.add_sub_cancel' (Nat.le_of_not_lt hjk)] at this

theorem copyoutFrom_done (ram : Ram) (pages : List Word) (hlen : len.toNat = 0) :
    copyoutFrom pt src (fuel + 1) ram pages dstva off len = .ok ⟨true, ram, pages⟩ := by
  unfold copyoutFrom
  exact if_neg fun h => toNat_pos.mp h hlen

theorem copyoutFrom_stop (ram : Ram) (pages : List Word) (hlen : len.toNat ≠ 0)
    (hpa : walkaddr pt (dstva.toNat / pgSize * pgSize) = 0) :
    copyoutFrom pt src (fuel + 1) ram pages dstva off len = .ok ⟨false, ram, pages⟩ := by
  unfold copyoutFrom
  rw [if_pos (toNat_pos.mpr hlen)]
  dsimp only
  rw [toNat_page, if_pos hpa]

theorem copyoutFrom_page (ram : Ram) (pages : List Word) (hlen : len.toNat ≠ 0)
    (hpa : walkaddr pt (dstva.toNat / pgSize * pgSize) ≠ 0) :
    copyoutFrom pt src (fuel + 1) ram pages dstva off len =
      copyoutFrom pt src fuel
        (memmove ram (walkaddr pt (dstva.toNat / pgSize * pgSize)
            + (dstva.toNat - dstva.toNat / pgSize * pgSize))
          (fun i => src (off.toNat + i)) (chunk dstva len).toNat)
        (pages ++ [pgRoundDown dstva]) (pgRoundDown dstva + 4096) (off + chunk dstva len)
        (len - chunk dstva len) := by
  rw [copyoutFrom, if_pos (toNat_pos.mpr hlen)]
  dsimp only
  rw [toNat_page, if_neg hpa, toNat_offset]

theorem chunk_le (va len : Word) : (chunk va len).toNat ≤ len.toNat := by
  rw [toNat_chunk]
  exact Nat.min_le_right _ _

/-- **The addresses of `copyout` do not wrap**: it is the loop on plain numbers. -/
theorem copyoutFrom_eq (fuel' : ℕ) (ram : Ram) (pages : List Word) (hfuel : Enough fuel dstva)
    (hlen : len.toNat ≤ fuel') (hoff : off.toNat + len.toNat < 2 ^ 64) :
    ∃ c, copyoutFrom pt src fuel ram pages dstva off len = .ok c
      ∧ (c.ok, c.ram)
        = copyoutBytesFrom (fun _ => src) pt fuel' ram dstva.toNat off.toNat len.toNat := by
  induction fuel generalizing fuel' ram pages dstva off len with
  | zero => exact absurd hfuel.1 (Nat.lt_irrefl 0)
  | succ fuel ih =>
    by_cases hzero : len.toNat = 0
    · rw [copyoutFrom_done ram pages hzero, hzero]
      refine ⟨_, rfl, ?_⟩
      cases fuel' <;> rfl
    · obtain ⟨fuel', rfl⟩ : ∃ f, fuel' = f + 1 := ⟨fuel' - 1, by omega⟩
      by_cases hpa : walkaddr pt (dstva.toNat / pgSize * pgSize) = 0
      · rw [copyoutFrom_stop ram pages hzero hpa, copyoutBytesFrom_stop _ ram _ hzero hpa]
        exact ⟨_, rfl, rfl⟩
      · have hva := walkaddr_page_lt hpa
        have hle := chunk_le dstva len
        have hpos : 0 < (chunk dstva len).toNat := by
          rw [toNat_chunk]
          unfold pgSize
          omega
        have hadd : (off + chunk dstva len).toNat = off.toNat + (chunk dstva len).toNat := by
          rw [BitVec.toNat_add, Nat.mod_eq_of_lt (by omega)]
        rw [copyoutFrom_page ram pages hzero hpa, copyoutBytesFrom_page _ ram _ hzero hpa,
          ← toNat_chunk, ← toNat_next hva, ← hadd, ← toNat_rest]
        apply ih
        · exact hfuel.next hva
        · rw [toNat_rest]
          omega
        · rw [toNat_rest, hadd]
          omega

/-- `copyout` writes through the pages that it reaches. -/
theorem copyoutFrom_pages (ram : Ram) (pages : List Word) {c : Copied}
    (hrun : copyoutFrom pt src fuel ram pages dstva off len = .ok c) (w : Word) :
    w ∈ c.pages ↔ w ∈ pages ∨ Reached pt dstva.toNat len.toNat w.toNat := by
  induction fuel generalizing ram pages dstva off len with
  | zero => simp [copyoutFrom] at hrun
  | succ fuel ih =>
    by_cases hzero : len.toNat = 0
    · rw [copyoutFrom_done ram pages hzero] at hrun
      cases hrun
      simp [Reached, hzero]
    · by_cases hpa : walkaddr pt (dstva.toNat / pgSize * pgSize) = 0
      · rw [copyoutFrom_stop ram pages hzero hpa] at hrun
        cases hrun
        exact (or_iff_left (not_reached hpa)).symm
      · rw [copyoutFrom_page ram pages hzero hpa] at hrun
        have hstep := reached_page (p := w.toNat) (toNat_chunk dstva len) hzero hpa
          (next_eq (walkaddr_page_lt hpa))
        have hw : w = pgRoundDown dstva ↔ w.toNat = dstva.toNat / pgSize * pgSize := by
          rw [← BitVec.toNat_inj, toNat_page]
        rw [ih _ _ hrun, List.mem_append, List.mem_singleton, or_assoc, hstep, toNat_rest, hw]

theorem copyout_eq (pt : PageTable) (ram : Ram) (dstva : Word) (src : ℕ → UInt8) (len : Word) :
    ∃ c, copyout pt ram dstva src len = .ok c
      ∧ (c.ok, c.ram) = copyoutBytes pt ram dstva.toNat (fun _ => src) len.toNat :=
  copyoutFrom_eq len.toNat ram [] (enough_turns dstva) (le_refl _) (by simpa using len.isLt)

/-- **`copyout`** copies byte after byte until all are copied or the user may not access the next
one. -/
theorem copyout_spec (ram : Ram) (src : ℕ → UInt8)
    (honce : PlacedOnce pt dstva.toNat (dstva.toNat + len.toNat)) :
    ∃ c r, copyout pt ram dstva src len = .ok c ∧ r ≤ len.toNat
      ∧ Filled (fun i => translate pt (dstva.toNat + i)) ram c.ram src r
      ∧ (r < len.toNat → translate pt (dstva.toNat + r) = none)
      ∧ (c.ok = true ↔ ∀ i, i < len.toNat → translate pt (dstva.toNat + i) ≠ none) := by
  obtain ⟨c, hrun, heq⟩ := copyout_eq pt ram dstva src len
  have hkept : SourceKept (fun _ => src) len.toNat pt dstva.toNat (dstva.toNat + len.toNat) :=
    fun _ _ _ _ _ => rfl
  obtain ⟨r, hr, hfill, hstop⟩ := copyoutBytes_spec hkept honce ram (le_refl _) (le_refl _)
  rw [← heq] at hfill
  refine ⟨c, r, hrun, hr, hfill, hstop, ?_⟩
  rw [← copyout_iff, ← copyoutBytes_fst pt ram _ (fun _ => src), ← heq]

/-! ## `copyin` -/

/-- The bytes that the user sees from `va` on. -/
def userBytes (pt : PageTable) (ram : Ram) (va i : ℕ) : UInt8 := (userByte pt ram (va + i)).getD 0

/-- The kernel's buffer `[dst, dst + n)` is not a part of the user's memory. -/
def Private (pt : PageTable) (dst n : ℕ) : Prop :=
  ∀ i, i < n → ∀ va, translate pt va ≠ some (dst + i)

/-- Writing the buffer does not change what the user sees. -/
theorem Private.userByte_eq {dst r : ℕ} (h : Private pt dst n) (hr : r ≤ n) {ram' : Ram}
    {f : ℕ → UInt8} (hfill : Filled (fun i => some (dst + i)) ram ram' f r) (va : ℕ) :
    userByte pt ram' va = userByte pt ram va := by
  unfold userByte
  cases hplace : translate pt va with
  | none => rfl
  | some a =>
    rw [Option.map_some, Option.map_some]
    congr 1
    apply hfill.miss
    intro i hi heq
    exact h i (by omega) va (hplace.trans heq.symm)

theorem copyinFrom_done (ram : Ram) (dst : ℕ) (hlen : len.toNat = 0) :
    copyinFrom pt (fuel + 1) ram dst srcva len = .ok (true, ram) := by
  unfold copyinFrom
  exact if_neg fun h => toNat_pos.mp h hlen

theorem copyinFrom_stop (ram : Ram) (dst : ℕ) (hlen : len.toNat ≠ 0)
    (hpa : walkaddr pt (srcva.toNat / pgSize * pgSize) = 0) :
    copyinFrom pt (fuel + 1) ram dst srcva len = .ok (false, ram) := by
  unfold copyinFrom
  rw [if_pos (toNat_pos.mpr hlen)]
  dsimp only
  rw [toNat_page, if_pos hpa]

theorem copyinFrom_page (ram : Ram) (dst : ℕ) (hlen : len.toNat ≠ 0)
    (hpa : walkaddr pt (srcva.toNat / pgSize * pgSize) ≠ 0) :
    copyinFrom pt (fuel + 1) ram dst srcva len =
      copyinFrom pt fuel
        (memmove ram dst (fun i => ram (walkaddr pt (srcva.toNat / pgSize * pgSize)
          + (srcva.toNat - srcva.toNat / pgSize * pgSize) + i)) (chunk srcva len).toNat)
        (dst + (chunk srcva len).toNat) (pgRoundDown srcva + 4096) (len - chunk srcva len) := by
  rw [copyinFrom, if_pos (toNat_pos.mpr hlen)]
  dsimp only
  rw [toNat_page, if_neg hpa, toNat_offset]

theorem once_buffer (dst n : ℕ) : Once (fun i => some (dst + i)) n := by
  intro i j a _ _ hi hj
  have heq : dst + i = dst + j := Option.some.inj (hi.trans hj.symm)
  omega

theorem copyinFrom_spec (ram : Ram) (dst : ℕ) (hfuel : Enough fuel srcva)
    (hdst : Private pt dst len.toNat) :
    ∃ ok ram' r, copyinFrom pt fuel ram dst srcva len = .ok (ok, ram') ∧ r ≤ len.toNat
      ∧ Filled (fun i => some (dst + i)) ram ram' (userBytes pt ram srcva.toNat) r
      ∧ (ok = true ↔ r = len.toNat)
      ∧ (ok = true ↔ ∀ i, i < len.toNat → translate pt (srcva.toNat + i) ≠ none) := by
  induction fuel generalizing ram dst srcva len with
  | zero => exact absurd hfuel.1 (Nat.lt_irrefl 0)
  | succ fuel ih =>
    by_cases hzero : len.toNat = 0
    · rw [copyinFrom_done ram dst hzero, hzero]
      exact ⟨true, ram, 0, rfl, le_refl 0, Filled.zero _ _ _, by simp, by simp⟩
    · by_cases hpa : walkaddr pt (srcva.toNat / pgSize * pgSize) = 0
      · rw [copyinFrom_stop ram dst hzero hpa]
        refine ⟨false, ram, 0, rfl, Nat.zero_le _, Filled.zero _ _ _, ?_, ?_⟩
        · exact iff_of_false (by simp) (Ne.symm hzero)
        · refine iff_of_false (by simp) fun hall => hall 0 (Nat.pos_of_ne_zero hzero) ?_
          exact translate_eq_none.mpr ((walkaddr_page pt (mul_pgSize_div _).symm).trans hpa)
      · rw [copyinFrom_page ram dst hzero hpa]
        have hva := walkaddr_page_lt hpa
        have hle := chunk_le srcva len
        have hchunk := toNat_chunk srcva len
        set n := (chunk srcva len).toNat with hn
        set ram₁ := memmove ram dst (fun i => ram (walkaddr pt (srcva.toNat / pgSize * pgSize)
          + (srcva.toNat - srcva.toNat / pgSize * pgSize) + i)) n
        have hfill : Filled (fun i => some (dst + i)) ram ram₁
            (userBytes pt ram srcva.toNat) n := by
          refine (memmove_filled ram _ fun i _ => rfl).congr (fun _ _ => rfl) fun i hi => ?_
          unfold userBytes userByte
          have hroom : i < pgSize - (srcva.toNat - srcva.toNat / pgSize * pgSize) := by omega
          rw [translate_add hpa hroom]
          rfl
        have hbytes : ∀ va, userByte pt ram₁ va = userByte pt ram va := hdst.userByte_eq hle hfill
        have hnext : len.toNat ≠ n → (pgRoundDown srcva + 4096).toNat = srcva.toNat + n :=
          next_eq hva
        have hpriv : Private pt (dst + n) (len - chunk srcva len).toNat := by
          intro i hi va
          rw [toNat_rest] at hi
          rw [Nat.add_assoc]
          apply hdst
          omega
        obtain ⟨ok, ram', r, hrun, hr, hfill', hok, hiff⟩ :=
          ih ram₁ (dst + n) (hfuel.next hva) hpriv
        rw [toNat_rest, ← hn] at hr hok hiff
        refine ⟨ok, ram', n + r, hrun, by omega, ?_, by rw [hok]; omega, ?_⟩
        · refine hfill.append (hfill'.congr (fun i _ => ?_) fun i hi => ?_) (once_buffer dst _)
          · rw [Nat.add_assoc]
          · unfold userBytes
            rw [hbytes, hnext (by omega), Nat.add_assoc]
        · rw [hiff, translate_page hchunk hpa hnext]

/-- **`copyin`** copies the bytes that the user sees until all are copied or the user may not
access the next one. -/
theorem copyin_spec (srcva : Word) (ram : Ram) {dst : ℕ} (hdst : Private pt dst len.toNat) :
    ∃ ok ram' r, copyin pt ram dst srcva len = .ok (ok, ram') ∧ r ≤ len.toNat
      ∧ Filled (fun i => some (dst + i)) ram ram' (userBytes pt ram srcva.toNat) r
      ∧ (ok = true ↔ r = len.toNat)
      ∧ (ok = true ↔ ∀ i, i < len.toNat → translate pt (srcva.toNat + i) ≠ none) :=
  copyinFrom_spec ram dst (enough_turns srcva) hdst

/-! ## A page of program text -/

/-- The table of a process with one page, mapped as `exec` maps the text of a program: without
`PTE_W`. -/
def textTable : PageTable :=
  ⟨0x87000000, fun i => if i = 0 then some ⟨0x87001000, fun i => if i = 0 then
    some ⟨0x87002000, fun i => if i = 0 then some ⟨0x87003000, permUser false true⟩ else none⟩
    else none⟩ else none⟩

theorem textTable_lookup (hlt : va < maxVa) (hlook : textTable.lookup va = some pte) :
    va / pgSize = 0 ∧ pte = ⟨0x87003000, permUser false true⟩ := by
  unfold PageTable.lookup PageTable.leafTable textTable at hlook
  by_cases h2 : px 2 va = 0 <;> by_cases h1 : px 1 va = 0 <;> by_cases h0 : px 0 va = 0 <;>
    simp [h2, h1, h0] at hlook
  unfold px at h2 h1 h0
  unfold maxVa at hlt
  exact ⟨by unfold pgSize; omega, hlook.symm⟩

theorem textTable_leaf (h : UserLeaf textTable va pte) :
    va / pgSize = 0 ∧ pte = ⟨0x87003000, permUser false true⟩ :=
  textTable_lookup h.1 h.2.1

theorem textTable_tables (h : a ∈ textTable.tablePages) : a ≠ 0x87003000 := by
  rcases h with rfl | ⟨i, mid, -, hmid, hor⟩
  · decide
  · cases (Option.ite_none_right_eq_some.mp hmid).2
    rcases hor with rfl | ⟨j, leaf, -, hleaf, rfl⟩
    · decide
    · cases (Option.ite_none_right_eq_some.mp hleaf).2
      decide

theorem textTable_userPages : UserPages textTable where
  aligned := by
    intro va pte h
    rw [(textTable_leaf h).2]
    decide
  nonzero := by
    intro va pte h
    rw [(textTable_leaf h).2]
    decide
  distinct := by
    intro va va' pte pte' h h' _
    rw [(textTable_leaf h).1, (textTable_leaf h').1]
  apart := by
    intro va pte h
    rw [(textTable_leaf h).2]
    exact fun hmem => textTable_tables hmem rfl

/-- No byte of the text is at the end of the memory. -/
theorem textTable_private (n : ℕ) : Private textTable 0x88000000 n := by
  intro i _ va ha
  obtain ⟨pte, hleaf, heq⟩ := exists_leaf_of_translate ha
  rw [(textTable_leaf hleaf).2] at heq
  dsimp only at heq
  unfold pgSize at heq
  omega

/-! ## `copyout` and `copyin` agree -/

/-- The bytes of `[va, va + n)` have become `s`; no other byte of the user and no byte of the page
table has changed. -/
structure Stored (pt : PageTable) (ram ram' : Ram) (va n : ℕ) (s : ℕ → UInt8) : Prop where
  bytes : ∀ i, i < n → userByte pt ram' (va + i) = some (s i)
  others : ∀ va', (∀ i, i < n → va' ≠ va + i) → userByte pt ram' va' = userByte pt ram va'
  tables : ∀ a, a / pgSize * pgSize ∈ pt.tablePages → ram' a = ram a

theorem UserPages.placedOnce (h : UserPages pt) (lo hi : ℕ) : PlacedOnce pt lo hi :=
  fun _ _ _ _ _ _ _ ha ha' => h.translate_inj ha ha'

theorem UserPages.stored (h : UserPages pt) {ram' : Ram}
    (hfill : Filled (fun i => translate pt (va + i)) ram ram' src n) :
    Stored pt ram ram' va n src where
  bytes := by
    intro i hi
    obtain ⟨a, ha⟩ := hfill.placed i hi
    unfold userByte
    rw [ha, Option.map_some, hfill.hit i a hi ha]
  others := by
    intro va' hva'
    unfold userByte
    cases hplace : translate pt va' with
    | none => rfl
    | some a =>
      rw [Option.map_some, Option.map_some, hfill.miss a]
      intro i hi ha
      exact hva' i hi (h.translate_inj hplace ha)
  tables := by
    intro a ha
    apply hfill.miss
    intro i _ hplace
    exact h.translate_table hplace ha

/-- **`copyout` and `copyin` agree.**  Both return for every address and length, and succeed exactly
if the user may access every page of the request; `copyin` then reads what `copyout` has written. -/
theorem copyout_copyin_agree (h : UserPages pt) (ram : Ram) (va len : Word) (s : ℕ → UInt8)
    {dst : ℕ} (hdst : Private pt dst len.toNat) :
    (∃ c, copyout pt ram va s len = .ok c
      ∧ (c.ok = true ↔ Covered pt va.toNat len.toNat)
      ∧ (len = 0 → c.ok = true)
      ∧ (c.ok = true → Stored pt ram c.ram va.toNat len.toNat s
        ∧ ∃ ram', copyin pt c.ram dst va len = .ok (true, ram')
          ∧ ∀ i, i < len.toNat → ram' (dst + i) = s i))
    ∧ ∃ ok ram', copyin pt ram dst va len = .ok (ok, ram')
      ∧ (ok = true ↔ Covered pt va.toNat len.toNat)
      ∧ ∀ va', userByte pt ram' va' = userByte pt ram va' := by
  have hcov := h.nonzero.covered_iff va.toNat len.toNat
  constructor
  · obtain ⟨c, r, hrun, hr, hfill, hstop, hok⟩ := copyout_spec ram s (h.placedOnce va.toNat _)
    refine ⟨c, hrun, hok.trans hcov.symm, ?_, fun htrue => ?_⟩
    · rintro rfl
      exact hok.mpr fun i hi => absurd hi (Nat.not_lt_zero i)
    · have hall := hok.mp htrue
      -- nothing stopped the loop
      obtain rfl : r = len.toNat := by
        by_contra hne
        exact hall r (lt_of_le_of_ne hr hne) (hstop (lt_of_le_of_ne hr hne))
      have hstored := h.stored hfill
      refine ⟨hstored, ?_⟩
      obtain ⟨ok, ram', r', hrun', -, hfill', hr', hiff⟩ := copyin_spec va c.ram hdst
      obtain rfl : ok = true := hiff.mpr hall
      refine ⟨ram', hrun', fun i hi => ?_⟩
      rw [hr'.mp rfl] at hfill'
      rw [hfill'.hit i _ hi rfl]
      unfold userBytes
      rw [hstored.bytes i hi]
      rfl
  · obtain ⟨ok, ram', r, hrun, hr, hfill, -, hiff⟩ := copyin_spec va ram hdst
    exact ⟨ok, ram', hrun, hiff.trans hcov.symm, hdst.userByte_eq hr hfill⟩

/-- Two bytes at the end of the page of `textTable`, and back again. -/
theorem copyout_copyin_agree_text : Covered textTable 4094 2
    ∧ ∃ c ram', copyout textTable (fun _ => 0) 4094 (fun i => UInt8.ofNat (i + 7)) 2 = .ok c
      ∧ c.ok = true ∧ copyin textTable c.ram 0x88000000 4094 2 = .ok (true, ram')
      ∧ ram' 0x88000001 = 8 := by
  have hcov : Covered textTable 4094 2 := by
    rw [textTable_userPages.nonzero.covered_iff]
    decide
  obtain ⟨⟨c, hrun, hok, -, hback⟩, -⟩ := copyout_copyin_agree textTable_userPages (fun _ => 0)
    4094 2 (fun i => UInt8.ofNat (i + 7)) (textTable_private _)
  obtain ⟨-, ram', hrun', hbytes⟩ := hback (hok.mpr hcov)
  exact ⟨hcov, c, ram', hrun, hok.mpr hcov, hrun', hbytes 1 (by decide)⟩

/-! ## Permissions -/

/-- The leaf of `va` has `PTE_W`. -/
def Writable (pt : PageTable) (va : ℕ) : Prop := ∃ pte, pt.lookup va = some pte ∧ pte.perm.w = true

/-- Every byte that changes is in a page that `copyout` says it wrote to. -/
theorem copyoutFrom_changed (ram : Ram) (pages : List Word) {c : Copied}
    (hrun : copyoutFrom pt src fuel ram pages dstva off len = .ok c) (ha : c.ram a ≠ ram a) :
    ∃ w ∈ c.pages, walkaddr pt w.toNat ≤ a ∧ a < walkaddr pt w.toNat + pgSize := by
  induction fuel generalizing ram pages dstva off len with
  | zero => simp [copyoutFrom] at hrun
  | succ fuel ih =>
    by_cases hzero : len.toNat = 0
    · rw [copyoutFrom_done ram pages hzero] at hrun
      cases hrun
      exact absurd rfl ha
    · by_cases hpa : walkaddr pt (dstva.toNat / pgSize * pgSize) = 0
      · rw [copyoutFrom_stop ram pages hzero hpa] at hrun
        cases hrun
        exact absurd rfl ha
      · rw [copyoutFrom_page ram pages hzero hpa] at hrun
        by_cases hlater : c.ram a = memmove ram (walkaddr pt (dstva.toNat / pgSize * pgSize)
            + (dstva.toNat - dstva.toNat / pgSize * pgSize)) (fun i => src (off.toNat + i))
            (chunk dstva len).toNat a
        · -- the byte changed in this turn
          rw [hlater] at ha
          refine ⟨pgRoundDown dstva, (copyoutFrom_pages _ _ hrun _).mpr (Or.inl (by simp)), ?_⟩
          have hin := (ite_ne_right_iff.mp ha).1
          rw [toNat_chunk] at hin
          rw [toNat_page]
          unfold pgSize at *
          omega
        · exact ih _ _ hrun hlater

/-- **`copyout` and read-only pages.**  It writes only through entries with `PTE_W` exactly if every
page of the request that it reaches has one: `walkaddr` does not look at the bit. -/
theorem copyout_writable_iff (pt : PageTable) (ram : Ram) (va : Word) (s : ℕ → UInt8)
    (len : Word) :
    ∃ c, copyout pt ram va s len = .ok c
      ∧ (∀ a, c.ram a ≠ ram a →
        ∃ w ∈ c.pages, walkaddr pt w.toNat ≤ a ∧ a < walkaddr pt w.toNat + pgSize)
      ∧ ((∀ w ∈ c.pages, Writable pt w.toNat)
        ↔ ∀ p, Reached pt va.toNat len.toNat p → Writable pt p) := by
  obtain ⟨c, hrun, -⟩ := copyout_eq pt ram va s len
  have hpages := copyoutFrom_pages ram [] hrun
  refine ⟨c, hrun, fun a ha => copyoutFrom_changed ram [] hrun ha, ?_, ?_⟩
  · intro hall p hp
    have hlt : p < 2 ^ 64 := lt_trans hp.lt_maxVa (by decide)
    have hw : (BitVec.ofNat 64 p).toNat = p := by
      rw [BitVec.toNat_ofNat, Nat.mod_eq_of_lt hlt]
    rw [← hw]
    apply hall
    rw [hpages, hw]
    exact Or.inr hp
  · intro hall w hw
    apply hall
    simpa using (hpages w).mp hw

/-- `copyout` of one byte to the text of a program. -/
theorem copyout_writes_text : ¬ ∀ (pt : PageTable) (ram : Ram) (va : Word) (s : ℕ → UInt8)
    (len : Word) (c : Copied), copyout pt ram va s len = .ok c →
      ∀ w ∈ c.pages, Writable pt w.toNat := by
  intro h
  obtain ⟨c, hrun, -⟩ := copyout_eq textTable (fun _ => 0) 0 (fun _ => 1) 1
  have hmem : (0 : Word) ∈ c.pages := by
    rw [copyoutFrom_pages _ _ hrun]
    refine Or.inr ⟨0, by decide, fun j hj => ?_, rfl⟩
    rw [Nat.le_zero.mp hj]
    decide
  obtain ⟨pte, hlook, hw⟩ := h _ _ _ _ _ c hrun 0 hmem
  have htext : textTable.lookup 0 = some ⟨0x87003000, permUser false true⟩ := rfl
  rw [Option.some.inj (hlook.symm.trans htext)] at hw
  exact absurd hw (by decide)

end Xv6.UserMem
