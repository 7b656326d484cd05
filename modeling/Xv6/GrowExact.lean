/-
# Growing and shrinking by exactly `n` bytes (`growproc` of `kernel/proc.c`)

`growproc` with the bytes of the pages it adds; without them it is that of `ExecModel`
(`growprocBytes_fst`).  What the allocator writes into free pages is left out.

Growing is all or nothing.  Shrinking is exact as long as the new size is not negative: otherwise
the sum `sz + n` wraps to a number larger than `sz`, `uvmdealloc` takes it for a request that needs
nothing done, and the call reports success (`growproc_exact_iff`).
-/
import Xv6.CopyPrivate
import Xv6.ExecModel

namespace Xv6

open Function

/-! ## The function -/

/-- `growproc(n)` called by `p`. -/
def growprocBytes (s : Kernel) (p : ℕ) (n : Int32) (ram : Ram) :
    Except Fault (ℤ × Kernel × Ram) := do
  let sz := (s.proc p).sz
  if n > 0 then
    let pt ← deref (s.proc p).pagetable
    let (sz, pt, m, ram) ← uvmallocBytes pt s.mem ram sz (uint64 (sz + n.toInt)) true false
    let s := { s with mem := m }.updProc p fun q => { q with pagetable := some pt }
    if sz = 0 then return (-1, s, ram)
    else return (0, s.updProc p fun q => { q with sz := sz }, ram)
  else if n < 0 then
    let pt ← deref (s.proc p).pagetable
    let (sz, pt, m) ← uvmdealloc pt s.mem sz (uint64 (sz + n.toInt))
    return (0, { s with mem := m }.updProc p fun q => { q with pagetable := some pt, sz := sz }, ram)
  else return (0, s, ram)

/-- Without the bytes this is `growproc`. -/
theorem growprocBytes_fst (s : Kernel) (p : ℕ) (n : Int32) (ram : Ram) :
    (growprocBytes s p n ram).map (fun r => (r.1, r.2.1)) = growproc s p n.toInt := by
  have hpos : n > 0 ↔ n.toInt > 0 := Int32.lt_iff_toInt_lt
  have hneg : n < 0 ↔ n.toInt < 0 := Int32.lt_iff_toInt_lt
  unfold growprocBytes growproc
  dsimp only
  simp only [hpos, hneg]
  cases (s.proc p).pagetable with
  | none => split_ifs <;> rfl
  | some pt =>
    split_ifs
    · simp only [deref_some, ok_bind]
      rw [← uvmallocBytes_fst _ _ ram]
      cases uvmallocBytes pt s.mem ram (s.proc p).sz (uint64 ((s.proc p).sz + n.toInt)) true
        false with
      | error e => rfl
      | ok r =>
        obtain ⟨sz, pt', m', ram'⟩ := r
        simp only [ok_bind, Except.map, dropRam]
        split_ifs <;> rfl
    · simp only [deref_some, ok_bind]
      cases uvmdealloc pt s.mem (s.proc p).sz (uint64 ((s.proc p).sz + n.toInt)) <;> rfl
    · rfl

/-! ## What it should do -/

/-- The user mappings are those of the addresses below `sz`, in whole pages. -/
def MapsExactly (pt : PageTable) (sz : ℕ) : Prop :=
  ∀ va, va < trapframeVa → ((pt.lookup va).isSome = true ↔ va < pgRoundUp sz)

/-- The entries below `lim`, and the bytes behind them, are the same. -/
def SameBelow (lim : ℕ) (pt pt' : PageTable) (ram ram' : Ram) : Prop :=
  ∀ va, va < lim → pt'.lookup va = pt.lookup va
    ∧ ∀ pte, pt.lookup va = some pte → ram' (pte.pa + va % pgSize) = ram (pte.pa + va % pgSize)

/-- The user memory has gone from size `sz` to size `sz'`. -/
structure Resized (sz sz' : ℕ) (pt pt' : PageTable) (ram ram' : Ram) : Prop where
  mapped : MapsExactly pt' sz'
  kept : SameBelow (min (pgRoundUp sz) (pgRoundUp sz')) pt pt' ram ram'
  zeroed : ∀ va, pgRoundUp sz ≤ va → va < pgRoundUp sz' → ∃ pte, pt'.lookup va = some pte
    ∧ pte.perm = permUser true false ∧ ram' (pte.pa + va % pgSize) = 0

/-- `growproc(n)` has failed and changed nothing, or has changed the size by exactly `n`. -/
def AllOrNothing (s : Kernel) (p : ℕ) (n : ℤ) (pt : PageTable) (ram : Ram) (r : ℤ) (t : Kernel)
    (ram' : Ram) : Prop :=
  ∃ pt', (t.proc p).pagetable = some pt'
    ∧ ((r = -1 ∧ (t.proc p).sz = (s.proc p).sz ∧ SameBelow trapframeVa pt pt' ram ram')
      ∨ (r = 0 ∧ ((t.proc p).sz : ℤ) = (s.proc p).sz + n
        ∧ Resized (s.proc p).sz (t.proc p).sz pt pt' ram ram'))

/-! ## What it does -/

section Grow

variable {m m' : PagePool} {B : Multiset ℕ} {pt pt' : PageTable} {n va sz : ℕ} {ram ram' : Ram}

theorem lt_pgRoundUp_iff : va < pgRoundUp sz ↔ va / pgSize < pageCount sz := by
  rw [pgRoundUp_eq]
  exact (Nat.div_lt_iff_lt_mul (by decide)).symm

theorem AddressSpace.mapsExactly (h : AddressSpace m B pt (pageCount sz)) : MapsExactly pt sz := by
  intro va hva
  have hspan : va < vaSpan := lt_of_lt_of_le hva (by decide)
  rw [lt_pgRoundUp_iff]
  constructor
  · intro hsome
    by_contra hge
    rw [h.user.only va hspan (by omega) (by unfold trapframeVa trampolineVa maxVa pgSize at *; omega)
      (by unfold trapframeVa trampolineVa maxVa pgSize at *; omega)] at hsome
    cases hsome
  · intro hlt
    obtain ⟨pte, hl, -⟩ := h.user.mapped _ (Nat.zero_le _) hlt
    rw [pt.lookup_congr (mul_pgSize_div _).symm, hl]
    rfl

/-- The bytes of the user pages are among those that stay. -/
theorem AddressSpace.byte_kept (h : AddressSpace m B pt n) (hk : Keeps m (B + pt.user n) ram ram')
    (hva : va / pgSize < n) {pte : Pte} (hl : pt.lookup va = some pte) :
    ram' (pte.pa + va % pgSize) = ram (pte.pa + va % pgSize) := by
  have hl' : pt.lookup (va / pgSize * pgSize) = some pte := by
    rwa [pt.lookup_congr (mul_pgSize_div _)]
  have hpage : m.IsPage pte.pa := (h.user_page hva hl).1
  apply hk pte.pa hpage.1 (fun _ => ?_) _ (Nat.mod_lt _ (by decide))
  exact Multiset.mem_add.mpr (Or.inr (mem_user_iff.mpr ⟨_, pte, hva, hl', rfl⟩))

/-- The entries and bytes below a size that both have are the same. -/
theorem AddressSpace.sameBelow (h : AddressSpace m B pt (pageCount sz)) {lim : ℕ}
    (hlim : lim ≤ pgRoundUp sz) (hlook : ∀ va, va < lim → pt'.lookup va = pt.lookup va)
    (hk : Keeps m (B + pt.user (pageCount sz)) ram ram') : SameBelow lim pt pt' ram ram' := by
  intro va hva
  refine ⟨hlook va hva, fun pte hl => h.byte_kept hk ?_ hl⟩
  exact lt_pgRoundUp_iff.mp (lt_of_lt_of_le hva hlim)

/-- A table that has been left as it was below `sz` has no other user mappings either. -/
theorem AddressSpace.sameUser (h : AddressSpace m B pt (pageCount sz))
    (h' : AddressSpace m' B pt' (pageCount sz))
    (hlook : ∀ va, va < vaSpan → va / pgSize < pageCount sz → pt'.lookup va = pt.lookup va)
    (hk : Keeps m (B + pt.user (pageCount sz)) ram ram') :
    SameBelow trapframeVa pt pt' ram ram' := by
  intro va hva
  have hspan : va < vaSpan := lt_of_lt_of_le hva (by decide)
  by_cases hlt : va < pgRoundUp sz
  · have hpage := lt_pgRoundUp_iff.mp hlt
    exact ⟨hlook va hspan hpage, fun pte hl => h.byte_kept hk hpage hl⟩
  · have hnone : ∀ {q : PageTable}, MapsExactly q sz → q.lookup va = none := by
      intro q hq
      rw [← Option.not_isSome_iff_eq_none, hq va hva]
      exact hlt
    rw [hnone h.mapsExactly, hnone h'.mapsExactly]
    exact ⟨rfl, fun pte hl => by cases hl⟩

/-- The size of an address space is below that of the memory. -/
theorem AddressSpace.sz_le (h : AddressSpace m B pt (pageCount sz)) : sz ≤ physTop := by
  have hle := h.le_ram
  have hsz : sz ≤ pageCount sz * pgSize := by
    rw [← pgRoundUp_eq]
    unfold pgRoundUp pgSize
    omega
  have hmul : pageCount sz * pgSize ≤ physTop / pgSize * pgSize := Nat.mul_le_mul_right _ hle
  exact hsz.trans (hmul.trans (Nat.div_mul_le_self _ _))

/-- What `uvmalloc` adds for a larger size. -/
theorem Resized.of_extended {sz' : ℕ} (h : AddressSpace m B pt (pageCount sz)) (hle : sz ≤ sz')
    (h' : AddressSpace m' B pt' (pageCount sz'))
    (hext : Extended m B (pageCount sz) (pageCount sz' - pageCount sz) (permUser true false)
      pt pt' ram ram') : Resized sz sz' pt pt' ram ram' := by
  have hmono := pageCount_mono hle
  have hspan : ∀ {va}, va / pgSize < pageCount sz' → va < vaSpan := by
    intro va hva
    exact lt_vaSpan (lt_of_lt_of_le ((Nat.div_lt_iff_lt_mul (by decide)).mp hva)
      (h'.user.bound.trans trapframeVa_le))
  refine ⟨h'.mapsExactly, h.sameBelow (min_le_left _ _) (fun va hva => ?_) hext.kept,
    fun va hlo hhi => ?_⟩
  · have hpage := lt_pgRoundUp_iff.mp (lt_of_lt_of_le hva (min_le_left _ _))
    exact hext.same va (hspan (by omega)) (by omega)
  · have hpage : ¬ va / pgSize < pageCount sz := fun hlt => absurd (lt_pgRoundUp_iff.mpr hlt) (by omega)
    have hpage' := lt_pgRoundUp_iff.mp hhi
    obtain ⟨mem, hl, hzero⟩ := hext.new va (hspan hpage') (by omega) (by omega)
    exact ⟨⟨mem, permUser true false⟩, hl, rfl, hzero⟩

/-- What `uvmdealloc` leaves for a smaller size. -/
theorem Resized.of_dealloc {sz' : ℕ} (h : AddressSpace m B pt (pageCount sz)) (hle : sz' ≤ sz)
    (h' : AddressSpace m' B pt' (pageCount sz'))
    (hsame : ∀ b, b < vaSpan → b / pgSize < pageCount sz' → pt'.lookup b = pt.lookup b)
    (ram : Ram) : Resized sz sz' pt pt' ram ram := by
  have hmono := pageCount_mono hle
  have hround : pgRoundUp sz' ≤ pgRoundUp sz := by
    rw [pgRoundUp_eq, pgRoundUp_eq]
    exact Nat.mul_le_mul_right _ hmono
  refine ⟨h'.mapsExactly, h.sameBelow (min_le_left _ _) (fun va hva => ?_) (Keeps.refl _ _ _),
    fun va hlo hhi => absurd hhi (by omega)⟩
  refine hsame va ?_ (lt_pgRoundUp_iff.mp (lt_of_lt_of_le hva (min_le_right _ _)))
  exact lt_vaSpan (lt_of_lt_of_le (lt_of_lt_of_le hva (min_le_left _ _))
    ((pgRoundUp_eq sz).trans_le (h.user.bound.trans trapframeVa_le)))

/-- A sum that does not wrap. -/
theorem uint64_of_nonneg {x : ℤ} (h : 0 ≤ x) (hlt : x < 2 ^ 64) : (uint64 x : ℤ) = x := by
  unfold uint64
  rw [Int.emod_eq_of_lt h hlt]
  exact Int.toNat_of_nonneg h

/-- A sum below zero wraps. -/
theorem uint64_of_neg {x : ℤ} (h : x < 0) (hlo : -2 ^ 64 ≤ x) : (uint64 x : ℤ) = x + 2 ^ 64 := by
  unfold uint64
  rw [← Int.add_emod_right, Int.emod_eq_of_lt (by omega) (by omega)]
  exact Int.toNat_of_nonneg (by omega)

end Grow

/-- **`growproc(n)` is all or nothing exactly when the new size is not negative.** -/
theorem growproc_exact_iff {s : Kernel} {p : ℕ} {B : Multiset ℕ} {pt : PageTable}
    (hpt : (s.proc p).pagetable = some pt)
    (h : AddressSpace s.mem B pt (pageCount (s.proc p).sz)) (n : Int32) (ram : Ram) :
    ∃ r t ram', growprocBytes s p n ram = .ok (r, t, ram')
      ∧ (AllOrNothing s p n.toInt pt ram r t ram' ↔ 0 ≤ ((s.proc p).sz : ℤ) + n.toInt) := by
  have hsz : ((s.proc p).sz : ℤ) ≤ 2 ^ 33 := by
    have hle := h.sz_le
    have htop : physTop ≤ 2 ^ 33 := by decide
    exact_mod_cast hle.trans htop
  have hn := n.toInt_lt
  have hn' := n.le_toInt
  unfold growprocBytes
  simp only [hpt, deref_some, ok_bind]
  split_ifs with hpos hneg
  · -- growing never wraps
    have hn₀ : 0 < n.toInt := Int32.lt_iff_toInt_lt.mp hpos
    have hu := @uint64_of_nonneg ((s.proc p).sz + n.toInt) (by omega) (by omega)
    obtain ⟨r, pt', m', ram', hrun, -, hor⟩ :=
      uvmallocBytes_spec h ram (uint64 ((s.proc p).sz + n.toInt)) true false
    simp only [hrun, ok_bind]
    rcases hor with ⟨hr, hspace, hext⟩ | ⟨rfl, hspace, hlook, hkeeps⟩
    · have hmax : r = uint64 ((s.proc p).sz + n.toInt) := by omega
      rw [if_neg (by omega)]
      refine ⟨0, _, ram', rfl, iff_of_true ?_ (by omega)⟩
      simp only [AllOrNothing, Kernel.updProc, update_self]
      exact ⟨pt', rfl, Or.inr ⟨trivial, by omega, Resized.of_extended h (by omega) hspace hext⟩⟩
    · rw [if_pos rfl]
      refine ⟨-1, _, ram', rfl, iff_of_true ?_ (by omega)⟩
      simp only [AllOrNothing, Kernel.updProc, update_self]
      exact ⟨pt', rfl, Or.inl ⟨trivial, trivial, h.sameUser hspace hlook hkeeps⟩⟩
  · have hn₀ : n.toInt < 0 := Int32.lt_iff_toInt_lt.mp hneg
    obtain ⟨pt', m', hrun, -, hspace, hsame⟩ :=
      uvmdealloc_spec h (uint64 ((s.proc p).sz + n.toInt))
    simp only [hrun, ok_bind]
    refine ⟨0, _, ram, rfl, ?_⟩
    simp only [AllOrNothing, Kernel.updProc, update_self]
    by_cases hnew : 0 ≤ ((s.proc p).sz : ℤ) + n.toInt
    · refine iff_of_true ?_ hnew
      have hu := @uint64_of_nonneg ((s.proc p).sz + n.toInt) hnew (by omega)
      rw [min_eq_right (by omega)] at hspace hsame ⊢
      refine ⟨pt', rfl, Or.inr ⟨trivial, hu, ?_⟩⟩
      exact Resized.of_dealloc h (by omega) hspace hsame ram
    · -- the wrapped sum is larger than the size, and the size stays
      refine iff_of_false ?_ hnew
      have hu := @uint64_of_neg ((s.proc p).sz + n.toInt) (by omega) (by omega)
      rw [min_eq_left (by omega)]
      rintro ⟨-, -, ⟨hr, -⟩ | ⟨-, hexact, -⟩⟩
      · exact absurd hr (by decide)
      · omega
  · have hn₀ : n.toInt = 0 := by
      have h₁ : ¬ 0 < n.toInt := fun hlt => hpos (Int32.lt_iff_toInt_lt.mpr hlt)
      have h₂ : ¬ n.toInt < 0 := fun hlt => hneg (Int32.lt_iff_toInt_lt.mpr hlt)
      omega
    refine ⟨0, s, ram, rfl, iff_of_true ⟨pt, hpt, Or.inr ⟨rfl, by omega, ?_⟩⟩ (by omega)⟩
    refine ⟨h.mapsExactly, h.sameBelow (min_le_left _ _) (fun _ _ => rfl) (Keeps.refl _ _ _), ?_⟩
    exact fun va hlo hhi => absurd hhi (by omega)

/-- A kernel in which process `0` has the page table `pt`. -/
def growSample (pt : PageTable) (m : PagePool) (sz : ℕ) : Kernel :=
  { bootState m.kend 0x80007000 ∅ [] with mem := m }.updProc 0 fun q =>
    { q with pagetable := some pt, sz := sz }

/-- A process that has just got its page table grows by one byte. -/
theorem growproc_exact_iff_one : ∃ pt m,
    procPagetable 0x80007000 0x86000000 textPool = .ok (some pt, m)
      ∧ ∃ r t ram', growprocBytes (growSample pt m 0) 0 1 (fun _ => 7) = .ok (r, t, ram')
        ∧ (AllOrNothing (growSample pt m 0) 0 1 pt (fun _ => 7) r t ram' ↔ (0 : ℤ) ≤ 0 + 1) := by
  have hcheck : ((procPagetable 0x80007000 0x86000000 textPool).toOption.bind Prod.fst).isSome
      = true := by decide
  rcases procPagetable_space (show Holds textPool {0x87003000} from rfl) 0x80007000 0x86000000 with
    ⟨m, hrun, -, -⟩ | ⟨pt, m, hrun, -, hspace⟩
  · rw [hrun] at hcheck
    cases hcheck
  · have hspace' : AddressSpace (growSample pt m 0).mem {0x87003000} pt
        (pageCount ((growSample pt m 0).proc 0).sz) := by
      change AddressSpace m {0x87003000} pt (pageCount 0)
      rwa [pageCount_zero]
    exact ⟨pt, m, hrun, growproc_exact_iff rfl hspace' 1 fun _ => 7⟩

/-- A process of one page asks to shrink by one byte more than it has: the call reports success,
and the size is what it was. -/
theorem growproc_wraps : MapsExactly UserMem.textTable 4096
    ∧ ∃ t, growprocBytes (growSample UserMem.textTable textPool 4096) 0 (-4097) (fun _ => 7)
        = .ok (0, t, fun _ => 7)
      ∧ (t.proc 0).sz = 4096
      ∧ ¬ AllOrNothing (growSample UserMem.textTable textPool 4096) 0 (-4097) UserMem.textTable
        (fun _ => 7) 0 t (fun _ => 7) := by
  refine ⟨fun va hva => ?_, _, rfl, rfl, ?_⟩
  · constructor
    · intro hsome
      obtain ⟨pte, hl⟩ := Option.isSome_iff_exists.mp hsome
      have hpage := (UserMem.textTable_lookup (lt_of_lt_of_le hva trapframeVa_le) hl).1
      rw [lt_pgRoundUp_iff, hpage]
      decide
    · intro hlt
      have hpage : va / pgSize = 0 / pgSize := Nat.lt_one_iff.mp (lt_pgRoundUp_iff.mp hlt)
      rw [PageTable.lookup_congr _ hpage]
      rfl
  · rintro ⟨-, -, ⟨hr, -⟩ | ⟨-, hexact, -⟩⟩
    · exact absurd hr (by decide)
    · exact absurd hexact (by decide)

end Xv6
