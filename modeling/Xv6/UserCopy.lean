/-
# Copying bytes to user memory (`copyout` of `kernel/vm.c`)

The loop of `copyout` with the bytes it moves.  It goes page by page and stops at the first page
that the user may not access; what it has copied until then stays (`copyoutBytes_spec`).
-/
import Xv6.Window
import Xv6.VmPages

namespace Xv6

open Window

variable {dstva fuel len n va : ℕ}

/-- The contents of the physical memory. -/
abbrev Ram := ℕ → UInt8

/-- `memmove(dst, src, n)`, where `src i` is the byte at `src + i` before the call. -/
def memmove (ram : Ram) (dst : ℕ) (src : ℕ → UInt8) (n : ℕ) : Ram := fun a =>
  if dst ≤ a ∧ a < dst + n then src (a - dst) else ram a

/-- The loop of `copyout(pagetable, dstva, src, len)`: `src ram off` is the byte `off` behind the
first one of the source while the memory is `ram`.  Every turn copies at least one byte. -/
def copyoutBytesFrom (src : Ram → ℕ → UInt8) (pt : PageTable) :
    ℕ → Ram → ℕ → ℕ → ℕ → Bool × Ram
  | 0, ram, _, _, _ => (true, ram)
  | fuel + 1, ram, dstva, off, len =>
    if len = 0 then (true, ram)
    else
      let va0 := dstva / pgSize * pgSize
      let pa0 := walkaddr pt va0
      if pa0 = 0 then (false, ram)
      else
        let n := min (pgSize - (dstva - va0)) len
        let ram := memmove ram (pa0 + (dstva - va0)) (fun i => src ram (off + i)) n
        copyoutBytesFrom src pt fuel ram (va0 + pgSize) (off + n) (len - n)

theorem copyoutBytesFrom_stop (src : Ram → ℕ → UInt8) {pt : PageTable} (ram : Ram) (off : ℕ)
    (hlen : len ≠ 0) (hpa : walkaddr pt (dstva / pgSize * pgSize) = 0) :
    copyoutBytesFrom src pt (fuel + 1) ram dstva off len = (false, ram) := by
  rw [copyoutBytesFrom, if_neg hlen]
  exact if_pos hpa

theorem copyoutBytesFrom_page (src : Ram → ℕ → UInt8) {pt : PageTable} (ram : Ram) (off : ℕ)
    (hlen : len ≠ 0) (hpa : walkaddr pt (dstva / pgSize * pgSize) ≠ 0) :
    copyoutBytesFrom src pt (fuel + 1) ram dstva off len =
      copyoutBytesFrom src pt fuel
        (memmove ram (walkaddr pt (dstva / pgSize * pgSize) + (dstva - dstva / pgSize * pgSize))
          (fun i => src ram (off + i)) (min (pgSize - (dstva - dstva / pgSize * pgSize)) len))
        (dstva / pgSize * pgSize + pgSize)
        (off + min (pgSize - (dstva - dstva / pgSize * pgSize)) len)
        (len - min (pgSize - (dstva - dstva / pgSize * pgSize)) len) := by
  rw [copyoutBytesFrom, if_neg hlen]
  exact if_neg hpa

/-- `copyout(pagetable, dstva, src, len)`: `false` for the result `-1`. -/
def copyoutBytes (pt : PageTable) (ram : Ram) (dstva : ℕ) (src : Ram → ℕ → UInt8) (len : ℕ) :
    Bool × Ram :=
  copyoutBytesFrom src pt len ram dstva 0 len

/-- Without the bytes this is the `copyout` of the page tables. -/
theorem copyoutBytes_fst (pt : PageTable) (ram : Ram) (dstva : ℕ) (src : Ram → ℕ → UInt8)
    (len : ℕ) : (copyoutBytes pt ram dstva src len).1 = copyout pt dstva len := by
  unfold copyoutBytes copyout
  generalize 0 = off
  suffices h : ∀ fuel ram dstva off len,
      (copyoutBytesFrom src pt fuel ram dstva off len).1 = copyoutFrom fuel pt dstva len from
    h len ram dstva off len
  intro fuel
  induction fuel with
  | zero => intros; rfl
  | succ fuel ih =>
    intro ram dstva off len
    unfold copyoutBytesFrom copyoutFrom
    dsimp only
    split_ifs
    · rfl
    · rfl
    · exact ih _ _ _ _

/-! ## Where the bytes of a process are -/

/-- The place of the byte `va`, if the user may access it. -/
def translate (pt : PageTable) (va : ℕ) : Option ℕ :=
  if walkaddr pt va = 0 then none else some (walkaddr pt va + va % pgSize)

theorem walkaddr_page (pt : PageTable) {va' : ℕ} (h : va / pgSize = va' / pgSize) :
    walkaddr pt va = walkaddr pt va' := by
  have hmax : va ≥ maxVa ↔ va' ≥ maxVa := by
    unfold maxVa pgSize at *
    omega
  unfold walkaddr
  rw [pt.lookup_congr h]
  simp only [hmax]

theorem translate_eq_none {pt : PageTable} : translate pt va = none ↔ walkaddr pt va = 0 := by
  unfold translate
  split_ifs with h <;> simp [h]

theorem translate_add {pt : PageTable} {i : ℕ} (h : walkaddr pt (va / pgSize * pgSize) ≠ 0)
    (hi : i < pgSize - (va - va / pgSize * pgSize)) :
    translate pt (va + i)
      = some (walkaddr pt (va / pgSize * pgSize) + (va - va / pgSize * pgSize) + i) := by
  have hpage : (va + i) / pgSize = va / pgSize * pgSize / pgSize := by
    unfold pgSize at *
    omega
  unfold translate
  rw [walkaddr_page pt hpage, if_neg h]
  congr 1
  unfold pgSize at *
  omega

/-- The first chunk of a request is accessible, and what is left of it decides. -/
theorem translate_page {pt : PageTable} {k next : ℕ}
    (hk : k = min (pgSize - (va - va / pgSize * pgSize)) n)
    (hpa : walkaddr pt (va / pgSize * pgSize) ≠ 0) (hnext : n ≠ k → next = va + k) :
    (∀ i, i < n → translate pt (va + i) ≠ none)
      ↔ ∀ i, i < n - k → translate pt (next + i) ≠ none := by
  constructor
  · intro hall i hi
    rw [hnext (by omega), Nat.add_assoc]
    exact hall (k + i) (by omega)
  · intro hall i hi
    by_cases hik : i < k
    · have hroom : i < pgSize - (va - va / pgSize * pgSize) := by omega
      rw [translate_add hpa hroom]
      exact Option.some_ne_none _
    · have hrest := hall (i - k) (by omega)
      rwa [hnext (by omega), Nat.add_assoc, Nat.add_sub_cancel' (Nat.le_of_not_lt hik)] at hrest

/-- `copyout` succeeds if the user may access every byte. -/
theorem copyoutFrom_iff (pt : PageTable) (hfuel : len ≤ fuel) :
    copyoutFrom fuel pt dstva len = true ↔ ∀ i, i < len → translate pt (dstva + i) ≠ none := by
  induction fuel generalizing dstva len with
  | zero => simp [copyoutFrom, Nat.le_zero.mp hfuel]
  | succ fuel ih =>
    unfold copyoutFrom
    dsimp only
    split_ifs with hlen hpa
    · simp [hlen]
    · -- the first page is missing
      refine iff_of_false (by simp) fun hall => hall 0 (Nat.pos_of_ne_zero hlen) ?_
      exact translate_eq_none.mpr ((walkaddr_page pt (mul_pgSize_div _).symm).trans hpa)
    · have hpos : 0 < min (pgSize - (dstva - dstva / pgSize * pgSize)) len := by
        unfold pgSize
        omega
      rw [ih (by omega), ← translate_page rfl hpa]
      unfold pgSize
      omega

theorem copyout_iff (pt : PageTable) (dstva len : ℕ) :
    copyout pt dstva len = true ↔ ∀ i, i < len → translate pt (dstva + i) ≠ none :=
  copyoutFrom_iff pt (le_refl len)

theorem memmove_filled {place : ℕ → Option ℕ} {dst : ℕ} (ram : Ram) (src : ℕ → UInt8)
    (hplace : ∀ i, i < n → place i = some (dst + i)) :
    Filled place ram (memmove ram dst src n) src n where
  placed := fun i hi => ⟨dst + i, hplace i hi⟩
  hit := fun i a hi ha => by
    obtain rfl : dst + i = a := Option.some.inj ((hplace i hi).symm.trans ha)
    unfold memmove
    rw [if_pos ⟨by omega, by omega⟩, Nat.add_sub_cancel_left]
  miss := fun a ha => by
    unfold memmove
    refine if_neg fun hin => ha (a - dst) (by omega) ?_
    rw [hplace _ (by omega)]
    congr 1
    omega

/-! ## What `copyout` copies -/

section Copyout

variable {src : Ram → ℕ → UInt8} {pt : PageTable} {lo hi size : ℕ}

/-- The `size` bytes of the source do not change while the bytes from `lo` to `hi` are written. -/
def SourceKept (src : Ram → ℕ → UInt8) (size : ℕ) (pt : PageTable) (lo hi : ℕ) : Prop :=
  ∀ ram ram' : Ram, (∀ a, (∀ va, lo ≤ va → va < hi → translate pt va ≠ some a) → ram' a = ram a) →
    ∀ i, i < size → src ram' i = src ram i

/-- The bytes from `lo` to `hi` have different places. -/
def PlacedOnce (pt : PageTable) (lo hi : ℕ) : Prop :=
  ∀ va va' a, lo ≤ va → va < hi → lo ≤ va' → va' < hi →
    translate pt va = some a → translate pt va' = some a → va = va'

theorem PlacedOnce.once (h : PlacedOnce pt lo hi) (hlo : lo ≤ dstva) (hhi : dstva + n ≤ hi) :
    Once (fun i => translate pt (dstva + i)) n := by
  intro i j a hi' hj ha ha'
  have := h (dstva + i) (dstva + j) a (by omega) (by omega) (by omega) (by omega) ha ha'
  omega

/-- A window between `lo` and `hi` does not touch the source. -/
theorem SourceKept.filled (h : SourceKept src size pt lo hi) {r : ℕ} {f : ℕ → UInt8}
    {ram ram' : Ram} (hfill : Filled (fun i => translate pt (dstva + i)) ram ram' f r)
    (hlo : lo ≤ dstva) (hhi : dstva + r ≤ hi) : ∀ i, i < size → src ram' i = src ram i := by
  apply h
  intro a ha
  exact hfill.miss a fun i hi' => ha (dstva + i) (by omega) (by omega)

theorem copyoutBytesFrom_spec (hkept : SourceKept src size pt lo hi) (honce : PlacedOnce pt lo hi)
    (dstva off len : ℕ) (ram : Ram) (hlo : lo ≤ dstva) (hhi : dstva + len ≤ hi)
    (hsize : off + len ≤ size) (hfuel : len ≤ fuel) :
    ∃ r, r ≤ len ∧
      Filled (fun i => translate pt (dstva + i)) ram
        (copyoutBytesFrom src pt fuel ram dstva off len).2 (fun i => src ram (off + i)) r ∧
      (r < len → translate pt (dstva + r) = none) := by
  induction fuel generalizing dstva off len ram with
  | zero =>
    refine ⟨0, Nat.zero_le _, Filled.zero _ _ _, fun h => ?_⟩
    omega
  | succ fuel ih =>
    by_cases hlen : len = 0
    · rw [copyoutBytesFrom, if_pos hlen]
      exact ⟨0, Nat.zero_le _, Filled.zero _ _ _, fun h => by omega⟩
    by_cases hpa : walkaddr pt (dstva / pgSize * pgSize) = 0
    · -- the first page is missing
      rw [copyoutBytesFrom_stop src ram off hlen hpa]
      refine ⟨0, Nat.zero_le _, Filled.zero _ _ _, fun _ => translate_eq_none.mpr ?_⟩
      exact (walkaddr_page pt (mul_pgSize_div _).symm).trans hpa
    · rw [copyoutBytesFrom_page src ram off hlen hpa]
      set va0 := dstva / pgSize * pgSize with hva0
      set n := min (pgSize - (dstva - va0)) len with hn
      have hva : va0 ≤ dstva := Nat.div_mul_le_self _ _
      have hroom : dstva - va0 < pgSize := by
        unfold pgSize at *
        omega
      set ram₁ := memmove ram (walkaddr pt va0 + (dstva - va0)) (fun i => src ram (off + i)) n
      have hfill : Filled (fun i => translate pt (dstva + i)) ram ram₁
          (fun i => src ram (off + i)) n :=
        memmove_filled ram _ fun i hi' =>
          translate_add hpa (lt_of_lt_of_le hi' (Nat.min_le_left _ _))
      have hsrc := hkept.filled hfill hlo (by omega)
      by_cases hrest : len = n
      · -- this was the last page
        refine ⟨n, by omega, ?_, fun h => by omega⟩
        rw [show len - n = 0 by omega]
        cases fuel <;> exact hfill
      · have hnext : va0 + pgSize = dstva + n := by omega
        obtain ⟨r, hr, hfill', hstop⟩ :=
          ih (dstva + n) (off + n) (len - n) ram₁ (by omega) (by omega) (by omega) (by omega)
        rw [hnext]
        refine ⟨n + r, by omega, hfill.append ?_ (honce.once hlo (by omega)), fun h => ?_⟩
        · refine hfill'.congr (fun i _ => ?_) fun i hi' => ?_
          · rw [Nat.add_assoc]
          · rw [hsrc _ (by omega), Nat.add_assoc]
        · rw [← Nat.add_assoc]
          exact hstop (by omega)

/-- **`copyout`** copies byte after byte until all are copied or the user may not access the
next one. -/
theorem copyoutBytes_spec (hkept : SourceKept src len pt lo hi) (honce : PlacedOnce pt lo hi)
    (ram : Ram) (hlo : lo ≤ dstva) (hhi : dstva + len ≤ hi) :
    ∃ r, r ≤ len ∧
      Filled (fun i => translate pt (dstva + i)) ram (copyoutBytes pt ram dstva src len).2
        (src ram) r ∧ (r < len → translate pt (dstva + r) = none) := by
  obtain ⟨r, hr, hfill, hstop⟩ := copyoutBytesFrom_spec hkept honce dstva 0 len ram hlo hhi
    (Nat.zero_add len).le (le_refl len)
  refine ⟨r, hr, hfill.congr (fun _ _ => rfl) fun i _ => ?_, hstop⟩
  rw [Nat.zero_add]

/-- Where the user may access all bytes, all are copied. -/
theorem copyoutBytes_filled (hkept : SourceKept src len pt lo hi) (honce : PlacedOnce pt lo hi)
    (ram : Ram) (hlo : lo ≤ dstva) (hhi : dstva + len ≤ hi)
    (hmapped : ∀ i, i < len → translate pt (dstva + i) ≠ none) :
    Filled (fun i => translate pt (dstva + i)) ram (copyoutBytes pt ram dstva src len).2
      (src ram) len := by
  obtain ⟨r, hr, hfill, hstop⟩ := copyoutBytes_spec hkept honce ram hlo hhi
  rcases hr.lt_or_eq with hlt | rfl
  · exact absurd (hstop hlt) (hmapped r hlt)
  · exact hfill

end Copyout

end Xv6
