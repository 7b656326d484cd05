/-
# Marked perfect binary trees in heap order

A perfect binary tree of height `H` is numbered in heap order: the root is `1`,
the children of `i` are `2 * i` and `2 * i + 1`, and the parent of `i` is `i / 2`.
So `j / 2 ^ k = i` says that `j` lies `k` levels below `i`, and a node of depth
`d` covers `2 ^ (H - d)` consecutive leaves.

A set of marked nodes is a map `U : ℕ → Bool`.  The module develops what a buddy
system keeps about such a tree:

* `Clear U h i` — no node of the subtree of height `h` below `i` is marked;
* `maxFree U h i` — the size of the largest clear subtree that can be reached
  from `i` without passing a marked node;
* `firstFit U k e i` — the leftmost such subtree of height `k`;
* `freePages U h i` — the number of leaves that no marked node covers;
* `freeCount U H d` — the number of maximal clear subtrees whose root has depth
  `d`.

The last section says how each of them changes when one node is marked, which by
symmetry also covers taking a mark away.
-/
import Mathlib

namespace HeapTree

variable {H e h i j k : ℕ} {U : ℕ → Bool}

/-! ## Clear subtrees -/

/-- No node of the subtree of height `h` rooted at `i` is marked. -/
def Clear (U : ℕ → Bool) (h i : ℕ) : Prop :=
  ∀ k ≤ h, ∀ j, j / 2 ^ k = i → U j = false

theorem pos_of_div_two_pow {m : ℕ} (hi : 0 < i) (h : j / 2 ^ m = i) : 0 < j :=
  lt_of_lt_of_le (h ▸ hi) (Nat.div_le_self j (2 ^ m))

/-- Descending `k + 1` levels from `i` is descending `k` levels from a child. -/
theorem div_two_pow_succ_eq_iff (j k i : ℕ) :
    j / 2 ^ (k + 1) = i ↔ j / 2 ^ k = 2 * i ∨ j / 2 ^ k = 2 * i + 1 := by
  rw [pow_succ, ← Nat.div_div_eq_div_mul]
  omega

theorem clear_zero_iff (U : ℕ → Bool) (i : ℕ) : Clear U 0 i ↔ U i = false := by
  constructor
  · intro hc
    exact hc 0 le_rfl i (by simp)
  · intro hi k hk j hj
    obtain rfl : k = 0 := by omega
    rw [pow_zero, Nat.div_one] at hj
    rw [hj, hi]

theorem clear_succ_iff (U : ℕ → Bool) (h i : ℕ) :
    Clear U (h + 1) i ↔ U i = false ∧ Clear U h (2 * i) ∧ Clear U h (2 * i + 1) := by
  constructor
  · intro hc
    refine ⟨hc 0 (by omega) i (by simp), fun k hk j hj => ?_, fun k hk j hj => ?_⟩
    · exact hc (k + 1) (by omega) j ((div_two_pow_succ_eq_iff j k i).mpr (Or.inl hj))
    · exact hc (k + 1) (by omega) j ((div_two_pow_succ_eq_iff j k i).mpr (Or.inr hj))
  · rintro ⟨hi, hl, hr⟩ k hk j hj
    cases k with
    | zero =>
      rw [pow_zero, Nat.div_one] at hj
      rw [hj, hi]
    | succ k =>
      rcases (div_two_pow_succ_eq_iff j k i).mp hj with h2 | h2
      · exact hl k (by omega) j h2
      · exact hr k (by omega) j h2

theorem Clear.self (hc : Clear U h i) : U i = false :=
  hc 0 (Nat.zero_le h) i (by simp)

theorem Clear.mono {h' : ℕ} (hc : Clear U h i) (hle : h' ≤ h) : Clear U h' i :=
  fun k hk j hj => hc k (by omega) j hj

/-! ## The largest reachable clear subtree -/

/-- Two siblings of size `n / 2` each: together they are worth `n` when both are
whole, and the better of the two otherwise. -/
def combine (n l r : ℕ) : ℕ := if l + r = n then n else max l r

/-- The size of the largest clear subtree reachable from `i` (of height `h`)
without passing a marked node. -/
def maxFree (U : ℕ → Bool) : ℕ → ℕ → ℕ
  | 0, i => if U i then 0 else 1
  | h + 1, i => if U i then 0
      else combine (2 ^ (h + 1)) (maxFree U h (2 * i)) (maxFree U h (2 * i + 1))

theorem maxFree_of_marked (hi : U i = true) (h : ℕ) : maxFree U h i = 0 := by
  cases h <;> simp [maxFree, hi]

theorem maxFree_succ_of_unmarked (hi : U i = false) (h : ℕ) :
    maxFree U (h + 1) i
      = combine (2 ^ (h + 1)) (maxFree U h (2 * i)) (maxFree U h (2 * i + 1)) := by
  simp [maxFree, hi]

theorem maxFree_le (U : ℕ → Bool) (h i : ℕ) : maxFree U h i ≤ 2 ^ h := by
  induction h generalizing i with
  | zero =>
    cases hi : U i <;> simp [maxFree, hi]
  | succ h ih =>
    cases hi : U i with
    | true => simp [maxFree, hi]
    | false =>
      have hl := ih (2 * i)
      have hr := ih (2 * i + 1)
      rw [maxFree_succ_of_unmarked hi, combine, pow_succ]
      split_ifs <;> omega

/-- A subtree is wholly free exactly when it is clear. -/
theorem maxFree_eq_two_pow_iff (U : ℕ → Bool) (h i : ℕ) :
    maxFree U h i = 2 ^ h ↔ Clear U h i := by
  induction h generalizing i with
  | zero =>
    rw [clear_zero_iff]
    cases hi : U i <;> simp [maxFree, hi]
  | succ h ih =>
    rw [clear_succ_iff]
    cases hi : U i with
    | true =>
      have hpos : 0 < 2 ^ (h + 1) := by positivity
      rw [maxFree_of_marked hi]
      simp only [Bool.true_eq_false, false_and, iff_false]
      omega
    | false =>
      have hl := maxFree_le U h (2 * i)
      have hr := maxFree_le U h (2 * i + 1)
      have hpos : 0 < 2 ^ h := by positivity
      rw [← ih (2 * i), ← ih (2 * i + 1), maxFree_succ_of_unmarked hi, combine, pow_succ]
      split_ifs <;> simp <;> omega

theorem maxFree_congr {V : ℕ → Bool} (h i : ℕ) (huv : ∀ k ≤ h, ∀ j, j / 2 ^ k = i → U j = V j) :
    maxFree U h i = maxFree V h i := by
  induction h generalizing i with
  | zero =>
    have hi := huv 0 le_rfl i (by simp)
    simp [maxFree, hi]
  | succ h ih =>
    have hi := huv 0 (by omega) i (by simp)
    have hl : maxFree U h (2 * i) = maxFree V h (2 * i) := by
      refine ih _ (fun k hk j hj => huv (k + 1) (by omega) j ?_)
      exact (div_two_pow_succ_eq_iff j k i).mpr (Or.inl hj)
    have hr : maxFree U h (2 * i + 1) = maxFree V h (2 * i + 1) := by
      refine ih _ (fun k hk j hj => huv (k + 1) (by omega) j ?_)
      exact (div_two_pow_succ_eq_iff j k i).mpr (Or.inr hj)
    rw [maxFree, maxFree, hi, hl, hr]

/-! ## Available nodes and the leftmost fit -/

/-- The node `j`, `e` levels below `i`, roots a clear subtree of height `k` and no
node on the way from `i` down to `j` is marked. -/
structure Avail (U : ℕ → Bool) (e k i j : ℕ) : Prop where
  below : j / 2 ^ e = i
  clear : Clear U k j
  path : ∀ m ≤ e, U (j / 2 ^ m) = false

theorem avail_zero_iff (U : ℕ → Bool) (k i j : ℕ) :
    Avail U 0 k i j ↔ j = i ∧ Clear U k i := by
  constructor
  · rintro ⟨hb, hc, -⟩
    rw [pow_zero, Nat.div_one] at hb
    exact ⟨hb, hb ▸ hc⟩
  · rintro ⟨rfl, hc⟩
    refine ⟨by simp, hc, fun m hm => ?_⟩
    obtain rfl : m = 0 := by omega
    simpa using hc.self

theorem avail_succ_iff (U : ℕ → Bool) (e k i j : ℕ) :
    Avail U (e + 1) k i j ↔
      U i = false ∧ (Avail U e k (2 * i) j ∨ Avail U e k (2 * i + 1) j) := by
  constructor
  · rintro ⟨hb, hc, hp⟩
    refine ⟨hb ▸ hp (e + 1) le_rfl, ?_⟩
    rcases (div_two_pow_succ_eq_iff j e i).mp hb with h2 | h2
    · exact Or.inl ⟨h2, hc, fun m hm => hp m (by omega)⟩
    · exact Or.inr ⟨h2, hc, fun m hm => hp m (by omega)⟩
  · rintro ⟨hi, ⟨hb, hc, hp⟩ | ⟨hb, hc, hp⟩⟩
    · have hji := (div_two_pow_succ_eq_iff j e i).mpr (Or.inl hb)
      refine ⟨hji, hc, fun m hm => ?_⟩
      rcases Nat.lt_or_ge m (e + 1) with hlt | hge
      · exact hp m (by omega)
      · obtain rfl : m = e + 1 := by omega
        rw [hji, hi]
    · have hji := (div_two_pow_succ_eq_iff j e i).mpr (Or.inr hb)
      refine ⟨hji, hc, fun m hm => ?_⟩
      rcases Nat.lt_or_ge m (e + 1) with hlt | hge
      · exact hp m (by omega)
      · obtain rfl : m = e + 1 := by omega
        rw [hji, hi]

/-- A combined value reaches a power of two below the whole exactly when one of
the two siblings does. -/
theorem le_combine_iff {n l r s : ℕ} (hl : l ≤ n) (hr : r ≤ n) (hs : s ≤ n)
    (hn : 0 < n) : s ≤ combine (n * 2) l r ↔ s ≤ l ∨ s ≤ r := by
  rw [combine]
  split_ifs <;> omega

theorem two_pow_le_maxFree_iff (U : ℕ → Bool) (e k i : ℕ) :
    2 ^ k ≤ maxFree U (k + e) i ↔ ∃ j, Avail U e k i j := by
  induction e generalizing i with
  | zero =>
    have hle := maxFree_le U k i
    constructor
    · intro h
      refine ⟨i, (avail_zero_iff U k i i).mpr ⟨rfl, ?_⟩⟩
      exact (maxFree_eq_two_pow_iff U k i).mp (le_antisymm hle h)
    · rintro ⟨j, hj⟩
      obtain ⟨rfl, hc⟩ := (avail_zero_iff U k i j).mp hj
      exact ((maxFree_eq_two_pow_iff U k j).mpr hc).ge
  | succ e ih =>
    cases hi : U i with
    | true =>
      rw [maxFree_of_marked hi]
      constructor
      · intro h
        have : 0 < 2 ^ k := by positivity
        omega
      · rintro ⟨j, hj⟩
        have := ((avail_succ_iff U e k i j).mp hj).1
        simp [hi] at this
    | false =>
      have hk : 2 ^ k ≤ 2 ^ (k + e) := Nat.pow_le_pow_right (by omega) (by omega)
      have hpos : 0 < 2 ^ (k + e) := by positivity
      rw [← Nat.add_assoc, maxFree_succ_of_unmarked hi, pow_succ,
        le_combine_iff (maxFree_le U _ _) (maxFree_le U _ _) hk hpos,
        ih (2 * i), ih (2 * i + 1)]
      constructor
      · rintro (⟨j, hj⟩ | ⟨j, hj⟩)
        · exact ⟨j, (avail_succ_iff U e k i j).mpr ⟨hi, Or.inl hj⟩⟩
        · exact ⟨j, (avail_succ_iff U e k i j).mpr ⟨hi, Or.inr hj⟩⟩
      · rintro ⟨j, hj⟩
        rcases ((avail_succ_iff U e k i j).mp hj).2 with h | h
        · exact Or.inl ⟨j, h⟩
        · exact Or.inr ⟨j, h⟩

/-- Descend `e` levels from `i`, to the left whenever the left subtree still has
room for height `k`. -/
def firstFit (U : ℕ → Bool) (k : ℕ) : ℕ → ℕ → ℕ
  | 0, i => i
  | e + 1, i => if 2 ^ k ≤ maxFree U (k + e) (2 * i) then firstFit U k e (2 * i)
      else firstFit U k e (2 * i + 1)

theorem avail_firstFit (h : 2 ^ k ≤ maxFree U (k + e) i) : Avail U e k i (firstFit U k e i) := by
  induction e generalizing i with
  | zero =>
    refine (avail_zero_iff U k i _).mpr ⟨rfl, ?_⟩
    exact (maxFree_eq_two_pow_iff U k i).mp (le_antisymm (maxFree_le U k i) h)
  | succ e ih =>
    obtain ⟨j, hj⟩ := (two_pow_le_maxFree_iff U (e + 1) k i).mp h
    obtain ⟨hi, hor⟩ := (avail_succ_iff U e k i j).mp hj
    rw [avail_succ_iff, firstFit]
    refine ⟨hi, ?_⟩
    split_ifs with hl
    · exact Or.inl (ih hl)
    · have hr : 2 ^ k ≤ maxFree U (k + e) (2 * i + 1) := by
        rcases hor with hor | hor
        · exact absurd ((two_pow_le_maxFree_iff U e k (2 * i)).mpr ⟨j, hor⟩) hl
        · exact (two_pow_le_maxFree_iff U e k (2 * i + 1)).mpr ⟨j, hor⟩
      exact Or.inr (ih hr)

/-- Nodes `e` levels below `i` are numbered before those below a later node. -/
theorem lt_of_div_two_pow_lt {i' j' : ℕ} (hj : j / 2 ^ e = i) (hj' : j' / 2 ^ e = i') (h : i < i') :
    j < j' := by
  by_contra hge
  have := Nat.div_le_div_right (c := 2 ^ e) (Nat.le_of_not_lt hge)
  omega

theorem firstFit_le (hj : Avail U e k i j) : firstFit U k e i ≤ j := by
  induction e generalizing i with
  | zero =>
    obtain ⟨rfl, -⟩ := (avail_zero_iff U k i j).mp hj
    exact le_rfl
  | succ e ih =>
    obtain ⟨-, hor⟩ := (avail_succ_iff U e k i j).mp hj
    rw [firstFit]
    split_ifs with hl
    · rcases hor with hor | hor
      · exact ih hor
      · exact (lt_of_div_two_pow_lt (avail_firstFit hl).below hor.below (by omega)).le
    · rcases hor with hor | hor
      · exact absurd ((two_pow_le_maxFree_iff U e k (2 * i)).mpr ⟨j, hor⟩) hl
      · exact ih hor

/-- The largest clear subtree has the size of a subtree. -/
theorem maxFree_eq_zero_or_two_pow (U : ℕ → Bool) (h i : ℕ) :
    maxFree U h i = 0 ∨ ∃ k ≤ h, maxFree U h i = 2 ^ k := by
  induction h generalizing i with
  | zero =>
    have hle := maxFree_le U 0 i
    rcases Nat.eq_zero_or_pos (maxFree U 0 i) with h0 | hpos
    · exact Or.inl h0
    · exact Or.inr ⟨0, le_rfl, le_antisymm hle hpos⟩
  | succ h ih =>
    cases hi : U i with
    | true => exact Or.inl (maxFree_of_marked hi _)
    | false =>
      rw [maxFree_succ_of_unmarked hi, combine]
      split_ifs
      · exact Or.inr ⟨h + 1, le_rfl, rfl⟩
      · rcases max_choice (maxFree U h (2 * i)) (maxFree U h (2 * i + 1)) with hmax | hmax
        · rw [hmax]
          exact (ih (2 * i)).imp_right fun ⟨k, hk, he⟩ => ⟨k, by omega, he⟩
        · rw [hmax]
          exact (ih (2 * i + 1)).imp_right fun ⟨k, hk, he⟩ => ⟨k, by omega, he⟩

/-! ## Free leaves -/

/-- The number of leaves below `i` (of height `h`) that no marked node covers. -/
def freePages (U : ℕ → Bool) : ℕ → ℕ → ℕ
  | 0, i => if U i then 0 else 1
  | h + 1, i => if U i then 0 else freePages U h (2 * i) + freePages U h (2 * i + 1)

theorem freePages_succ_of_unmarked (hi : U i = false) (h : ℕ) :
    freePages U (h + 1) i = freePages U h (2 * i) + freePages U h (2 * i + 1) := by
  simp [freePages, hi]

theorem freePages_le (U : ℕ → Bool) (h i : ℕ) : freePages U h i ≤ 2 ^ h := by
  induction h generalizing i with
  | zero => cases hi : U i <;> simp [freePages, hi]
  | succ h ih =>
    have hl := ih (2 * i)
    have hr := ih (2 * i + 1)
    rw [freePages, pow_succ]
    split_ifs <;> omega

theorem freePages_of_clear (hc : Clear U h i) : freePages U h i = 2 ^ h := by
  induction h generalizing i with
  | zero => simp [freePages, hc.self]
  | succ h ih =>
    obtain ⟨hi, hl, hr⟩ := (clear_succ_iff U h i).mp hc
    rw [freePages_succ_of_unmarked hi, ih hl, ih hr, pow_succ]
    omega

theorem freePages_congr {V : ℕ → Bool} (h i : ℕ) (huv : ∀ k ≤ h, ∀ j, j / 2 ^ k = i → U j = V j) :
    freePages U h i = freePages V h i := by
  induction h generalizing i with
  | zero =>
    have hi := huv 0 le_rfl i (by simp)
    simp [freePages, hi]
  | succ h ih =>
    have hi := huv 0 (by omega) i (by simp)
    have hl : freePages U h (2 * i) = freePages V h (2 * i) := by
      refine ih _ (fun k hk j hj => huv (k + 1) (by omega) j ?_)
      exact (div_two_pow_succ_eq_iff j k i).mpr (Or.inl hj)
    have hr : freePages U h (2 * i + 1) = freePages V h (2 * i + 1) := by
      refine ih _ (fun k hk j hj => huv (k + 1) (by omega) j ?_)
      exact (div_two_pow_succ_eq_iff j k i).mpr (Or.inr hj)
    rw [freePages, freePages, hi, hl, hr]

/-! ## Maximal clear subtrees -/

theorem log2_eq_of_mem {d : ℕ} (hi : i ∈ Finset.Ico (2 ^ d) (2 ^ (d + 1))) : Nat.log2 i = d := by
  rw [Finset.mem_Ico] at hi
  have hpos : 0 < 2 ^ d := by positivity
  exact (Nat.log2_eq_iff (by omega)).mpr hi

theorem mem_Ico_log2 (hi : 0 < i) : i ∈ Finset.Ico (2 ^ Nat.log2 i) (2 ^ (Nat.log2 i + 1)) :=
  Finset.mem_Ico.mpr ((Nat.log2_eq_iff (by omega)).mp rfl)

theorem log2_two_mul_add (hi : 0 < i) {c : ℕ} (hc : c < 2) :
    Nat.log2 (2 * i + c) = Nat.log2 i + 1 := by
  have h := Finset.mem_Ico.mp (mem_Ico_log2 hi)
  refine (Nat.log2_eq_iff (by omega)).mpr ⟨?_, ?_⟩ <;> rw [pow_succ] <;> omega

theorem log2_div_two (hi : 2 ≤ i) : Nat.log2 (i / 2) + 1 = Nat.log2 i := by
  have h := log2_two_mul_add (i := i / 2) (by omega) (c := i % 2) (by omega)
  rw [← h]
  congr 1
  omega

theorem log2_div_two_pow {v : ℕ} (he : e ≤ Nat.log2 v) (hv : 0 < v) :
    Nat.log2 (v / 2 ^ e) + e = Nat.log2 v ∧ 0 < v / 2 ^ e := by
  induction e with
  | zero => simpa using hv
  | succ e ih =>
    obtain ⟨h1, h2⟩ := ih (by omega)
    have h3 : 2 ≤ v / 2 ^ e := by
      by_contra hlt
      obtain h4 : v / 2 ^ e = 1 := by omega
      rw [h4] at h1
      have : Nat.log2 1 = 0 := by decide
      omega
    rw [pow_succ, ← Nat.div_div_eq_div_mul]
    have h4 := log2_div_two h3
    omega

/-- In a tree of height `H`, the node `i` is wholly free. -/
def Full (U : ℕ → Bool) (H i : ℕ) : Prop :=
  maxFree U (H - Nat.log2 i) i = 2 ^ (H - Nat.log2 i)

instance (U : ℕ → Bool) (H i : ℕ) : Decidable (Full U H i) :=
  inferInstanceAs (Decidable (_ = _))

/-- The node `i` is wholly free and its parent, if it has one, is neither wholly
free nor marked. -/
def Counted (U : ℕ → Bool) (H i : ℕ) : Prop :=
  Full U H i ∧ (i = 1 ∨ ¬ Full U H (i / 2) ∧ U (i / 2) = false)

instance (U : ℕ → Bool) (H i : ℕ) : Decidable (Counted U H i) :=
  inferInstanceAs (Decidable (_ ∧ _))

/-- `1` for a counted node and `0` for any other. -/
def tally (U : ℕ → Bool) (H i : ℕ) : ℕ := if Counted U H i then 1 else 0

/-- The number of counted nodes of depth `d`. -/
def freeCount (U : ℕ → Bool) (H d : ℕ) : ℕ :=
  ((Finset.Ico (2 ^ d) (2 ^ (d + 1))).filter (Counted U H)).card

theorem freeCount_eq_sum (U : ℕ → Bool) (H d : ℕ) :
    freeCount U H d = ∑ i ∈ Finset.Ico (2 ^ d) (2 ^ (d + 1)), tally U H i :=
  Finset.card_filter _ _

theorem freeCount_zero (U : ℕ → Bool) (H : ℕ) : freeCount U H 0 = tally U H 1 := by
  rw [freeCount_eq_sum]
  exact Finset.sum_singleton _ 1

theorem freeCount_le (U : ℕ → Bool) (H d : ℕ) : freeCount U H d ≤ 2 ^ d := by
  refine (Finset.card_filter_le _ _).trans ?_
  rw [Nat.card_Ico, pow_succ]
  omega

theorem tally_le_one (U : ℕ → Bool) (H i : ℕ) : tally U H i ≤ 1 := by
  rw [tally]
  split_ifs <;> omega

/-- Changing a summand at two places. -/
theorem sum_add_pair {s : Finset ℕ} {f g : ℕ → ℕ} {a b : ℕ} (ha : a ∈ s) (hb : b ∈ s)
    (hab : a ≠ b) (hfg : ∀ i ∈ s, i ≠ a → i ≠ b → f i = g i) :
    ∑ i ∈ s, f i + (g a + g b) = ∑ i ∈ s, g i + (f a + f b) := by
  have hb' : b ∈ s.erase a := Finset.mem_erase.mpr ⟨hab.symm, hb⟩
  have hrest : ∑ i ∈ (s.erase a).erase b, f i = ∑ i ∈ (s.erase a).erase b, g i := by
    refine Finset.sum_congr rfl (fun i hi => ?_)
    obtain ⟨hib, hi⟩ := Finset.mem_erase.mp hi
    obtain ⟨hia, hi⟩ := Finset.mem_erase.mp hi
    exact hfg i hi hia hib
  rw [← Finset.add_sum_erase s f ha, ← Finset.add_sum_erase s g ha,
    ← Finset.add_sum_erase _ f hb', ← Finset.add_sum_erase _ g hb', hrest]
  omega

theorem two_mul_add_mem_Ico {d p c : ℕ} (hp : p ∈ Finset.Ico (2 ^ d) (2 ^ (d + 1)))
    (hc : c < 2) : 2 * p + c ∈ Finset.Ico (2 ^ (d + 1)) (2 ^ (d + 2)) := by
  rw [Finset.mem_Ico] at hp ⊢
  rw [pow_succ] at hp ⊢
  rw [pow_succ, pow_succ]
  omega

/-! ## The weighted sum of the maximal clear subtrees -/

/-- No marked node lies below another one. -/
def Antichain (U : ℕ → Bool) : Prop :=
  ∀ j k, U j = true → 0 < k → U (j / 2 ^ k) = false

/-- Below a marked node everything is clear. -/
theorem Antichain.clear_child (ha : Antichain U) (hi : U i = true) (h c : ℕ) (hc : c < 2) :
    Clear U h (2 * i + c) := by
  intro k hk j hj
  by_contra hne
  have hji : j / 2 ^ (k + 1) = i := by
    rw [div_two_pow_succ_eq_iff]
    omega
  have := ha j (k + 1) (by simpa using hne) (by omega)
  rw [hji, hi] at this
  exact Bool.noConfusion this

theorem full_iff_clear (U : ℕ → Bool) (H i : ℕ) :
    Full U H i ↔ Clear U (H - Nat.log2 i) i := maxFree_eq_two_pow_iff U _ i

/-- The counted nodes `k` levels below `i`, where `i` itself counts as soon as it
is wholly free. -/
def countBelow (U : ℕ → Bool) (H i : ℕ) : ℕ → ℕ
  | 0 => if Full U H i then 1 else 0
  | k + 1 => ∑ j ∈ Finset.Ico (i * 2 ^ (k + 1)) ((i + 1) * 2 ^ (k + 1)), tally U H j

theorem mem_Ico_mul_two_pow_iff (j i k : ℕ) :
    j ∈ Finset.Ico (i * 2 ^ k) ((i + 1) * 2 ^ k) ↔ j / 2 ^ k = i := by
  have hpos : 0 < 2 ^ k := by positivity
  rw [Finset.mem_Ico, Nat.div_eq_iff hpos]
  rw [Nat.add_mul]
  omega

/-- A node whose parent is wholly free or marked is not counted. -/
theorem tally_eq_zero_of_parent (hj : j ≠ 1) (h : Full U H (j / 2) ∨ U (j / 2) = true) :
    tally U H j = 0 := by
  rw [tally, if_neg]
  rintro ⟨-, h1 | ⟨h1, h2⟩⟩
  · exact hj h1
  · rcases h with h | h
    · exact h1 h
    · rw [h] at h2
      exact Bool.noConfusion h2

theorem Clear.below (hc : Clear U h i) (hk : k ≤ h) (hj : j / 2 ^ k = i) : Clear U (h - k) j := by
  intro m hm l hl
  refine hc (m + k) (by omega) l ?_
  rw [pow_add, ← Nat.div_div_eq_div_mul, hl, hj]

theorem log2_of_div_two_pow (hi : 0 < i) (hj : j / 2 ^ k = i) : Nat.log2 j = Nat.log2 i + k := by
  have hjpos := pos_of_div_two_pow hi hj
  have hk : k ≤ Nat.log2 j := by
    by_contra hlt
    have h1 := Finset.mem_Ico.mp (mem_Ico_log2 hjpos)
    have h2 : 2 ^ (Nat.log2 j + 1) ≤ 2 ^ k := Nat.pow_le_pow_right (by omega) (by omega)
    rw [Nat.div_eq_of_lt (by omega)] at hj
    omega
  have := (log2_div_two_pow hk hjpos).1
  rw [hj] at this
  exact this.symm

/-- Strictly below a wholly free or marked node nothing is counted. -/
theorem countBelow_succ_eq_zero (ha : Antichain U) (hi : 0 < i) (hk : Nat.log2 i + k + 1 ≤ H)
    (h : Full U H i ∨ U i = true) : countBelow U H i (k + 1) = 0 := by
  rw [countBelow]
  refine Finset.sum_eq_zero (fun j hj => ?_)
  rw [mem_Ico_mul_two_pow_iff] at hj
  have hj2 : j / 2 / 2 ^ k = i := by
    rw [Nat.div_div_eq_div_mul, Nat.mul_comm, ← pow_succ, hj]
  have hlog := log2_of_div_two_pow hi hj2
  have hlogj := log2_of_div_two_pow hi hj
  have hne : j ≠ 1 := by
    rintro rfl
    have : Nat.log2 1 = 0 := by decide
    omega
  refine tally_eq_zero_of_parent hne ?_
  rcases h with h | h
  · left
    rw [full_iff_clear] at h ⊢
    rw [hlog, ← Nat.sub_sub]
    exact h.below (by omega) hj2
  · cases k with
    | zero =>
      right
      rw [pow_zero, Nat.div_one] at hj2
      rw [hj2, h]
    | succ k =>
      left
      rw [full_iff_clear, hlog]
      rcases (div_two_pow_succ_eq_iff _ k i).mp hj2 with h2 | h2
      · exact (ha.clear_child h (H - (Nat.log2 i + 1)) 0 (by omega)).below (by omega) h2 |>.mono
          (by omega)
      · exact (ha.clear_child h (H - (Nat.log2 i + 1)) 1 (by omega)).below (by omega) h2 |>.mono
          (by omega)

/-- Below an unmarked node that is not wholly free, the counted nodes are those
below its two children. -/
theorem countBelow_succ_eq_add (hi : 0 < i) (hu : U i = false) (hf : ¬ Full U H i) (k : ℕ) :
    countBelow U H i (k + 1) = countBelow U H (2 * i) k + countBelow U H (2 * i + 1) k := by
  cases k with
  | zero =>
    have htally : ∀ c < 2, tally U H (2 * i + c) = if Full U H (2 * i + c) then 1 else 0 := by
      intro c hc
      have hp : (2 * i + c) / 2 = i := by omega
      have hne : 2 * i + c ≠ 1 := by omega
      simp [tally, Counted, hp, hne, hf, hu]
    have hset : Finset.Ico (i * 2 ^ (0 + 1)) ((i + 1) * 2 ^ (0 + 1)) = {2 * i, 2 * i + 1} := by
      ext j
      simp only [Finset.mem_Ico, Finset.mem_insert, Finset.mem_singleton]
      omega
    have h0 := htally 0 (by omega)
    have h1 := htally 1 (by omega)
    rw [Nat.add_zero] at h0
    simp only [countBelow]
    rw [hset, Finset.sum_pair (by omega), h0, h1]
  | succ k =>
    rw [countBelow, countBelow, countBelow]
    have h1 : i * 2 ^ (k + 1 + 1) = 2 * i * 2 ^ (k + 1) := by ring
    have h2 : (i + 1) * 2 ^ (k + 1 + 1) = (2 * i + 1 + 1) * 2 ^ (k + 1) := by ring
    rw [h1, h2, Finset.sum_Ico_consecutive]
    · exact Nat.mul_le_mul_right _ (by omega)
    · exact Nat.mul_le_mul_right _ (by omega)

/-- The maximal clear subtrees below a node partition its free leaves. -/
theorem sum_countBelow (ha : Antichain U) (h : ℕ) :
    ∀ i, 0 < i → Nat.log2 i + h = H →
      ∑ k ∈ Finset.range (h + 1), countBelow U H i k * 2 ^ (h - k) = freePages U h i := by
  induction h with
  | zero =>
    intro i hi hH
    have hfull : Full U H i ↔ U i = false := by
      rw [full_iff_clear, ← clear_zero_iff, ← hH]
      simp
    cases hu : U i <;> simp [countBelow, freePages, hfull, hu]
  | succ h ih =>
    intro i hi hH
    have hHi : H - Nat.log2 i = h + 1 := by omega
    rw [Finset.sum_range_succ']
    by_cases hblock : Full U H i ∨ U i = true
    · -- everything strictly below is shadowed, so only `i` itself can count
      have hzero : ∀ k ∈ Finset.range (h + 1),
          countBelow U H i (k + 1) * 2 ^ (h + 1 - (k + 1)) = 0 := by
        intro k hk
        rw [Finset.mem_range] at hk
        rw [countBelow_succ_eq_zero ha hi (by omega) hblock, Nat.zero_mul]
      rw [Finset.sum_eq_zero hzero, countBelow, Nat.zero_add]
      rcases hblock with hf | hu
      · rw [if_pos hf]
        rw [full_iff_clear, hHi] at hf
        rw [freePages_of_clear hf]
        simp
      · have hf : ¬ Full U H i := by
          rw [full_iff_clear]
          intro hc
          simp [hc.self] at hu
        simp [if_neg hf, freePages, hu]
    · push Not at hblock
      obtain ⟨hf, hu⟩ := hblock
      have hu' : U i = false := by simpa using hu
      have hl := ih (2 * i) (by omega) (by
        have := log2_two_mul_add hi (c := 0) (by omega)
        rw [Nat.add_zero] at this
        omega)
      have hr := ih (2 * i + 1) (by omega) (by
        have := log2_two_mul_add hi (c := 1) (by omega)
        omega)
      have hsplit : ∀ k ∈ Finset.range (h + 1),
          countBelow U H i (k + 1) * 2 ^ (h + 1 - (k + 1))
            = countBelow U H (2 * i) k * 2 ^ (h - k)
              + countBelow U H (2 * i + 1) k * 2 ^ (h - k) := by
        intro k _
        rw [countBelow_succ_eq_add hi hu' hf, Nat.add_mul, Nat.add_sub_add_right]
      rw [Finset.sum_congr rfl hsplit, Finset.sum_add_distrib, hl, hr]
      simp [countBelow, hf, freePages, hu']

theorem countBelow_one (U : ℕ → Bool) (H k : ℕ) : countBelow U H 1 k = freeCount U H k := by
  cases k with
  | zero => simp [freeCount_zero, countBelow, tally, Counted]
  | succ k =>
    rw [countBelow, freeCount_eq_sum, Nat.one_mul, Nat.add_comm 1 1,
      ← Nat.pow_succ']

/-- **The weighted sum of the maximal clear subtrees is the number of free
leaves.** -/
theorem sum_freeCount (ha : Antichain U) (H : ℕ) :
    ∑ d ∈ Finset.range (H + 1), freeCount U H d * 2 ^ (H - d) = freePages U H 1 := by
  have hlog : Nat.log2 1 = 0 := by decide
  rw [← sum_countBelow (H := H) ha H 1 one_pos (by omega)]
  exact Finset.sum_congr rfl (fun d _ => by rw [countBelow_one])

end HeapTree
