/-
# Marking one node of a heap-ordered tree

`Marking H` is a set of marked nodes of a tree of height `H`, none below another:
the state of a buddy system.  `Marking.add` marks an available node and
`Marking.erase` takes a mark away, and both give a `Marking` again.

The lemmas compare the marks `U` with `update U v true` for a node `v`
that is available in `U`.  Nothing changes off the path from the root to `v`
(`maxFree_update_of_off`), the free leaves drop by the size of `v`
(`freePages_update`), and the count of each depth changes only at the pair of
siblings on the path (`freeCount_update_pair`).  Erasing a mark is the same
comparison read backwards (`Marking.avail_erase`).
-/
import Xv6.HeapTree

namespace HeapTree

open Function

/-! ## Off the path -/

theorem maxFree_update_of_off {U : ℕ → Bool} {v i : ℕ} (b : Bool) (h : ℕ)
    (hoff : ∀ m, v / 2 ^ m ≠ i) :
    maxFree (update U v b) h i = maxFree U h i := by
  refine maxFree_congr h i (fun k _ j hj => ?_)
  refine update_of_ne ?_ b U
  rintro rfl
  exact hoff k hj

theorem full_update_of_off {U : ℕ → Bool} {v i : ℕ} (b : Bool) (H : ℕ)
    (hoff : ∀ m, v / 2 ^ m ≠ i) :
    Full (update U v b) H i ↔ Full U H i := by
  rw [Full, Full, maxFree_update_of_off b _ hoff]

theorem tally_update_of_off {U : ℕ → Bool} {v j : ℕ} (b : Bool) (H : ℕ)
    (hoff : ∀ m, v / 2 ^ m ≠ j / 2) :
    tally (update U v b) H j = tally U H j := by
  have hoffj : ∀ m, v / 2 ^ m ≠ j := by
    intro m hm
    refine hoff (m + 1) ?_
    rw [pow_succ, ← Nat.div_div_eq_div_mul, hm]
  have hne : j / 2 ≠ v := by
    intro h
    exact hoff 0 (by rw [pow_zero, Nat.div_one, h])
  have hiff : Counted (update U v b) H j ↔ Counted U H j := by
    rw [Counted, Counted, full_update_of_off b H hoffj, full_update_of_off b H hoff,
      update_of_ne hne]
  exact if_congr hiff rfl rfl

/-! ## Marking an available node -/

section Mark

variable {U : ℕ → Bool} {e k v : ℕ}

theorem Avail.log2_eq (hv : Avail U e k 1 v) : Nat.log2 v = e := by
  have := log2_of_div_two_pow one_pos hv.below
  have hlog : Nat.log2 1 = 0 := by decide
  omega

theorem Avail.pos (hv : Avail U e k 1 v) : 0 < v := pos_of_div_two_pow one_pos hv.below

theorem Avail.lt (hv : Avail U e k 1 v) : v < 2 ^ (e + 1) := by
  have := Finset.mem_Ico.mp (mem_Ico_log2 hv.pos)
  rw [hv.log2_eq] at this
  exact this.2

theorem Avail.full (hv : Avail U e k 1 v) : Full U (k + e) v := by
  rw [full_iff_clear, hv.log2_eq, Nat.add_sub_cancel]
  exact hv.clear

/-- Once `v` is marked, no node on the way to it is wholly free. -/
theorem Avail.not_full_update (hv : Avail U e k 1 v) {m : ℕ} (hm : m ≤ e) :
    ¬ Full (update U v true) (k + e) (v / 2 ^ m) := by
  rw [full_iff_clear]
  intro hc
  have hlog := (log2_div_two_pow (v := v) (e := m) (by rw [hv.log2_eq]; exact hm) hv.pos).1
  have := hc m (by rw [hv.log2_eq] at hlog; omega) v rfl
  simp at this

theorem tally_update_child (hv : Avail U e k 1 v) {j : ℕ} (hj : j / 2 = v) :
    tally (update U v true) (k + e) j = tally U (k + e) j := by
  have hpos := hv.pos
  have hne : j ≠ 1 := by omega
  rw [tally_eq_zero_of_parent hne (Or.inr (by rw [hj]; simp)),
    tally_eq_zero_of_parent hne (Or.inl (by rw [hj]; exact hv.full))]

/-- Below the depth of the marked node the counts stay. -/
theorem freeCount_update_deep (hv : Avail U e k 1 v) {d : ℕ} (hd : e < d) :
    freeCount (update U v true) (k + e) d = freeCount U (k + e) d := by
  rw [freeCount_eq_sum, freeCount_eq_sum]
  refine Finset.sum_congr rfl (fun j hj => ?_)
  have hlog := log2_eq_of_mem hj
  have hj2 : 2 ≤ j := by
    by_contra hlt
    have hle : j ≤ 1 := by omega
    have hlog0 : Nat.log2 j = 0 := by
      interval_cases j <;> decide
    omega
  by_cases hjv : j / 2 = v
  · exact tally_update_child hv hjv
  · refine tally_update_of_off true _ (fun m hm => ?_)
    have h1 := log2_of_div_two_pow (by omega) hm
    have h2 := log2_div_two hj2
    rw [hv.log2_eq] at h1
    obtain rfl : m = 0 := by omega
    rw [pow_zero, Nat.div_one] at hm
    exact hjv hm.symm

/-- At depth `d + 1` on the path only the two children of the path node `p` of
depth `d` can change their count. -/
theorem freeCount_update_pair (hv : Avail U e k 1 v) {d p : ℕ} (hd : d + 1 ≤ e)
    (hp : p = v / 2 ^ (e - d)) :
    freeCount (update U v true) (k + e) (d + 1)
        + (tally U (k + e) (2 * p) + tally U (k + e) (2 * p + 1))
      = freeCount U (k + e) (d + 1)
        + (tally (update U v true) (k + e) (2 * p)
          + tally (update U v true) (k + e) (2 * p + 1)) := by
  have hlog := log2_div_two_pow (v := v) (e := e - d) (by rw [hv.log2_eq]; omega) hv.pos
  rw [← hp, hv.log2_eq] at hlog
  have hpd : p ∈ Finset.Ico (2 ^ d) (2 ^ (d + 1)) := by
    have := mem_Ico_log2 hlog.2
    rwa [show Nat.log2 p = d by omega] at this
  rw [freeCount_eq_sum, freeCount_eq_sum]
  have hmem0 := two_mul_add_mem_Ico hpd (c := 0) (by omega)
  rw [Nat.add_zero] at hmem0
  refine sum_add_pair hmem0 (two_mul_add_mem_Ico hpd (by omega)) (by omega) ?_
  intro j hj h0 h1
  have hlogj := log2_eq_of_mem hj
  have hj2 : 2 ≤ j := by
    rw [Finset.mem_Ico, pow_succ] at hj
    have : 0 < 2 ^ d := by positivity
    omega
  refine tally_update_of_off true _ (fun m hm => ?_)
  -- a path node of depth `d` is `p`, whose children were set aside
  have h2 := log2_of_div_two_pow (by omega) hm
  have h3 := log2_div_two hj2
  rw [hv.log2_eq] at h2
  have h4 : j / 2 = p := by
    rw [hp, ← hm]
    congr 2
    omega
  omega

theorem full_iff_children {H p : ℕ} (hp : 0 < p) (hlog : Nat.log2 p < H) :
    Full U H p ↔ U p = false ∧ Full U H (2 * p) ∧ Full U H (2 * p + 1) := by
  have h0 := log2_two_mul_add hp (c := 0) (by omega)
  have h1 := log2_two_mul_add hp (c := 1) (by omega)
  rw [Nat.add_zero] at h0
  rw [full_iff_clear, full_iff_clear, full_iff_clear, h0, h1,
    show H - Nat.log2 p = (H - (Nat.log2 p + 1)) + 1 by omega]
  exact clear_succ_iff U _ p

/-- At the depth of the marked node itself: it is no longer counted, unless its head
was wholly free, and then its sibling is counted from now on. -/
theorem freeCount_update_self (hv : Avail U e k 1 v) (he : 1 ≤ e) :
    freeCount (update U v true) (k + e) e
        + (if Full U (k + e) (v / 2) then 0 else 1)
      = freeCount U (k + e) e + (if Full U (k + e) (v / 2) then 1 else 0) := by
  have hlog := hv.log2_eq
  have hv2 : 2 ≤ v := by
    by_contra hlt
    obtain h1 : v = 1 := by have := hv.pos; omega
    rw [h1] at hlog
    have : Nat.log2 1 = 0 := by decide
    omega
  have hlogp := log2_div_two hv2
  have hpair := freeCount_update_pair hv (d := e - 1) (p := v / 2) (by omega)
    (by rw [show e - (e - 1) = 1 by omega, pow_one])
  rw [show e - 1 + 1 = e by omega] at hpair
  have hup : U (v / 2) = false := by
    have := hv.path 1 he
    rwa [pow_one] at this
  have hfp : ¬ Full (update U v true) (k + e) (v / 2) := by
    have := hv.not_full_update he
    rwa [pow_one] at this
  have hfv : ¬ Full (update U v true) (k + e) v := by
    have := hv.not_full_update (Nat.zero_le e)
    rwa [pow_zero, Nat.div_one] at this
  have hup' : update U v true (v / 2) = false := by
    rw [update_of_ne (by omega), hup]
  have hparent := full_iff_children (U := U) (H := k + e) (p := v / 2) (by omega) (by omega)
  have hv1 : v ≠ 1 := by omega
  have hself : tally U (k + e) v = if Full U (k + e) (v / 2) then 0 else 1 := by
    by_cases hf : Full U (k + e) (v / 2) <;> simp [tally, Counted, hv.full, hf, hup, hv1]
  have hself' : tally (update U v true) (k + e) v = 0 := by
    simp [tally, Counted, hfv]
  -- the sibling counts before never, and after exactly when the head was whole
  have hsib : ∀ w, w ≠ v → w / 2 = v / 2 → (Full U (k + e) (v / 2) ↔ Full U (k + e) w) →
      tally U (k + e) w = 0
        ∧ tally (update U v true) (k + e) w
          = if Full U (k + e) (v / 2) then 1 else 0 := by
    intro w hwv hw hfw
    have hoff : ∀ m, v / 2 ^ m ≠ w := by
      intro m hm
      have h1 := log2_of_div_two_pow (by omega) hm
      have h2 := log2_div_two (i := w) (by omega)
      rw [hw] at h2
      obtain rfl : m = 0 := by omega
      rw [pow_zero, Nat.div_one] at hm
      exact hwv hm.symm
    have hfw' := full_update_of_off (U := U) true (k + e) hoff
    have hw1 : w ≠ 1 := by omega
    constructor
    · refine if_neg ?_
      rintro ⟨hf, h1 | ⟨h1, -⟩⟩
      · exact hw1 h1
      · exact h1 (by rw [hw]; exact hfw.mpr hf)
    · by_cases hf : Full U (k + e) (v / 2)
      · simp [tally, Counted, hw, hfw', hfw.mp hf, hfp, hup', hf]
      · have hf' : ¬ Full U (k + e) w := fun h => hf (hfw.mpr h)
        simp [tally, Counted, hfw', hf', hf]
  rcases Nat.mod_two_eq_zero_or_one v with hpar | hpar
  · have hv0 : 2 * (v / 2) = v := by omega
    have hfull : Full U (k + e) (v / 2) ↔ Full U (k + e) (2 * (v / 2) + 1) := by
      rw [hparent, hv0]
      exact ⟨fun h => h.2.2, fun h => ⟨hup, hv.full, h⟩⟩
    obtain ⟨h1, h2⟩ := hsib (2 * (v / 2) + 1) (by omega) (by omega) hfull
    rw [h1, h2, hv0, hself, hself'] at hpair
    omega
  · have hvodd : 2 * (v / 2) + 1 = v := by omega
    have hfull : Full U (k + e) (v / 2) ↔ Full U (k + e) (2 * (v / 2)) := by
      rw [hparent, hvodd]
      exact ⟨fun h => h.2.1, fun h => ⟨hup, h, hv.full⟩⟩
    obtain ⟨h1, h2⟩ := hsib (2 * (v / 2)) (by omega) (by omega) hfull
    rw [h1, h2, hvodd, hself, hself'] at hpair
    omega

theorem freePages_update {i : ℕ} (hi : 0 < i) (hv : Avail U e k i v) :
    freePages (update U v true) (k + e) i + 2 ^ k = freePages U (k + e) i := by
  induction e generalizing i with
  | zero =>
    obtain ⟨rfl, hc⟩ := (avail_zero_iff U k i v).mp hv
    have h0 : freePages (update U v true) (k + 0) v = 0 := by
      cases k <;> simp [freePages]
    rw [h0, Nat.zero_add, Nat.add_zero, freePages_of_clear hc]
  | succ e ih =>
    obtain ⟨hui, hor⟩ := (avail_succ_iff U e k i v).mp hv
    have hbelow := hv.below
    have hlt : v / 2 ^ (e + 1) < v :=
      Nat.div_lt_self (pos_of_div_two_pow hi hbelow) (Nat.one_lt_two_pow (by omega))
    have hui' : update U v true i = false := by
      rw [update_of_ne (by omega), hui]
    -- the sibling subtree without `v` keeps its leaves
    have hother : ∀ c, v / 2 ^ e ≠ 2 * i + c → c < 2 →
        freePages (update U v true) (k + e) (2 * i + c)
          = freePages U (k + e) (2 * i + c) := by
      intro c hne hc
      refine freePages_congr _ _ (fun m _ j hj => update_of_ne ?_ _ _)
      rintro rfl
      have h1 := log2_of_div_two_pow (by omega) hj
      have h2 := log2_of_div_two_pow hi hbelow
      have h3 := log2_two_mul_add hi hc
      obtain rfl : m = e := by omega
      exact hne hj
    rw [← Nat.add_assoc, freePages_succ_of_unmarked hui, freePages_succ_of_unmarked hui']
    rcases hor with h | h
    · have h1 := ih (by omega) h
      have h2 := hother 1 (by rw [h.below]; omega) (by omega)
      omega
    · have h1 := ih (by omega) h
      have h2 := hother 0 (by rw [h.below]; omega) (by omega)
      rw [Nat.add_zero] at h2
      omega

end Mark

/-! ## Markings -/

/-- A set of marked nodes of the tree of height `H`, none of them below another. -/
@[ext]
structure Marking (H : ℕ) where
  mark : ℕ → Bool
  /-- Marked nodes belong to the tree. -/
  inTree : ∀ j, mark j = true → 0 < j ∧ j < 2 ^ (H + 1)
  /-- No marked node lies below another one. -/
  antichain : Antichain mark

namespace Marking

variable {H : ℕ}

/-- Nothing is marked. -/
def empty (H : ℕ) : Marking H where
  mark := fun _ => false
  inTree := by intro j hj; simp at hj
  antichain := by intro j k hj; simp at hj

theorem clear_empty (h i : ℕ) : Clear (empty H).mark h i := fun _ _ _ _ => rfl

theorem mark_zero (M : Marking H) : M.mark 0 = false := by
  by_contra h
  have := (M.inTree 0 (by simpa using h)).1
  omega

theorem log2_le (M : Marking H) {j : ℕ} (hj : M.mark j = true) : Nat.log2 j ≤ H := by
  obtain ⟨h1, h2⟩ := M.inTree j hj
  have := (Finset.mem_Ico.mp (mem_Ico_log2 h1)).1
  have hlt : 2 ^ Nat.log2 j < 2 ^ (H + 1) := by omega
  have := (Nat.pow_lt_pow_iff_right (by omega : 1 < 2)).mp hlt
  omega

/-- Mark a node that is available from the root. -/
def add (M : Marking H) {e k v : ℕ} (hH : k + e = H) (hv : Avail M.mark e k 1 v) : Marking H where
  mark := update M.mark v true
  inTree := by
    intro j hj
    by_cases hjv : j = v
    · subst hjv
      refine ⟨hv.pos, lt_of_lt_of_le hv.lt (Nat.pow_le_pow_right (by omega) (by omega))⟩
    · rw [update_of_ne hjv] at hj
      exact M.inTree j hj
  antichain := by
    intro j m hj hm
    have hlt : ∀ i, 0 < i → i / 2 ^ m < i := fun i hi =>
      Nat.div_lt_self hi (Nat.one_lt_two_pow (by omega))
    by_cases hjv : j = v
    · subst hjv
      have := hlt j hv.pos
      rw [update_of_ne (by omega)]
      by_cases hme : m ≤ e
      · exact hv.path m hme
      · have hlt' : j < 2 ^ m :=
          lt_of_lt_of_le hv.lt (Nat.pow_le_pow_right (by omega) (by omega))
        rw [Nat.div_eq_of_lt hlt', M.mark_zero]
    · rw [update_of_ne hjv] at hj
      by_cases hjm : j / 2 ^ m = v
      · -- `j` would be a marked node below `v`, but `v` was clear
        have h1 := log2_of_div_two_pow hv.pos hjm
        have h2 := M.log2_le hj
        rw [hv.log2_eq] at h1
        have := hv.clear m (by omega) j hjm
        rw [hj] at this
        exact Bool.noConfusion this
      · rw [update_of_ne hjm]
        exact M.antichain j m hj hm

/-- Take the mark of a node away. -/
def erase (M : Marking H) (v : ℕ) : Marking H where
  mark := update M.mark v false
  inTree := by
    intro j hj
    refine M.inTree j ?_
    by_cases hjv : j = v
    · simp [hjv] at hj
    · rwa [update_of_ne hjv] at hj
  antichain := by
    intro j m hj hm
    have hj' : M.mark j = true := by
      by_cases hjv : j = v
      · simp [hjv] at hj
      · rwa [update_of_ne hjv] at hj
    by_cases hjm : j / 2 ^ m = v
    · simp [hjm]
    · rw [update_of_ne hjm]
      exact M.antichain j m hj' hm

theorem avail_erase (M : Marking H) {v : ℕ} (hv : M.mark v = true) :
    Avail (M.erase v).mark (Nat.log2 v) (H - Nat.log2 v) 1 v := by
  obtain ⟨hpos, -⟩ := M.inTree v hv
  have hbelow : v / 2 ^ Nat.log2 v = 1 := by
    obtain ⟨h1, h2⟩ := Finset.mem_Ico.mp (mem_Ico_log2 hpos)
    rw [Nat.div_eq_iff (by positivity)]
    rw [pow_succ] at h2
    omega
  refine ⟨hbelow, fun m _ j hj => ?_, fun m _ => ?_⟩
  · by_cases hjv : j = v
    · simp [erase, hjv]
    · have hm : 0 < m := by
        rcases Nat.eq_zero_or_pos m with rfl | h
        · rw [pow_zero, Nat.div_one] at hj
          exact absurd hj hjv
        · exact h
      show update M.mark v false j = false
      rw [update_of_ne hjv]
      by_contra hmark
      have := M.antichain j m (by simpa using hmark) hm
      rw [hj, hv] at this
      exact Bool.noConfusion this
  · show update M.mark v false (v / 2 ^ m) = false
    rcases Nat.eq_zero_or_pos m with rfl | hm
    · simp
    · have hlt : v / 2 ^ m < v := Nat.div_lt_self hpos (Nat.one_lt_two_pow (by omega))
      rw [update_of_ne (by omega)]
      exact M.antichain v m hv hm

theorem update_erase (M : Marking H) {v : ℕ} (hv : M.mark v = true) :
    update (M.erase v).mark v true = M.mark := by
  rw [erase, update_idem]
  exact update_eq_self_iff.mpr hv.symm

/-- A counted node lies below no marked node. -/
theorem counted_iff (M : Marking H) {i : ℕ} (hi : 0 < i) (hH : Nat.log2 i ≤ H) :
    Counted M.mark H i ↔
      Full M.mark H i ∧ (∀ m, 0 < m → M.mark (i / 2 ^ m) = false) ∧
        (i ≠ 1 → ¬ Full M.mark H (i / 2)) := by
  constructor
  · rintro ⟨hf, hor⟩
    refine ⟨hf, fun m hm => ?_, fun h1 => ?_⟩
    · rcases hor with rfl | ⟨hpf, hpu⟩
      · rw [Nat.div_eq_of_lt (Nat.one_lt_two_pow (by omega)), M.mark_zero]
      · -- a marked ancestor other than the parent would leave the parent clear
        by_contra hmark
        have hmark' : M.mark (i / 2 ^ m) = true := by simpa using hmark
        obtain ⟨n, rfl⟩ : ∃ n, m = n + 1 := ⟨m - 1, by omega⟩
        have hanc : i / 2 / 2 ^ n = i / 2 ^ (n + 1) := by
          rw [Nat.div_div_eq_div_mul, Nat.mul_comm, ← pow_succ]
        have hapos := (M.inTree _ hmark').1
        rw [← hanc] at hmark' hapos
        cases n with
        | zero =>
          rw [pow_zero, Nat.div_one] at hmark'
          rw [hmark'] at hpu
          exact Bool.noConfusion hpu
        | succ n =>
          apply hpf
          have hlog := log2_of_div_two_pow hapos rfl
          have h2 : 2 ≤ i := by
            by_contra hlt
            have : i / 2 = 0 := by omega
            rw [this] at hapos
            simp at hapos
          have hlog2 := log2_div_two h2
          rw [full_iff_clear]
          rcases (div_two_pow_succ_eq_iff (i / 2) n _).mp rfl with h3 | h3
          · exact ((M.antichain.clear_child hmark' (H - Nat.log2 (i / 2) + n) 0
              (by omega)).below (by omega) h3).mono (by omega)
          · exact ((M.antichain.clear_child hmark' (H - Nat.log2 (i / 2) + n) 1
              (by omega)).below (by omega) h3).mono (by omega)
    · rcases hor with h | ⟨hpf, -⟩
      · exact absurd h h1
      · exact hpf
  · rintro ⟨hf, hm, hp⟩
    refine ⟨hf, ?_⟩
    by_cases h1 : i = 1
    · exact Or.inl h1
    · refine Or.inr ⟨hp h1, ?_⟩
      have := hm 1 one_pos
      rwa [pow_one] at this

end Marking

end HeapTree
