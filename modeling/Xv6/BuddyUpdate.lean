/-
# `update_node_free_cnt` along the path to the root

After one node of a block has been taken or given back, `update_node_free_cnt`
walks from its head to the root.  At each level it subtracts the counts of the
node and its sibling, recomputes `maxFreePage`, goes on upwards, and adds the
counts again on the way back.

`PathChange U V i` collects what the walk from `i` needs to know about the used
nodes before (`U`) and after (`V`).  `updateNodeFreeCnt_spec` then says that the
walk turns the values for `U` on the path into those for `V`, and the counts of
the depths on the path with them.
-/
import Xv6.BuddyInit

open HeapTree

namespace Xv6.Buddy

open Function

/-! ## The counting check -/

/-- What `check_node_block_counting` computes from the values `m` of
`maxFreePage`. -/
def checkVal (m : ℕ → ℕ) (i : ℕ) : ℕ :=
  if m i = nodeSize i ∧ (i = 1 ∨ m (i / 2) ≠ nodeSize (i / 2)) then 1 else 0

theorem log2_eq_zero_iff {i : ℕ} (hi : 0 < i) : Nat.log2 i = 0 ↔ i = 1 := by
  have h := Finset.mem_Ico.mp (mem_Ico_log2 hi)
  constructor
  · intro h0
    rw [h0] at h
    omega
  · rintro rfl
    decide

section

variable {s : State} {b : ℕ} {m : ℕ → ℕ} {u : ℕ → Bool} {free : ℕ} {fbs : ℕ → ℕ}

theorem checkNodeBlockCounting_eq (hr : BlockRep s b m u free fbs) {i : ℕ} (hi : 0 < i)
    (hi' : i < 1024) : checkNodeBlockCounting s (1024 * b + i) = .ok (checkVal m i) := by
  have hdepth := log2_eq_zero_iff hi
  unfold checkNodeBlockCounting checkVal
  rw [hr.node i hi hi']
  by_cases h1 : i = 1
  · subst h1
    by_cases hm : m 1 = nodeSize 1 <;> simp [blockNode, hm, hdepth]
  · have hparent := hr.node (i / 2) (by omega) (by omega)
    by_cases hm : m i = nodeSize i
    · by_cases hp : m (i / 2) = nodeSize (i / 2) <;>
        simp [blockNode, hm, hdepth, h1, hparent, hp]
    · simp [blockNode, hm]

/-- The counts at a node with a head: both children of the head are looked at. -/
theorem changeCounts_of_head (hr : BlockRep s b m u free fbs) (op : ℕ → ℕ → ℕ) {i : ℕ}
    (hi : 2 ≤ i) (hi' : i < 1024) :
    ∃ s', changeCounts op s (1024 * b + i) b = .ok s'
      ∧ BlockRep s' b m u free (update fbs (Nat.log2 i)
          (op (op (fbs (Nat.log2 i)) (checkVal m (2 * (i / 2)))) (checkVal m (2 * (i / 2) + 1))))
      ∧ SameOff b s s' := by
  obtain ⟨hr₁, hs₁⟩ := hr.changeBySize op (Nat.log2 i) (checkVal m (2 * (i / 2)))
  obtain ⟨hr₂, hs₂⟩ := hr₁.changeBySize op (Nat.log2 i) (checkVal m (2 * (i / 2) + 1))
  refine ⟨_, ?_, ?_, hs₁.trans hs₂⟩
  · have hne : ¬ i = 1 := by omega
    have hlt : i / 2 < 512 := by omega
    have hhead := hr.node (i / 2) (by omega) (by omega)
    have hhead₁ := hr₁.node (i / 2) (by omega) (by omega)
    unfold changeCounts
    rw [hr.node i (by omega) hi']
    simp only [blockNode, hne, if_false, hhead, hlt, if_true, deref_some, ok_bind,
      checkNodeBlockCounting_eq hr (i := 2 * (i / 2)) (by omega) (by omega), hhead₁,
      checkNodeBlockCounting_eq hr₁ (i := 2 * (i / 2) + 1) (by omega) (by omega)]
    rfl
  · rw [update_self, update_idem] at hr₂
    exact hr₂

theorem changeCounts_root (hr : BlockRep s b m u free fbs) (op : ℕ → ℕ → ℕ) :
    ∃ s', changeCounts op s (1024 * b + 1) b = .ok s'
      ∧ BlockRep s' b m u free (update fbs 0 (op (fbs 0) (checkVal m 1)))
      ∧ SameOff b s s' := by
  obtain ⟨hr₁, hs₁⟩ := hr.changeBySize op 0 (checkVal m 1)
  refine ⟨_, ?_, hr₁, hs₁⟩
  have hlog : Nat.log2 1 = 0 := by decide
  unfold changeCounts
  rw [hr.node 1 one_pos (by omega)]
  simp only [blockNode, if_true, checkNodeBlockCounting_eq hr one_pos (by omega : 1 < 1024),
    ok_bind, hlog]
  rfl

theorem refreshMaxFree_eq (hr : BlockRep s b m u free fbs) {i : ℕ} (hi : 0 < i) (hi' : i < 512) :
    ∃ s', refreshMaxFree s (1024 * b + i) = .ok s'
      ∧ BlockRep s' b (update m i (combine (nodeSize i) (m (2 * i)) (m (2 * i + 1))))
          u free fbs
      ∧ SameOff b s s' := by
  obtain ⟨hr₁, hs₁⟩ := hr.setNode hi (by omega)
    (combine (nodeSize i) (m (2 * i)) (m (2 * i + 1))) (u i)
  rw [update_eq_self] at hr₁
  refine ⟨_, ?_, hr₁, hs₁⟩
  have hlog : Nat.log2 i ≠ 9 := by
    have := (log2_lt_nine_iff hi).mpr hi'
    omega
  have hmax : ∀ l r : ℕ, (if l < r then r else l) = max l r := by
    intro l r
    split_ifs <;> omega
  unfold refreshMaxFree
  rw [hr.node i hi (by omega)]
  simp only [blockNode, standartDepth, ne_eq, hlog, not_false_eq_true, if_true, hi',
    deref_some, ok_bind, hr.node (2 * i) (by omega) (by omega),
    hr.node (2 * i + 1) (by omega) (by omega), hmax, combine]
  split_ifs <;> rfl

end

/-! ## What changes along the path -/

/-- The used nodes change from `U` to `V` at a child of `i`: no node on the way from
`i` to the root is used before or after, the siblings of these nodes keep their
value, and the count of each depth changes at one pair of siblings only. -/
structure PathChange (U V : ℕ → Bool) (i : ℕ) : Prop where
  oldOff : ∀ t, U (i / 2 ^ t) = false
  newOff : ∀ t, V (i / 2 ^ t) = false
  sibling : ∀ t j, 2 ≤ j → j / 2 = i / 2 ^ (t + 1) → j ≠ i / 2 ^ t → nodeFree U j = nodeFree V j
  count : ∀ t, 2 ≤ i / 2 ^ t →
    freeCount V treeHeight (Nat.log2 (i / 2 ^ t))
        + (tally U treeHeight (2 * (i / 2 ^ (t + 1)))
          + tally U treeHeight (2 * (i / 2 ^ (t + 1)) + 1))
      = freeCount U treeHeight (Nat.log2 (i / 2 ^ t))
        + (tally V treeHeight (2 * (i / 2 ^ (t + 1)))
          + tally V treeHeight (2 * (i / 2 ^ (t + 1)) + 1))

theorem div_two_div_two_pow (i t : ℕ) : i / 2 / 2 ^ t = i / 2 ^ (t + 1) := by
  rw [Nat.div_div_eq_div_mul, Nat.mul_comm, ← pow_succ]

namespace PathChange

variable {U V : ℕ → Bool} {i : ℕ}

theorem symm (h : PathChange U V i) : PathChange V U i :=
  ⟨h.newOff, h.oldOff, fun t j hj hp hne => (h.sibling t j hj hp hne).symm,
    fun t ht => (h.count t ht).symm⟩

/-- The part of the path above the first step. -/
theorem half (h : PathChange U V i) : PathChange U V (i / 2) := by
  refine ⟨fun t => ?_, fun t => ?_, fun t j hj hp hne => ?_, fun t ht => ?_⟩
  · rw [div_two_div_two_pow]
    exact h.oldOff (t + 1)
  · rw [div_two_div_two_pow]
    exact h.newOff (t + 1)
  · rw [div_two_div_two_pow] at hp hne
    exact h.sibling (t + 1) j hj hp hne
  · rw [div_two_div_two_pow] at ht ⊢
    rw [div_two_div_two_pow]
    exact h.count (t + 1) ht

end PathChange

theorem full_iff_nodeFree (U : ℕ → Bool) (i : ℕ) :
    Full U treeHeight i ↔ nodeFree U i = nodeSize i := Iff.rfl

/-- On correct values the check of the code counts what `tally` counts, provided
the head is not used. -/
theorem checkVal_eq_tally {U : ℕ → Bool} {m : ℕ → ℕ} {j : ℕ} (hj : m j = nodeFree U j)
    (hp : j ≠ 1 → m (j / 2) = nodeFree U (j / 2) ∧ U (j / 2) = false) :
    checkVal m j = tally U treeHeight j := by
  refine if_congr ?_ rfl rfl
  rw [Counted, full_iff_nodeFree, full_iff_nodeFree, hj]
  by_cases h1 : j = 1
  · simp [h1]
  · obtain ⟨hp1, hp2⟩ := hp h1
    simp [h1, hp1, hp2]

theorem nodeFree_eq_combine {V : ℕ → Bool} {i : ℕ} (hi : 0 < i) (hi' : i < 512)
    (hV : V i = false) :
    nodeFree V i = combine (nodeSize i) (nodeFree V (2 * i)) (nodeFree V (2 * i + 1)) := by
  have hlog := (log2_lt_nine_iff hi).mpr hi'
  have h0 := log2_two_mul_add hi (c := 0) (by omega)
  have h1 := log2_two_mul_add hi (c := 1) (by omega)
  rw [Nat.add_zero] at h0
  have hh : treeHeight - Nat.log2 i = (treeHeight - (Nat.log2 i + 1)) + 1 := by
    unfold treeHeight standartDepth
    omega
  unfold nodeFree nodeSize
  rw [h0, h1, hh, maxFree_succ_of_unmarked hV]

/-- Subtracting two old counts and adding two new ones, modulo `2 ^ 16`. -/
theorem add16_sub16_pair {x y a b c e : ℕ} (h : y + (a + b) = x + (c + e)) (hx : x < 2 ^ 16)
    (hy : y < 2 ^ 16) (ha : a ≤ 1) (hb : b ≤ 1) :
    add16 (add16 (sub16 (sub16 x a) b) c) e = y := by
  unfold add16 sub16
  omega

theorem freeCount_lt (U : ℕ → Bool) {d : ℕ} (hd : d ≤ 9) : freeCount U treeHeight d < 2 ^ 16 := by
  have h1 := freeCount_le U treeHeight d
  have h2 : 2 ^ d ≤ 2 ^ 9 := Nat.pow_le_pow_right (by omega) hd
  omega

/-! ## The walk -/

theorem updateNodeFreeCnt_root {U V : ℕ → Bool} {s : State} {b fuel free : ℕ} {m fbs : ℕ → ℕ}
    {u : ℕ → Bool} (hr : BlockRep s b m u free fbs) (hpc : PathChange U V 1)
    (hpath : m 1 = nodeFree U 1)
    (hoff : ∀ j, 1 < j → j < 1024 → m j = nodeFree V j)
    (hfbs : fbs 0 = freeCount U treeHeight 0) :
    ∃ s', updateNodeFreeCnt (fuel + 1) s (some (1024 * b + 1)) b = .ok s'
      ∧ BlockRep s' b (nodeFree V) u free
          (update fbs 0 (freeCount V treeHeight 0))
      ∧ SameOff b s s' := by
  have hV : V 1 = false := by simpa using hpc.newOff 0
  have hcU : checkVal m 1 = tally U treeHeight 1 :=
    checkVal_eq_tally hpath (fun h => absurd rfl h)
  obtain ⟨s₁, h₁, hr₁, hs₁⟩ := changeCounts_root hr sub16
  obtain ⟨s₂, h₂, hr₂, hs₂⟩ := refreshMaxFree_eq hr₁ one_pos (by omega)
  have hval : ∀ j, 0 < j → j < 1024 →
      update m 1 (combine (nodeSize 1) (m (2 * 1)) (m (2 * 1 + 1))) j = nodeFree V j := by
    intro j hj hj'
    by_cases h1 : j = 1
    · rw [h1, update_self, nodeFree_eq_combine one_pos (by omega) hV,
        hoff (2 * 1) (by omega) (by omega), hoff (2 * 1 + 1) (by omega) (by omega)]
    · rw [update_of_ne h1]
      exact hoff j (by omega) hj'
  have hr₂' := hr₂.congr (fun j hj hj' => hval j hj hj') (fun _ _ _ => rfl) rfl rfl
  obtain ⟨s₃, h₃, hr₃, hs₃⟩ := changeCounts_root hr₂' add16
  refine ⟨s₃, ?_, ?_, (hs₁.trans hs₂).trans hs₃⟩
  · have hhead : (s₂.nodesMem (1024 * b + 1)).head = none := by
      rw [hr₂.node 1 one_pos (by omega)]
      rfl
    rw [updateNodeFreeCnt, h₁, ok_bind, h₂, ok_bind, hhead]
    exact h₃
  · have hcV : checkVal (nodeFree V) 1 = tally V treeHeight 1 :=
      checkVal_eq_tally rfl (fun h => absurd rfl h)
    have h1 := tally_le_one U treeHeight 1
    have h2 := tally_le_one V treeHeight 1
    have hcount : add16 (sub16 (fbs 0) (checkVal m 1)) (checkVal (nodeFree V) 1)
        = freeCount V treeHeight 0 := by
      rw [hfbs, hcU, hcV, freeCount_zero, freeCount_zero]
      unfold add16 sub16
      omega
    rw [update_self, update_idem, hcount] at hr₃
    exact hr₃

/-- **The walk from `i` to the root.**  On the path the values still belong to `U`,
off it already to `V`; the walk brings the path and the counts of its depths to
`V`. -/
theorem updateNodeFreeCnt_spec {U V : ℕ → Bool} {b free : ℕ} {u : ℕ → Bool} (d : ℕ) :
    ∀ {fuel i : ℕ} {s : State} {m fbs : ℕ → ℕ}, Nat.log2 i = d → 0 < i → i < 512 → d < fuel →
      BlockRep s b m u free fbs → PathChange U V i →
      (∀ t, 0 < i / 2 ^ t → m (i / 2 ^ t) = nodeFree U (i / 2 ^ t)) →
      (∀ j, 0 < j → j < 1024 → (∀ t, i / 2 ^ t ≠ j) → m j = nodeFree V j) →
      (∀ e ≤ d, fbs e = freeCount U treeHeight e) →
      ∃ s', updateNodeFreeCnt fuel s (some (1024 * b + i)) b = .ok s'
        ∧ BlockRep s' b (nodeFree V) u free
            (fun e => if e ≤ d then freeCount V treeHeight e else fbs e)
        ∧ SameOff b s s' := by
  induction d with
  | zero =>
    intro fuel i s m fbs hlog hi hi' hfuel hr hpc hpath hoff hfbs
    obtain rfl := (log2_eq_zero_iff hi).mp hlog
    obtain ⟨fuel, rfl⟩ : ∃ n, fuel = n + 1 := ⟨fuel - 1, by omega⟩
    have hoff' : ∀ j, 1 < j → j < 1024 → m j = nodeFree V j := by
      intro j hj hj'
      refine hoff j (by omega) hj' (fun t ht => ?_)
      have := Nat.div_le_self 1 (2 ^ t)
      omega
    obtain ⟨s', h, hr', hs'⟩ := updateNodeFreeCnt_root hr hpc (by simpa using hpath 0)
      hoff' (hfbs 0 le_rfl)
    refine ⟨s', h, hr'.congr (fun _ _ _ => rfl) (fun _ _ _ => rfl) rfl ?_, hs'⟩
    funext e
    by_cases he : e = 0
    · simp [he]
    · simp [he]
  | succ d ih =>
    intro fuel i s m fbs hlog hi hi' hfuel hr hpc hpath hoff hfbs
    obtain ⟨fuel, rfl⟩ : ∃ n, fuel = n + 1 := ⟨fuel - 1, by omega⟩
    have hne : i ≠ 1 := by
      rintro rfl
      have : Nat.log2 1 = 0 := by decide
      omega
    have hlog2 := log2_div_two (i := i) (by omega)
    have hd9 := log2_le_nine hi (by omega)
    have hpi : m i = nodeFree U i := by simpa using hpath 0 (by simpa using hi)
    have hpp : m (i / 2) = nodeFree U (i / 2) := by
      simpa using hpath 1 (by rw [pow_one]; omega)
    have hUp : U (i / 2) = false := by simpa using hpc.oldOff 1
    have hVp : V (i / 2) = false := by simpa using hpc.newOff 1
    have hVi : V i = false := by simpa using hpc.newOff 0
    -- a node of the pair has the old value, on the path or as a sibling
    have hpair : ∀ c, c < 2 → m (2 * (i / 2) + c) = nodeFree U (2 * (i / 2) + c) := by
      intro c hc
      by_cases hci : 2 * (i / 2) + c = i
      · rw [hci, hpi]
      · rw [hpc.sibling 0 (2 * (i / 2) + c) (by omega) (by rw [zero_add, pow_one]; omega)
          (by simpa using hci)]
        refine hoff _ (by omega) (by omega) (fun t ht => ?_)
        have h1 := log2_of_div_two_pow (by omega) ht
        have h2 := log2_two_mul_add (i := i / 2) (by omega) hc
        obtain rfl : t = 0 := by omega
        rw [pow_zero, Nat.div_one] at ht
        exact hci ht.symm
    have hcU : ∀ c, c < 2 → checkVal m (2 * (i / 2) + c)
        = tally U treeHeight (2 * (i / 2) + c) := by
      intro c hc
      have hh : (2 * (i / 2) + c) / 2 = i / 2 := by omega
      exact checkVal_eq_tally (hpair c hc) (fun _ => by rw [hh]; exact ⟨hpp, hUp⟩)
    have hcV : ∀ c, c < 2 → checkVal (nodeFree V) (2 * (i / 2) + c)
        = tally V treeHeight (2 * (i / 2) + c) := by
      intro c hc
      have hh : (2 * (i / 2) + c) / 2 = i / 2 := by omega
      exact checkVal_eq_tally rfl (fun _ => by rw [hh]; exact ⟨rfl, hVp⟩)
    obtain ⟨s₁, h₁, hr₁, hs₁⟩ := changeCounts_of_head hr sub16 (i := i) (by omega) (by omega)
    obtain ⟨s₂, h₂, hr₂, hs₂⟩ := refreshMaxFree_eq hr₁ hi hi'
    have hchild : ∀ c, c < 2 → m (2 * i + c) = nodeFree V (2 * i + c) := by
      intro c hc
      refine hoff _ (by omega) (by omega) (fun t ht => ?_)
      have := Nat.div_le_self i (2 ^ t)
      omega
    have hnew : combine (nodeSize i) (m (2 * i)) (m (2 * i + 1)) = nodeFree V i := by
      rw [nodeFree_eq_combine hi hi' hVi, hchild 1 (by omega)]
      have := hchild 0 (by omega)
      rw [Nat.add_zero] at this
      rw [this]
    rw [hnew] at hr₂
    -- the upper part of the path
    obtain ⟨s₃, h₃, hr₃, hs₃⟩ := ih (i := i / 2) (by omega) (by omega) (by omega)
      (show d < fuel by omega) hr₂ hpc.half
      (by
        intro t ht
        have hle := Nat.div_le_self (i / 2) (2 ^ t)
        rw [update_of_ne (by omega)]
        rw [div_two_div_two_pow] at ht ⊢
        exact hpath (t + 1) ht)
      (by
        intro j hj hj' hjt
        by_cases hji : j = i
        · rw [hji, update_self]
        · rw [update_of_ne hji]
          refine hoff j hj hj' (fun t ht => ?_)
          cases t with
          | zero => exact hji (by simpa using ht.symm)
          | succ t => exact hjt t (by rw [div_two_div_two_pow, ht]))
      (by
        intro e he
        rw [update_of_ne (by omega)]
        exact hfbs e (by omega))
    obtain ⟨s₄, h₄, hr₄, hs₄⟩ := changeCounts_of_head hr₃ add16 (i := i) (by omega) (by omega)
    refine ⟨s₄, ?_, ?_, ((hs₁.trans hs₂).trans hs₃).trans hs₄⟩
    · have hhead : (s₂.nodesMem (1024 * b + i)).head = some (1024 * b + i / 2) := by
        rw [hr₂.node i hi (by omega)]
        simp [blockNode, hne]
      rw [updateNodeFreeCnt, h₁, ok_bind, h₂, ok_bind, hhead]
      show (updateNodeFreeCnt fuel s₂ (some (1024 * b + i / 2)) b >>= _) = _
      rw [h₃, ok_bind]
      exact h₄
    · refine hr₄.congr (fun _ _ _ => rfl) (fun _ _ _ => rfl) rfl ?_
      funext e
      by_cases he : e = d + 1
      · subst he
        have hU0 := hcU 0 (by omega)
        have hU1 := hcU 1 (by omega)
        have hV0 := hcV 0 (by omega)
        have hV1 := hcV 1 (by omega)
        rw [Nat.add_zero] at hU0 hV0
        have hcount := hpc.count 0 (by rw [pow_zero, Nat.div_one]; omega)
        rw [pow_zero, Nat.div_one, zero_add, pow_one, hlog] at hcount
        rw [hlog, update_self]
        simp only [if_neg (by omega : ¬ d + 1 ≤ d), if_pos le_rfl, update_self]
        rw [hU0, hU1, hV0, hV1, hfbs (d + 1) le_rfl]
        exact add16_sub16_pair hcount (freeCount_lt U (by omega)) (freeCount_lt V (by omega))
          (tally_le_one _ _ _) (tally_le_one _ _ _)
      · rw [hlog, update_of_ne he]
        by_cases hle : e ≤ d
        · rw [if_pos hle, if_pos (by omega)]
        · rw [if_neg hle, if_neg (by omega), update_of_ne he]

/-- The walk that `alloc_in_node` and `free_in_node` start at the head of the node
`v` they change; for the root there is nothing to do. -/
theorem updateNodeFreeCnt_head {U V : ℕ → Bool} {s : State} {b v free : ℕ} {m fbs : ℕ → ℕ}
    {u : ℕ → Bool} (hr : BlockRep s b m u free fbs) (hv : 0 < v) (hv' : v < 1024)
    (hpc : PathChange U V (v / 2))
    (hpath : ∀ t, 0 < v / 2 / 2 ^ t → m (v / 2 / 2 ^ t) = nodeFree U (v / 2 / 2 ^ t))
    (hoff : ∀ j, 0 < j → j < 1024 → (∀ t, v / 2 / 2 ^ t ≠ j) → m j = nodeFree V j)
    (hfbs : ∀ d, d < Nat.log2 v → fbs d = freeCount U treeHeight d) :
    ∃ s', updateNodeFreeCnt standartDepth s (if v = 1 then none else some (1024 * b + v / 2)) b
        = .ok s'
      ∧ BlockRep s' b (nodeFree V) u free
          (fun d => if d < Nat.log2 v then freeCount V treeHeight d else fbs d)
      ∧ SameOff b s s' := by
  by_cases h1 : v = 1
  · refine ⟨s, by rw [if_pos h1, updateNodeFreeCnt], ?_, SameOff.refl b s⟩
    have hlog : Nat.log2 v = 0 := (log2_eq_zero_iff hv).mpr h1
    refine hr.congr (fun j hj hj' => hoff j hj hj' (fun t ht => ?_)) (fun _ _ _ => rfl) rfl ?_
    · rw [h1] at ht
      simp at ht
      omega
    · funext d
      rw [if_neg (by omega)]
  · have hlog := log2_div_two (i := v) (by omega)
    have hd9 := log2_le_nine hv hv'
    have hfuel : Nat.log2 (v / 2) < standartDepth := by
      unfold standartDepth
      omega
    obtain ⟨s', h, hr', hs'⟩ := updateNodeFreeCnt_spec (Nat.log2 (v / 2)) rfl (by omega)
      (by omega) hfuel hr hpc hpath hoff
      (fun e he => hfbs e (by omega))
    refine ⟨s', by rw [if_neg h1]; exact h, ?_, hs'⟩
    refine hr'.congr (fun _ _ _ => rfl) (fun _ _ _ => rfl) rfl ?_
    funext d
    by_cases hd : d ≤ Nat.log2 (v / 2)
    · rw [if_pos hd, if_pos (by omega)]
    · rw [if_neg hd, if_neg (by omega)]

end Xv6.Buddy
