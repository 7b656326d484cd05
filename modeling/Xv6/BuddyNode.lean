/-
# Taking a node and giving it back

The two branches of the allocator that change which nodes are used.
`takeNode_spec` is the branch of `alloc_in_node` at a node that is available, and
`releaseNode_spec` the branch of `free_in_node` at a used node.  Both move the
block from the state determined by one set of used nodes to the state determined
by the other.

The direction of the single `++` or `--` of `free_by_size` at the node itself comes
from `check_node_block_counting`, evaluated before the walk when a node is taken
and after the walk when it is given back: in both cases with the node free.
-/
import Xv6.BuddyUpdate

open HeapTree

namespace Xv6.Buddy

open Function

section

variable {U : ℕ → Bool} {e k v : ℕ}

/-- A node of height `k` in a block's tree. -/
theorem nodeSize_of_avail (hH : k + e = treeHeight) (hv : Avail U e k 1 v) :
    nodeSize v = 2 ^ k := by
  unfold nodeSize
  rw [hv.log2_eq, ← hH, Nat.add_sub_cancel]

theorem lt_of_avail (hH : k + e = treeHeight) (hv : Avail U e k 1 v) : v < 1024 := by
  have h1 : 2 ^ (e + 1) ≤ 2 ^ 10 := by
    refine Nat.pow_le_pow_right (by omega) ?_
    unfold treeHeight standartDepth at hH
    omega
  exact lt_of_lt_of_le hv.lt h1

theorem nodeFree_of_avail (hH : k + e = treeHeight) (hv : Avail U e k 1 v) :
    nodeFree U v = 2 ^ k := by
  rw [← nodeSize_of_avail hH hv]
  have := hv.full
  rwa [hH] at this

/-- Off the path to `v`, and at `v` itself, the new values are easy. -/
theorem nodeFree_update (U : ℕ → Bool) {v j : ℕ}
    (hj : ∀ t, v / 2 / 2 ^ t ≠ j) :
    nodeFree (update U v true) j = if j = v then 0 else nodeFree U j := by
  split_ifs with hjv
  · subst hjv
    exact maxFree_of_marked (by simp) _
  · refine maxFree_update_of_off true _ (fun t ht => ?_)
    cases t with
    | zero => exact hjv (by simpa using ht.symm)
    | succ t => exact hj t (by rw [div_two_div_two_pow, ht])

/-- Marking an available node is a change along the path from its head. -/
theorem pathChange_of_avail (hH : k + e = treeHeight) (hv : Avail U e k 1 v) (hU : U 0 = false) :
    PathChange U (update U v true) (v / 2) := by
  have hpos := hv.pos
  have hold : ∀ t, U (v / 2 ^ (t + 1)) = false := by
    intro t
    by_cases ht : t + 1 ≤ e
    · exact hv.path (t + 1) ht
    · have hlt : v < 2 ^ (t + 1) :=
        lt_of_lt_of_le hv.lt (Nat.pow_le_pow_right (by omega) (by omega))
      rw [Nat.div_eq_of_lt hlt, hU]
  refine ⟨fun t => ?_, fun t => ?_, fun t j hj hp hne => ?_, fun t ht => ?_⟩
  · rw [div_two_div_two_pow]
    exact hold t
  · rw [div_two_div_two_pow]
    have hlt : v / 2 ^ (t + 1) < v := Nat.div_lt_self hpos (Nat.one_lt_two_pow (by omega))
    rw [update_of_ne (by omega)]
    exact hold t
  · rw [div_two_div_two_pow] at hp hne
    refine (maxFree_update_of_off true _ (fun m hm => ?_)).symm
    have h1 := log2_of_div_two_pow (by omega) hm
    have h2 := log2_of_div_two_pow (i := j / 2) (by omega) hp.symm
    have h3 := log2_div_two hj
    obtain rfl : m = t + 1 := by omega
    exact hne hm.symm
  · rw [div_two_div_two_pow] at ht ⊢
    rw [div_two_div_two_pow]
    have h1 := log2_of_div_two_pow (by omega) (rfl : v / 2 ^ (t + 1) = v / 2 ^ (t + 1))
    have h2 : 1 ≤ Nat.log2 (v / 2 ^ (t + 1)) := by
      have := log2_div_two ht
      omega
    rw [hv.log2_eq] at h1
    have hpair := freeCount_update_pair hv (d := Nat.log2 (v / 2 ^ (t + 1)) - 1)
      (p := v / 2 ^ (t + 1 + 1)) (by omega) (by congr 2; omega)
    rw [Nat.sub_add_cancel h2, hH] at hpair
    exact hpair

/-- The check at an available node: it counts unless its head is wholly free. -/
theorem checkVal_of_avail (hH : k + e = treeHeight) (hv : Avail U e k 1 v) {m : ℕ → ℕ}
    (hm : m v = nodeFree U v) (hp : v ≠ 1 → m (v / 2) = nodeFree U (v / 2)) :
    checkVal m v = if v ≠ 1 ∧ Full U treeHeight (v / 2) then 0 else 1 := by
  unfold checkVal
  rw [hm, nodeFree_of_avail hH hv, nodeSize_of_avail hH hv]
  by_cases h1 : v = 1
  · simp [h1]
  · rw [hp h1]
    by_cases hf : Full U treeHeight (v / 2)
    · have := (full_iff_nodeFree U (v / 2)).mp hf
      simp [h1, hf, this]
    · have hne : nodeFree U (v / 2) ≠ nodeSize (v / 2) := fun h =>
        hf ((full_iff_nodeFree U (v / 2)).mpr h)
      simp [h1, hf, hne]

/-- The count at the depth of `v`, as the code changes it. -/
theorem freeCount_update_at (hH : k + e = treeHeight) (hv : Avail U e k 1 v) :
    freeCount (update U v true) treeHeight e
        + (if v ≠ 1 ∧ Full U treeHeight (v / 2) then 0 else 1)
      = freeCount U treeHeight e + (if v ≠ 1 ∧ Full U treeHeight (v / 2) then 1 else 0) := by
  by_cases h1 : v = 1
  · have he : e = 0 := by
      have := hv.log2_eq
      rw [h1] at this
      have hlog : Nat.log2 1 = 0 := by decide
      omega
    have hfull := hv.full
    have hnot := hv.not_full_update (Nat.zero_le e)
    rw [pow_zero, Nat.div_one, hH] at hnot
    rw [hH] at hfull
    subst h1
    rw [he, freeCount_zero, freeCount_zero]
    simp [tally, Counted, hfull, hnot]
  · have he : 1 ≤ e := by
      rw [← hv.log2_eq]
      have := log2_div_two (i := v) (by have := hv.pos; omega)
      omega
    have := freeCount_update_self hv he
    rw [hH] at this
    simpa [h1] using this

/-- The single step of `free_by_size` at the node, in both directions. -/
theorem change_count_of_avail (hH : k + e = treeHeight) (hv : Avail U e k 1 v) :
    (if checkVal (nodeFree U) v ≠ 0 then sub16 else add16) (freeCount U treeHeight e) 1
        = freeCount (update U v true) treeHeight e
      ∧ (if checkVal (nodeFree U) v ≠ 0 then add16 else sub16)
          (freeCount (update U v true) treeHeight e) 1 = freeCount U treeHeight e := by
  have hcnt := freeCount_update_at hH hv
  have he : e ≤ 9 := by
    unfold treeHeight standartDepth at hH
    omega
  have hb₀ := freeCount_lt U he
  have hb₁ := freeCount_lt (update U v true) he
  rw [checkVal_of_avail hH hv rfl fun _ => rfl]
  by_cases hh : v ≠ 1 ∧ Full U treeHeight (v / 2)
  · simp only [if_pos hh] at hcnt ⊢
    simp only [ne_eq, not_true_eq_false, if_false, add16, sub16]
    omega
  · simp only [if_neg hh] at hcnt ⊢
    simp only [ne_eq, one_ne_zero, not_false_eq_true, if_true, add16, sub16]
    omega

/-- The pages of the block, in both directions. -/
theorem change_pages_of_avail (hH : k + e = treeHeight) (hv : Avail U e k 1 v) :
    sub16 (freePages U treeHeight 1) (2 ^ k) = freePages (update U v true) treeHeight 1
      ∧ add16 (freePages (update U v true) treeHeight 1) (2 ^ k) = freePages U treeHeight 1 := by
  have h1 := freePages_update one_pos hv
  have h2 := freePages_le U treeHeight 1
  have h3 : 2 ^ treeHeight = 512 := by decide
  rw [hH] at h1
  rw [sub16_of_le (by omega) (by omega), add16_of_lt (by omega)]
  omega

end

/-! ## Taking a node -/

/-- **`alloc_in_node` at the node it takes.** -/
theorem takeNode_spec {s : State} {b e k v : ℕ} (M : Marking treeHeight)
    (hm : HasMarks s b M.mark) (hH : k + e = treeHeight) (hv : Avail M.mark e k 1 v) :
    ∃ s', takeNode s (1024 * b + v) b = .ok (nodeAddr s.memSeparator b v, s')
      ∧ HasMarks s' b (M.add hH hv).mark ∧ SameOff b s s' := by
  obtain rfl := hv.log2_eq
  have hpos := hv.pos
  have hlt := lt_of_avail hH hv
  have hnode := hm.node v hpos hlt
  have hcheck := checkNodeBlockCounting_eq hm hpos hlt
  -- the three writes before the walk
  obtain ⟨hr₁, hs₁⟩ := hm.changeBySize
    (if checkVal (nodeFree M.mark) v ≠ 0 then sub16 else add16) (Nat.log2 v) 1
  obtain ⟨hr₂, hs₂⟩ := hr₁.changeFree sub16 (nodeFree M.mark v)
  obtain ⟨hr₃, hs₃⟩ := hr₂.setNode hpos hlt 0 true
  have hpages := (change_pages_of_avail hH hv).1
  rw [← nodeFree_of_avail hH hv] at hpages
  obtain ⟨s₄, h₄, hr₄, hs₄⟩ := updateNodeFreeCnt_head hr₃ hpos hlt
    (pathChange_of_avail hH hv M.mark_zero)
    (by
      intro t _
      have hle := Nat.div_le_self (v / 2) (2 ^ t)
      rw [update_of_ne (by omega)])
    (by
      intro j _ _ hj
      rw [nodeFree_update M.mark hj]
      by_cases hjv : j = v
      · simp [hjv]
      · simp [hjv])
    (by
      intro d hd
      rw [update_of_ne (by omega)])
  refine ⟨s₄, ?_, ?_, ((hs₁.trans hs₂).trans hs₃).trans hs₄⟩
  · unfold takeNode
    simp only [hnode, hcheck, ok_bind]
    exact bind_eq_ok_iff.mpr ⟨s₄, h₄, rfl⟩
  · refine hr₄.congr (fun _ _ _ => rfl) (fun _ _ _ => rfl) hpages ?_
    funext d
    by_cases hd : d < Nat.log2 v
    · rw [if_pos hd]
      rfl
    · rw [if_neg hd]
      by_cases hde : d = Nat.log2 v
      · rw [hde, update_self]
        exact (change_count_of_avail hH hv).1
      · rw [update_of_ne hde]
        have := freeCount_update_deep hv (d := d) (by omega)
        rw [hH] at this
        exact this.symm

/-! ## Giving a node back -/

/-- **`free_in_node` at the node it gives back.** -/
theorem releaseNode_spec {s : State} {b v : ℕ} (M : Marking treeHeight)
    (hm : HasMarks s b M.mark) (hv : M.mark v = true) :
    ∃ s', releaseNode s (1024 * b + v) b = .ok s'
      ∧ HasMarks s' b (M.erase v).mark ∧ SameOff b s s' := by
  have hav := M.avail_erase hv
  have hle := M.log2_le hv
  have hH : treeHeight - Nat.log2 v + Nat.log2 v = treeHeight := by omega
  have hback := M.update_erase hv
  have hpos := hav.pos
  have hlt := lt_of_avail hH hav
  have hnode := hm.node v hpos hlt
  have hsize := nodeSize_of_avail hH hav
  have hfree := nodeFree_of_avail hH hav
  have hpc := (pathChange_of_avail hH hav (M.erase v).mark_zero).symm
  have hcount := (change_count_of_avail hH hav).2
  have hpages := (change_pages_of_avail hH hav).2
  rw [hback] at hpc hcount hpages
  rw [← hsize] at hpages
  obtain ⟨hr₁, hs₁⟩ := hm.setNode hpos hlt (nodeSize v) false
  obtain ⟨hr₂, hs₂⟩ := hr₁.changeFree add16 (nodeSize v)
  obtain ⟨s₃, h₃, hr₃, hs₃⟩ := updateNodeFreeCnt_head hr₂ hpos hlt hpc
    (by
      intro t _
      have hle := Nat.div_le_self (v / 2) (2 ^ t)
      rw [update_of_ne (by omega)])
    (by
      intro j _ _ hj
      have hnew := nodeFree_update (M.erase v).mark hj
      rw [hback] at hnew
      by_cases hjv : j = v
      · rw [hjv, update_self, hfree, hsize]
      · rw [update_of_ne hjv, hnew, if_neg hjv])
    (fun d _ => rfl)
  have hcheck := checkNodeBlockCounting_eq hr₃ hpos hlt
  obtain ⟨hr₄, hs₄⟩ := hr₃.changeBySize
    (if checkVal (nodeFree (M.erase v).mark) v ≠ 0 then add16 else sub16) (Nat.log2 v) 1
  refine ⟨_, ?_, ?_, ((hs₁.trans hs₂).trans hs₃).trans hs₄⟩
  · unfold releaseNode
    simp only [hnode]
    refine bind_eq_ok_iff.mpr ⟨s₃, h₃, ?_⟩
    rw [hcheck]
    rfl
  · refine hr₄.congr (fun _ _ _ => rfl) (fun _ _ _ => rfl) hpages ?_
    funext d
    by_cases hde : d = Nat.log2 v
    · rw [hde, update_self, if_neg (lt_irrefl (Nat.log2 v))]
      exact hcount
    · rw [update_of_ne hde]
      by_cases hd : d < Nat.log2 v
      · rw [if_pos hd]
      · rw [if_neg hd]
        have := freeCount_update_deep hav (d := d) (by omega)
        rw [hH, hback] at this
        exact this

end Xv6.Buddy
