/-
# `buddy_alloc`

On a block whose state is determined by its used nodes, `alloc_in_node` goes down
to `firstFit` and takes it.  It falls into the right child without a check; what
makes that safe is that a node with room for the request has a child with room for
it (`avail_firstFit`).

`buddyAlloc_full` and `buddyAlloc_room` are the two outcomes of `buddy_alloc` for a
power of two: no block has room, or the first block with room gives its first fit.
-/
import Xv6.BuddyNode

open HeapTree

namespace Xv6.Buddy

open Function

variable {s : State} {b k kend : ℕ} {U : ℕ → Bool}

/-! ## One block -/

theorem lt_1024_of_log2 {i : ℕ} (h : Nat.log2 i ≤ treeHeight) : i < 1024 := by
  rcases Nat.eq_zero_or_pos i with rfl | hi
  · omega
  · have h1 := (Finset.mem_Ico.mp (mem_Ico_log2 hi)).2
    have h2 : 2 ^ (Nat.log2 i + 1) ≤ 2 ^ (treeHeight + 1) :=
      Nat.pow_le_pow_right (by omega) (by omega)
    exact lt_of_lt_of_le h1 h2

/-- **The descent of `alloc_in_node`** ends at the first fit and never meets a null
child. -/
theorem allocInNode_eq {e i fuel : ℕ} (hm : HasMarks s b U) (hi : 0 < i)
    (hlog : k + e + Nat.log2 i
      = treeHeight) (hfuel : e < fuel) (hfit : 2 ^ k ≤ maxFree U (k + e) i) :
    allocInNode fuel s (1024 * b + i) (2 ^ k) b = takeNode s (1024 * b + firstFit U k e i) b := by
  induction e generalizing i fuel with
  | zero =>
    obtain ⟨fuel, rfl⟩ : ∃ f, fuel = f + 1 := ⟨fuel - 1, by omega⟩
    have hnode := hm.node i hi (lt_1024_of_log2 (by omega))
    have hk : treeHeight - Nat.log2 i = k := by omega
    have htake : nodeFree U i = 2 ^ k ∧ nodeSize i = 2 ^ k := by
      unfold nodeFree nodeSize
      rw [hk]
      exact ⟨le_antisymm (maxFree_le U k i) hfit, rfl⟩
    unfold allocInNode
    simp only [hnode]
    exact if_pos htake
  | succ e ih =>
    obtain ⟨fuel, rfl⟩ : ∃ f, fuel = f + 1 := ⟨fuel - 1, by omega⟩
    have hi' : i < 512 := (log2_lt_nine_iff hi).mp (by unfold treeHeight standartDepth at hlog; omega)
    have hnode := hm.node i hi (by omega)
    have hleft := hm.node (2 * i) (by omega) (by omega)
    have hlog0 := log2_two_mul_add hi (c := 0) (by omega)
    have hlog1 := log2_two_mul_add hi (c := 1) (by omega)
    rw [Nat.add_zero] at hlog0
    -- the node is larger than the request, so it is not taken itself
    have hbig : ¬ (nodeFree U i = 2 ^ k ∧ nodeSize i = 2 ^ k) := by
      rintro ⟨-, hsize⟩
      have := Nat.pow_right_injective (le_refl 2) hsize
      omega
    have hleftFree : nodeFree U (2 * i) = maxFree U (k + e) (2 * i) := by
      unfold nodeFree
      rw [hlog0]
      congr 1
      omega
    have hstep : allocInNode (fuel + 1) s (1024 * b + i) (2 ^ k) b
        = if maxFree U (k + e) (2 * i) ≥ 2 ^ k then
            allocInNode fuel s (1024 * b + 2 * i) (2 ^ k) b
          else allocInNode fuel s (1024 * b + (2 * i + 1)) (2 ^ k) b := by
      conv_lhs => unfold allocInNode
      simp only [hnode]
      refine (if_neg hbig).trans ?_
      simp only [blockNode, if_pos hi', deref_some, ok_bind, hleft, hleftFree]
    rw [hstep, firstFit]
    split_ifs with hroom
    · exact ih (by omega) (by omega) (by omega) hroom
    · -- the left child has no room, so the fit of `i` lies on the right
      refine ih (by omega) (by omega) (by omega) ?_
      obtain ⟨j, hj⟩ := (two_pow_le_maxFree_iff U (e + 1) k i).mp hfit
      obtain ⟨-, hor⟩ := (avail_succ_iff U e k i j).mp hj
      rcases hor with hor | hor
      · exact absurd ((two_pow_le_maxFree_iff U e k (2 * i)).mpr ⟨j, hor⟩) hroom
      · exact (two_pow_le_maxFree_iff U e k (2 * i + 1)).mpr ⟨j, hor⟩

theorem HasMarks.root (hm : HasMarks s b U) :
    (s.blocks b).root = 1024 * b + 1 ∧
      s.nodesMem (1024 * b + 1) = blockNode s.memSeparator b 1 (nodeFree U 1) (U 1) :=
  ⟨by rw [hm.block], hm.node 1 one_pos (by omega)⟩

theorem allocInBlock_full (hm : HasMarks s b U) (hfull : nodeFree U 1 < 2 ^ k) :
    allocInBlock s b (2 ^ k) = .ok (0, s) := by
  obtain ⟨hroot, hnode⟩ := hm.root
  unfold allocInBlock
  simp only [hroot, hnode]
  exact if_pos hfull

theorem allocInBlock_room (M : Marking treeHeight) (hm : HasMarks s b M.mark) (hk : k ≤ treeHeight)
    (hroom : 2 ^ k ≤ nodeFree M.mark 1) :
    ∃ s', ∃ hv : Avail M.mark (treeHeight - k) k 1 (firstFit M.mark k (treeHeight - k) 1),
      allocInBlock s b (2 ^ k)
          = .ok (nodeAddr s.memSeparator b (firstFit M.mark k (treeHeight - k) 1), s')
        ∧ HasMarks s' b (M.add (Nat.add_sub_of_le hk) hv).mark ∧ SameOff b s s' := by
  obtain ⟨hroot, hnode⟩ := hm.root
  have hH := Nat.add_sub_of_le hk
  have hfit : 2 ^ k ≤ maxFree M.mark (k + (treeHeight - k)) 1 := by
    rw [hH]
    exact hroom
  have hv := avail_firstFit hfit
  obtain ⟨s', hrun, hmarks, hoff⟩ := takeNode_spec M hm hH hv
  refine ⟨s', hv, ?_, hmarks, hoff⟩
  have hlog : Nat.log2 1 = 0 := by decide
  rw [← hrun, ← allocInNode_eq hm one_pos (by omega) (Nat.lt_succ_of_le (Nat.sub_le _ _)) hfit]
  unfold allocInBlock
  simp only [hroot, hnode]
  exact if_neg (Nat.not_lt.mpr hroom)

/-! ## All blocks -/

/-- Replacing the marks of one block. -/
theorem AllocRep.update {s' : State} {M : ℕ → Marking treeHeight} {N : Marking treeHeight}
    (h : AllocRep kend s M) (hb : b < cntMemBlocks) (hm : HasMarks s' b N.mark)
    (hoff : SameOff b s s') : AllocRep kend s' (update M b N) := by
  refine ⟨hoff.sep.trans h.sep, hoff.freeRoot.trans h.freeRoot, fun c hc => ?_, fun q hq => ?_,
    fun c hc => ?_⟩
  · by_cases hcb : c = b
    · subst hcb
      rw [update_self]
      exact hm
    · rw [update_of_ne hcb]
      exact (h.marks c hc).of_sameOff hoff hcb
  · rw [hoff.nodes q (hq b hb)]
    exact h.nodesOff q hq
  · rw [hoff.blocks c (by omega)]
    exact h.blocksOff c hc

theorem allocLoop_append {M : ℕ → Marking treeHeight} (pre rest : List ℕ)
    (hm : ∀ c ∈ pre, HasMarks s c (M c).mark ∧ nodeFree (M c).mark 1 < 2 ^ k) :
    allocLoop (pre ++ rest) s (2 ^ k) = allocLoop rest s (2 ^ k) := by
  induction pre with
  | nil => rfl
  | cons c pre ih =>
    obtain ⟨hc, hfull⟩ := hm c List.mem_cons_self
    rw [List.cons_append, allocLoop, allocInBlock_full hc hfull]
    exact ih (fun c' hc' => hm c' (List.mem_cons_of_mem c hc'))

theorem halveWhileEven_two_pow {fuel : ℕ} (h : k < fuel) : halveWhileEven fuel (2 ^ k) = .ok 1 := by
  induction k generalizing fuel with
  | zero =>
    obtain ⟨fuel, rfl⟩ : ∃ f, fuel = f + 1 := ⟨fuel - 1, by omega⟩
    rfl
  | succ k ih =>
    obtain ⟨fuel, rfl⟩ : ∃ f, fuel = f + 1 := ⟨fuel - 1, by omega⟩
    have h1 : 2 ^ (k + 1) % 2 = 0 := by omega
    have h2 : 2 ^ (k + 1) / 2 = 2 ^ k := by omega
    rw [halveWhileEven, if_pos h1, h2]
    exact ih (by omega)

/-- The sizes that `buddy_alloc` accepts reach the blocks unchanged. -/
theorem buddyAlloc_eq_loop (s : State) (hk : k ≤ treeHeight) :
    buddyAlloc s (2 ^ k) = allocLoop (List.range cntMemBlocks) s (2 ^ k) := by
  have hle : 2 ^ k ≤ 2 ^ treeHeight := Nat.pow_le_pow_right (by omega) hk
  have h512 : 2 ^ treeHeight = 512 := by decide
  have h1024 : 2 ^ standartDepth = 1024 := by decide
  have hcheck : checkerCntPage (2 ^ k) = .ok true := by
    unfold checkerCntPage
    rw [if_neg (by omega), halveWhileEven_two_pow (by unfold treeHeight standartDepth at hk; omega)]
    rfl
  unfold buddyAlloc
  rw [hcheck, Nat.mod_eq_of_lt (by omega)]
  rfl

theorem buddyAlloc_full {M : ℕ → Marking treeHeight} (h : AllocRep kend s M) (hk : k ≤ treeHeight)
    (hfull : ∀ c, c < cntMemBlocks → nodeFree (M c).mark 1 < 2 ^ k) :
    buddyAlloc s (2 ^ k) = .ok (0, s) := by
  rw [buddyAlloc_eq_loop s hk]
  have hskip := allocLoop_append (s := s) (k := k) (M := M) (List.range cntMemBlocks) []
    (fun c hc => ⟨h.marks c (List.mem_range.mp hc), hfull c (List.mem_range.mp hc)⟩)
  rw [List.append_nil] at hskip
  exact hskip

theorem nodeAddr_ne_zero (hkend : 0 < kend) (b v : ℕ) : nodeAddr (pgRoundUp kend) b v ≠ 0 := by
  unfold nodeAddr pgRoundUp pgSize
  omega

/-- **`buddy_alloc` when a block has room**: the first such block gives its first
fit. -/
theorem buddyAlloc_room {M : ℕ → Marking treeHeight} (hkend : 0 < kend) (h : AllocRep kend s M)
    (hk : k ≤ treeHeight) (hb : b < cntMemBlocks)
    (hfull : ∀ c, c < b → nodeFree (M c).mark 1 < 2 ^ k) (hroom : 2 ^ k ≤ nodeFree (M b).mark 1) :
    ∃ s', ∃ hv : Avail (M b).mark (treeHeight - k) k 1
        (firstFit (M b).mark k (treeHeight - k) 1),
      buddyAlloc s (2 ^ k)
          = .ok (nodeAddr (pgRoundUp kend) b (firstFit (M b).mark k (treeHeight - k) 1), s')
        ∧ AllocRep kend s' (update M b ((M b).add (Nat.add_sub_of_le hk) hv)) := by
  obtain ⟨s', hv, hrun, hmarks, hoff⟩ := allocInBlock_room (M b) (h.marks b hb) hk hroom
  refine ⟨s', hv, ?_, h.update hb hmarks hoff⟩
  have hsplit : List.range cntMemBlocks
      = List.range b ++ b :: List.range' (b + 1) (cntMemBlocks - (b + 1)) := by
    have happ := @List.range'_append_1 0 b (cntMemBlocks - (b + 1) + 1)
    rw [Nat.zero_add, show b + (cntMemBlocks - (b + 1) + 1) = cntMemBlocks by omega] at happ
    rw [← List.range'_succ, List.range_eq_range', List.range_eq_range', happ]
  have hskip := allocLoop_append (s := s) (k := k) (M := M) (List.range b)
    (b :: List.range' (b + 1) (cntMemBlocks - (b + 1)))
    (fun c hc => ⟨h.marks c (by have := List.mem_range.mp hc; omega),
      hfull c (List.mem_range.mp hc)⟩)
  have hne := nodeAddr_ne_zero hkend b (firstFit (M b).mark k (treeHeight - k) 1)
  rw [buddyAlloc_eq_loop s hk, hsplit, hskip, allocLoop, hrun, h.sep]
  simp only [ok_bind, if_pos hne]
  rfl

end Xv6.Buddy
