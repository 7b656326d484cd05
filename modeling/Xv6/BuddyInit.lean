/-
# The state left by `buddy_init`

`AllocRep kend s M` is the representation invariant of the whole allocator: every
block is in the state determined by its used nodes, and nothing else of the
globals has been touched.  So the used nodes determine the state
(`AllocRep.unique`).  `allocRep_buddyInit` establishes it, with no node used, for
the state that `buddy_init` leaves when it does not panic.
-/
import Xv6.BuddyShape

open HeapTree

namespace Xv6.Buddy

open Function

variable {s : State} {b i kend n : ℕ}

/-! ## Depths in heap order -/

theorem log2_lt_nine_iff (hi : 0 < i) : Nat.log2 i < 9 ↔ i < 512 := by
  have h := Finset.mem_Ico.mp (mem_Ico_log2 hi)
  constructor
  · intro hlt
    have h2 : 2 ^ (Nat.log2 i + 1) ≤ 2 ^ 9 := Nat.pow_le_pow_right (by omega) (by omega)
    omega
  · intro hlt
    by_contra hge
    have h2 : 2 ^ 9 ≤ 2 ^ Nat.log2 i := Nat.pow_le_pow_right (by omega) (by omega)
    omega

theorem log2_le_nine (hi : 0 < i) (hi' : i < 1024) : Nat.log2 i ≤ 9 := by
  have h := Finset.mem_Ico.mp (mem_Ico_log2 hi)
  by_contra hge
  have h2 : 2 ^ 10 ≤ 2 ^ Nat.log2 i := Nat.pow_le_pow_right (by omega) (by omega)
  omega

/-- The `depth` variable of `init_block`'s loop: it starts at `1` and grows when `i`
reaches the next power of two. -/
theorem log2_loop_eq {depth : ℕ} (hi : 2 ≤ i) (hd : depth = max 1 (Nat.log2 (i - 1))) :
    (if i = 2 ^ (depth + 1) then depth + 1 else depth) = Nat.log2 i := by
  have h := Finset.mem_Ico.mp (mem_Ico_log2 (i := i - 1) (by omega))
  rcases Nat.lt_or_ge i 3 with hlt | hge
  · obtain rfl : i = 2 := by omega
    subst hd
    decide
  · have hpos : 0 < Nat.log2 (i - 1) := by
      by_contra h0
      have h0' : Nat.log2 (i - 1) = 0 := by omega
      rw [h0'] at h
      omega
    obtain rfl : depth = Nat.log2 (i - 1) := by omega
    symm
    split_ifs with heq
    · nth_rewrite 1 [heq]
      rw [Nat.log2_two_pow]
    · exact (Nat.log2_eq_iff (by omega)).mpr ⟨by omega, by omega⟩

/-! ## One block -/

/-- After the first turns of the loop of `init_block`, the nodes below `n` have
their final form, and `depth` is the depth of the last one. -/
structure InitInv (s₀ : State) (b n : ℕ) (acc : State × ℕ) : Prop where
  node : ∀ j, 0 < j → j < n →
    acc.1.nodesMem (1024 * b + j) = blockNode s₀.memSeparator b j (nodeSize j) false
  off : ∀ q, (∀ j, 0 < j → j < n → q ≠ 1024 * b + j) → acc.1.nodesMem q = s₀.nodesMem q
  depth : acc.2 = max 1 (Nat.log2 (n - 1))
  blocks : acc.1.blocks = s₀.blocks
  sep : acc.1.memSeparator = s₀.memSeparator

/-- The node that one turn of the loop writes. -/
theorem initStep_node (sep : ℕ) {depth : ℕ} (hi : 2 ≤ i) (hi' : i < 1024)
    (hdepth : depth = max 1 (Nat.log2 (i - 1)))
    (hhead : s.nodesMem (1024 * b + i / 2) = blockNode sep b (i / 2) (nodeSize (i / 2)) false) :
    initStep (1024 * b) (s, depth) i
      = (s.setNode (1024 * b + i) (blockNode sep b i (nodeSize i) false), Nat.log2 i) := by
  have hlog := log2_loop_eq hi hdepth
  have hci : 2 * (i / 2) + i % 2 = i := by omega
  have hsize := nodeSize_eq_two_mul (i := i / 2) (c := i % 2) (by omega) (by omega) (by omega)
  have hpage := nodePage_child (i := i / 2) (c := i % 2) (by omega) (by omega) (by omega)
  rw [hci] at hsize hpage
  have hcnt : nodeSize (i / 2) / 2 = nodeSize i := by omega
  have hstart : nodeAddr sep b (i / 2) + (if i % 2 = 0 then 0 else nodeSize i) * pgSize
      = nodeAddr sep b i := by
    unfold nodeAddr
    rw [hpage]
    rcases Nat.mod_two_eq_zero_or_one i with h | h
    · rw [h]
      simp
    · rw [h]
      simp
      ring
  have hlt := log2_lt_nine_iff (i := i) (by omega)
  have hne : ¬ i = 1 := by omega
  unfold initStep
  simp only [hhead, hlog]
  simp only [blockNode, hcnt, hstart, standartDepth, hne, if_false, Nat.add_assoc]
  simp only [show (10 - 1 : ℕ) = 9 from rfl, hlt]

theorem initInv_step {s₀ : State} {acc : State × ℕ} (h : InitInv s₀ b n acc) (hn : 2 ≤ n)
    (hn' : n < 1024) : InitInv s₀ b (n + 1) (initStep (1024 * b) acc n) := by
  obtain ⟨s, depth⟩ := acc
  have hstep := initStep_node s₀.memSeparator hn hn' h.depth
    (h.node (n / 2) (by omega) (by omega))
  rw [hstep]
  have hlog : 1 ≤ Nat.log2 n := by
    have := log2_div_two hn
    omega
  refine ⟨fun j hj hj' => ?_, fun q hq => ?_, (max_eq_right hlog).symm, h.blocks, h.sep⟩
  · show update s.nodesMem (1024 * b + n) _ (1024 * b + j) = _
    by_cases hjn : j = n
    · subst hjn
      simp
    · rw [update_of_ne (by omega)]
      exact h.node j hj (by omega)
  · show update s.nodesMem (1024 * b + n) _ q = _
    rw [update_of_ne (hq n (by omega) (by omega))]
    exact h.off q (fun j hj hj' => hq j hj (by omega))

theorem initInv_loop {s₀ s₁ : State} (h : InitInv s₀ b 2 (s₁, 1)) (k : ℕ) (hk : k ≤ 1022) :
    InitInv s₀ b (k + 2) ((List.range' 2 k).foldl (initStep (1024 * b)) (s₁, 1)) := by
  induction k with
  | zero => exact h
  | succ k ih =>
    rw [List.range'_1_concat, List.foldl_append]
    have := initInv_step (ih (by omega)) (by omega) (by omega)
    rw [Nat.add_comm 2 k]
    exact this

theorem blockNode_one (sep b : ℕ) :
    initRoot sep (1024 * b + 1) = blockNode sep b 1 (nodeSize 1) false := by
  have hlog : Nat.log2 1 = 0 := by decide
  have hdiv : pgSize * (1024 * b + 1 - 1) / 2 = pgSize * (2 ^ treeHeight * b) := by
    rw [Nat.add_sub_cancel]
    unfold pgSize treeHeight standartDepth
    omega
  unfold initRoot blockNode nodeAddr
  rw [hdiv, nodePage_one, nodeSize_one, hlog]
  simp [standartDepth, Nat.add_assoc, Nat.add_comm sep]

/-- What `init_block` does to the globals: it writes the tree and the statistics of
one block and moves `free_root` to the next. -/
structure InitBlockSpec (s s' : State) (b : ℕ) : Prop where
  rep : BlockRep s' b nodeSize (fun _ => false) 512 (fun i => if i = 0 then 1 else 0)
  off : ∀ q, (∀ j, 0 < j → j < 1024 → q ≠ 1024 * b + j) → s'.nodesMem q = s.nodesMem q
  blocks : ∀ c, c ≠ b → s'.blocks c = s.blocks c
  sep : s'.memSeparator = s.memSeparator
  freeRoot : s'.freeRoot = 1024 * (b + 1)

theorem initInv_initNodes (s : State) (b : ℕ) (hroot : s.freeRoot = 1024 * b) :
    ∃ depth, InitInv s b 1024 (initNodes s, depth) := by
  have hstart : InitInv s b 2
      (s.setNode (1024 * b + 1) (initRoot s.memSeparator (1024 * b + 1)), 1) := by
    refine ⟨fun j hj hj' => ?_, fun q hq => ?_, ?_, rfl, rfl⟩
    · obtain rfl : j = 1 := by omega
      show update s.nodesMem (1024 * b + 1) _ (1024 * b + 1) = _
      rw [update_self, blockNode_one]
    · exact update_of_ne (hq 1 (by omega) (by omega)) _ _
    · show (1 : ℕ) = max 1 (Nat.log2 (2 - 1))
      decide
  have hloop := initInv_loop hstart 1022 le_rfl
  unfold initNodes
  rw [hroot]
  generalize hacc : (List.range' 2 1022).foldl (initStep (1024 * b))
    (s.setNode (1024 * b + 1) (initRoot s.memSeparator (1024 * b + 1)), 1) = acc at hloop
  refine ⟨acc.2, ?_⟩
  simp only [standartDepth, show 2 ^ 10 - 2 = 1022 from rfl, hacc]
  exact hloop

theorem initBlock_spec (s : State) (b : ℕ) (hroot : s.freeRoot = 1024 * b) :
    InitBlockSpec s (initBlock s b) b := by
  obtain ⟨depth, hloop⟩ := initInv_initNodes s b hroot
  have h512 : 2 ^ (standartDepth - 1) = 512 := by decide
  unfold initBlock
  -- from here on only the invariant of the loop is used
  generalize initNodes s = t at hloop
  refine ⟨⟨fun i hi hi' => ?_, ?_⟩, hloop.off, fun c hc => ?_, hloop.sep, ?_⟩
  · show t.nodesMem (1024 * b + i) = blockNode t.memSeparator b i _ _
    rw [hloop.sep]
    exact hloop.node i hi hi'
  · show update t.blocks b _ b = _
    rw [update_self, hroot, treeHeight, h512]
  · show update t.blocks b _ c = _
    rw [update_of_ne hc, hloop.blocks]
  · show s.freeRoot + 2 ^ standartDepth = _
    rw [hroot]
    unfold standartDepth
    ring

/-! ## The empty marking -/

theorem nodeFree_empty (i : ℕ) : nodeFree (Marking.empty treeHeight).mark i = nodeSize i :=
  (maxFree_eq_two_pow_iff _ _ _).mpr (Marking.clear_empty _ i)

theorem freePages_empty : freePages (Marking.empty treeHeight).mark treeHeight 1 = 512 :=
  freePages_of_clear (Marking.clear_empty _ 1)

theorem freeCount_empty (d : ℕ) :
    freeCount (Marking.empty treeHeight).mark treeHeight d = if d = 0 then 1 else 0 := by
  have hfull : ∀ i, Full (Marking.empty treeHeight).mark treeHeight i := fun i =>
    (full_iff_clear _ _ i).mpr (Marking.clear_empty _ i)
  split_ifs with hd
  · subst hd
    rw [freeCount_zero]
    simp [tally, Counted, hfull]
  · rw [freeCount_eq_sum]
    refine Finset.sum_eq_zero (fun i hi => tally_eq_zero_of_parent ?_ (Or.inl (hfull _)))
    rintro rfl
    have := log2_eq_of_mem hi
    have hlog : Nat.log2 1 = 0 := by decide
    omega

theorem hasMarks_of_initBlockSpec {s' : State} (h : InitBlockSpec s s' b) :
    HasMarks s' b (Marking.empty treeHeight).mark := by
  refine h.rep.congr (fun i _ _ => (nodeFree_empty i).symm) (fun i _ _ => rfl)
    freePages_empty.symm ?_
  funext d
  exact (freeCount_empty d).symm

/-! ## The whole allocator -/

/-- **The representation invariant.**  The used nodes of the blocks are `M`, and
they determine the globals. -/
structure AllocRep (kend : ℕ) (s : State) (M : ℕ → Marking treeHeight) : Prop where
  sep : s.memSeparator = pgRoundUp kend
  freeRoot : s.freeRoot = 1024 * cntMemBlocks
  marks : ∀ b, b < cntMemBlocks → HasMarks s b (M b).mark
  nodesOff : ∀ q, (∀ b, b < cntMemBlocks → ∀ i, 0 < i → i < 1024 → q ≠ 1024 * b + i) →
    s.nodesMem q = MemNode.zero
  blocksOff : ∀ b, cntMemBlocks ≤ b → s.blocks b = ⟨0, ⟨0, 0, fun _ => 0⟩⟩

/-- Equal used nodes give equal states. -/
theorem AllocRep.unique {s' : State} {M M' : ℕ → Marking treeHeight} (h : AllocRep kend s M)
    (h' : AllocRep kend s' M') (hM : ∀ b, b < cntMemBlocks → (M b).mark = (M' b).mark) :
    s = s' := by
  have hsep : s.memSeparator = s'.memSeparator := h.sep.trans h'.sep.symm
  apply State.ext
  · funext q
    by_cases hq : ∃ b, b < cntMemBlocks ∧ ∃ i, 0 < i ∧ i < 1024 ∧ q = 1024 * b + i
    · obtain ⟨b, hb, i, hi, hi', rfl⟩ := hq
      have h2 := (h'.marks b hb).node i hi hi'
      rw [← hM b hb, ← hsep] at h2
      rw [(h.marks b hb).node i hi hi', h2]
    · push Not at hq
      rw [h.nodesOff q (fun b hb i hi hi' => hq b hb i hi hi'),
        h'.nodesOff q (fun b hb i hi hi' => hq b hb i hi hi')]
  · exact h.freeRoot.trans h'.freeRoot.symm
  · funext b
    by_cases hb : b < cntMemBlocks
    · rw [(h.marks b hb).block, (h'.marks b hb).block, hM b hb]
    · rw [h.blocksOff b (by omega), h'.blocksOff b (by omega)]
  · exact hsep

/-- The globals after the first `n` turns of the loop of `buddy_init`. -/
structure InitPrefix (kend n : ℕ) (s : State) : Prop where
  sep : s.memSeparator = pgRoundUp kend
  freeRoot : s.freeRoot = 1024 * n
  marks : ∀ b, b < n → HasMarks s b (Marking.empty treeHeight).mark
  nodesOff : ∀ q, (∀ b, b < n → ∀ i, 0 < i → i < 1024 → q ≠ 1024 * b + i) →
    s.nodesMem q = MemNode.zero
  blocksOff : ∀ b, n ≤ b → s.blocks b = ⟨0, ⟨0, 0, fun _ => 0⟩⟩

theorem initPrefix_step (h : InitPrefix kend n s) : InitPrefix kend (n + 1) (initBlock s n) := by
  have hb := initBlock_spec s n h.freeRoot
  refine ⟨hb.sep.trans h.sep, hb.freeRoot, fun b hbn => ?_, fun q hq => ?_, fun b hbn => ?_⟩
  · by_cases hbn' : b = n
    · subst hbn'
      exact hasMarks_of_initBlockSpec hb
    · -- an earlier block is not written
      have hm := h.marks b (by omega)
      refine ⟨fun i hi hi' => ?_, ?_⟩
      · rw [hb.sep, hb.off _ (fun j hj hj' => by omega)]
        exact hm.node i hi hi'
      · rw [hb.blocks b hbn']
        exact hm.block
  · rw [hb.off q (fun j hj hj' => hq n (by omega) j hj hj')]
    exact h.nodesOff q (fun b hbn => hq b (by omega))
  · rw [hb.blocks b (by omega)]
    exact h.blocksOff b (by omega)

/-- The panic of `buddy_init`: block `n` would end beyond `PHYSTOP + 1`. -/
theorem buddyInitStep_eq (h : InitPrefix kend n s) :
    buddyInitStep s n
      = if pgRoundUp kend + pgSize * (512 * (n + 1)) > physTop + 1 then
          .error (.panic "buddy_alloc_use_kalloc_mem")
        else .ok (initBlock s n) := by
  have hnext := initPrefix_step h
  have hm := hnext.marks n (by omega)
  have hroot : ((initBlock s n).blocks n).root = 1024 * n + 1 := by rw [hm.block]
  have hnode := hm.node 1 one_pos (by omega)
  have hend : (blockNode (initBlock s n).memSeparator n 1
      (nodeFree (Marking.empty treeHeight).mark 1) ((Marking.empty treeHeight).mark 1)).startPtr
      + nodeSize 1 * pgSize = pgRoundUp kend + pgSize * (512 * (n + 1)) := by
    show nodeAddr _ n 1 + nodeSize 1 * pgSize = _
    rw [nodeAddr, nodePage_one, nodeSize_one, hnext.sep]
    unfold treeHeight standartDepth
    ring
  unfold buddyInitStep
  simp only [hroot, hnode]
  rw [show (blockNode (initBlock s n).memSeparator n 1
      (nodeFree (Marking.empty treeHeight).mark 1)
      ((Marking.empty treeHeight).mark 1)).cntPage = nodeSize 1 from rfl, hend]

theorem initPrefix_foldlM (n : ℕ) (h : (List.range n).foldlM buddyInitStep (kinit kend) = .ok s) :
    InitPrefix kend n s ∧ (0 < n → pgRoundUp kend + pgSize * (512 * n) ≤ physTop + 1) := by
  induction n generalizing s with
  | zero =>
    cases h
    exact ⟨⟨rfl, rfl, fun b hb => by omega, fun _ _ => rfl, fun _ _ => rfl⟩, fun h0 => by omega⟩
  | succ n ih =>
    rw [List.range_succ, List.foldlM_append] at h
    obtain ⟨s₁, h₁, h₂⟩ := bind_eq_ok_iff.mp h
    obtain ⟨hpre, -⟩ := ih h₁
    simp only [List.foldlM_cons, List.foldlM_nil, bind_pure] at h₂
    rw [buddyInitStep_eq hpre] at h₂
    split_ifs at h₂ with hend
    obtain rfl := Except.ok.inj h₂
    exact ⟨initPrefix_step hpre, fun _ => by omega⟩

/-- **`buddy_init` establishes the representation invariant**, and the memory of all
blocks lies below `PHYSTOP`. -/
theorem allocRep_buddyInit (h : buddyInit (kinit kend) = .ok s) :
    AllocRep kend s (fun _ => Marking.empty treeHeight)
      ∧ pgRoundUp kend + pgSize * (512 * cntMemBlocks) ≤ physTop := by
  obtain ⟨hpre, hend⟩ := initPrefix_foldlM cntMemBlocks h
  refine ⟨⟨hpre.sep, hpre.freeRoot, hpre.marks, hpre.nodesOff, hpre.blocksOff⟩, ?_⟩
  have := hend (by decide)
  -- both sides are multiples of the page size
  unfold pgRoundUp pgSize physTop kernBase cntMemBlocks at *
  omega

/-- The loop of `buddy_init` does not panic while the blocks fit. -/
theorem buddyInit_foldlM_ok (n : ℕ) (hfit : pgRoundUp kend + pgSize * (512 * n) ≤ physTop + 1) :
    ∃ s, (List.range n).foldlM buddyInitStep (kinit kend) = .ok s := by
  induction n with
  | zero => exact ⟨kinit kend, rfl⟩
  | succ n ih =>
    obtain ⟨s, hs⟩ := ih (by unfold pgSize at *; omega)
    obtain ⟨hpre, -⟩ := initPrefix_foldlM n hs
    refine ⟨initBlock s n, ?_⟩
    rw [List.range_succ, List.foldlM_append, hs]
    simp only [ok_bind, List.foldlM_cons, List.foldlM_nil, bind_pure]
    rw [buddyInitStep_eq hpre, if_neg (Nat.not_lt.mpr hfit)]

/-- **`buddy_init` returns** exactly when the blocks end at most at `PHYSTOP + 1`. -/
theorem buddyInit_ok_iff (kend : ℕ) :
    (∃ s, buddyInit (kinit kend) = .ok s)
      ↔ pgRoundUp kend + pgSize * (512 * cntMemBlocks) ≤ physTop + 1 := by
  constructor
  · rintro ⟨s, hs⟩
    exact (initPrefix_foldlM cntMemBlocks hs).2 (by decide)
  · exact buddyInit_foldlM_ok cntMemBlocks

end Xv6.Buddy
