/-
# `buddy_free`

`free_in_node` goes down to the leaf that starts at the address it is given, and
gives back each used node on its way that starts there.  Since a node starts at the
address of leaf `ℓ` exactly when its number times its size is `ℓ`, the descent drops
from the used nodes those with that address, and nothing else (`freeInNode_spec`).

`buddyFree_spec` says the same of `buddy_free`, for every page address that passes
its check: a wrong or repeated address drops nothing.
-/
import Xv6.BuddyAlloc

open HeapTree

namespace Xv6.Buddy

open Function

variable {s : State} {b i kend pa : ℕ}

/-! ## Node numbers and pages -/

/-- A node's number times its size is its first leaf. -/
theorem nodePage_add (hi : 0 < i) (hi' : i < 1024) : nodePage i + 512 = i * nodeSize i := by
  have h1 := le_mul_nodeSize hi hi'
  have h2 : 2 ^ treeHeight = 512 := by decide
  unfold nodePage
  omega

/-- A node ends inside its block. -/
theorem nodePage_add_nodeSize_le (hi : 0 < i) (hi' : i < 1024) : nodePage i + nodeSize i ≤ 512 := by
  have h1 := nodePage_add hi hi'
  have h2 := (Finset.mem_Ico.mp (mem_Ico_log2 hi)).2
  have h3 : (i + 1) * nodeSize i ≤ 2 ^ (Nat.log2 i + 1) * nodeSize i :=
    Nat.mul_le_mul_right _ (by omega)
  have h4 : 2 ^ (Nat.log2 i + 1) * nodeSize i = 1024 := by
    have h9 := log2_le_nine hi hi'
    unfold nodeSize treeHeight standartDepth
    rw [← pow_add, show Nat.log2 i + 1 + (10 - 1 - Nat.log2 i) = 10 by omega]
    rfl
  rw [h4, Nat.add_mul] at h3
  omega

/-- The node at height `h` over leaf `ℓ`. -/
theorem nodeSize_div {ℓ h : ℕ} (hl : 512 ≤ ℓ) (hl' : ℓ < 1024) (hh : h ≤ 9) :
    0 < ℓ / 2 ^ h ∧ ℓ / 2 ^ h < 1024 ∧ nodeSize (ℓ / 2 ^ h) = 2 ^ h := by
  have hlog : Nat.log2 ℓ = 9 := (Nat.log2_eq_iff (by omega)).mpr ⟨by omega, by omega⟩
  obtain ⟨h1, h2⟩ := log2_div_two_pow (v := ℓ) (e := h) (by omega) (by omega)
  refine ⟨h2, lt_of_le_of_lt (Nat.div_le_self ℓ (2 ^ h)) hl', ?_⟩
  unfold nodeSize treeHeight standartDepth
  congr 1
  omega

theorem nodePage_leaf {ℓ : ℕ} (hl : 512 ≤ ℓ) (hl' : ℓ < 1024) : nodePage ℓ + 512 = ℓ := by
  have h1 := nodePage_add (i := ℓ) (by omega) hl'
  have h2 := (nodeSize_div hl hl' (h := 0) (by omega)).2.2
  rw [pow_zero, Nat.div_one] at h2
  rw [h1, h2, Nat.mul_one]

/-- Addresses of one block are ordered as the pages are. -/
theorem nodeAddr_add_le_iff (sep b i j c : ℕ) :
    nodeAddr sep b i + pgSize * c ≤ nodeAddr sep b j ↔ nodePage i + c ≤ nodePage j := by
  unfold nodeAddr pgSize
  omega

theorem nodeAddr_eq_iff (sep b i j : ℕ) :
    nodeAddr sep b i = nodeAddr sep b j ↔ nodePage i = nodePage j := by
  unfold nodeAddr pgSize
  omega

/-! ## One block -/

/-- The first part of `free_in_node`, at the node at height `h` over leaf `ℓ`. -/
theorem freeIfUsed_spec {b h ℓ : ℕ} (M : Marking treeHeight) (hm : HasMarks s b M.mark)
    (hl : 512 ≤ ℓ) (hl' : ℓ < 1024) (hh : h ≤ 9) :
    ∃ (s' : State) (N : Marking treeHeight),
      freeIfUsed s (1024 * b + ℓ / 2 ^ h) (nodeAddr s.memSeparator b ℓ) b = .ok s'
      ∧ HasMarks s' b N.mark ∧ SameOff b s s'
      ∧ ∀ j, N.mark j = true ↔ M.mark j = true ∧ j * 2 ^ h ≠ ℓ := by
  obtain ⟨hi, hi', hsize⟩ := nodeSize_div hl hl' hh
  have hnode := hm.node _ hi hi'
  have hstart : (s.nodesMem (1024 * b + ℓ / 2 ^ h)).startPtr = nodeAddr s.memSeparator b ℓ
      ↔ ℓ / 2 ^ h * 2 ^ h = ℓ := by
    have h1 := nodePage_add hi hi'
    have h2 := nodePage_leaf hl hl'
    rw [hnode]
    refine (nodeAddr_eq_iff _ b _ ℓ).trans ?_
    rw [hsize] at h1
    omega
  have hused : (s.nodesMem (1024 * b + ℓ / 2 ^ h)).isUsed = M.mark (ℓ / 2 ^ h) := by
    rw [hnode]
    rfl
  -- the only node of this height that can start at `ℓ` is `ℓ / 2 ^ h`
  have hself : ∀ j, j * 2 ^ h = ℓ → j = ℓ / 2 ^ h := by
    intro j hj
    rw [← hj, Nat.mul_div_cancel _ (by positivity)]
  by_cases hc : (s.nodesMem (1024 * b + ℓ / 2 ^ h)).startPtr = nodeAddr s.memSeparator b ℓ
      ∧ (s.nodesMem (1024 * b + ℓ / 2 ^ h)).isUsed = true
  · obtain ⟨s', hrun, hmarks, hoff⟩ := releaseNode_spec M hm (hused ▸ hc.2)
    refine ⟨s', M.erase (ℓ / 2 ^ h), ?_, hmarks, hoff, fun j => ?_⟩
    · unfold freeIfUsed
      rw [if_pos hc]
      exact hrun
    · by_cases hj : j = ℓ / 2 ^ h
      · subst hj
        simp [Marking.erase, hstart.mp hc.1]
      · have hne : j * 2 ^ h ≠ ℓ := fun h => hj (hself j h)
        simp [Marking.erase, update_of_ne hj, hne]
  · refine ⟨s, M, if_neg hc, hm, SameOff.refl b s, fun j => ⟨fun hj => ⟨hj, fun hjl => ?_⟩, And.left⟩⟩
    obtain rfl := hself j hjl
    exact hc ⟨hstart.mpr hjl, hused.trans hj⟩

/-- **The descent of `free_in_node`** from the node at height `h` over leaf `ℓ`. -/
theorem freeInNode_spec {b h ℓ fuel : ℕ} (M : Marking treeHeight) (hm : HasMarks s b M.mark)
    (hl : 512 ≤ ℓ) (hl' : ℓ < 1024) (hh : h ≤ 9) (hfuel : h < fuel) :
    ∃ (s' : State) (N : Marking treeHeight),
      freeInNode fuel s (1024 * b + ℓ / 2 ^ h) (nodeAddr s.memSeparator b ℓ) b = .ok s'
      ∧ HasMarks s' b N.mark ∧ SameOff b s s'
      ∧ ∀ j, N.mark j = true ↔ M.mark j = true ∧ ∀ t ≤ h, j * 2 ^ t ≠ ℓ := by
  induction h generalizing s M fuel with
  | zero =>
    obtain ⟨fuel, rfl⟩ : ∃ f, fuel = f + 1 := ⟨fuel - 1, by omega⟩
    obtain ⟨hi, hi', -⟩ := nodeSize_div hl hl' hh
    obtain ⟨s', N, hrun, hmarks, hoff, hN⟩ := freeIfUsed_spec M hm hl hl' hh
    refine ⟨s', N, ?_, hmarks, hoff, fun j => ?_⟩
    · unfold freeInNode
      refine bind_eq_ok_iff.mpr ⟨s', hrun, ?_⟩
      -- a leaf has no children
      have hleaf : ¬ ℓ / 2 ^ 0 < 512 := by simpa using hl
      simp only [hmarks.node _ hi hi', blockNode, if_neg hleaf]
      rfl
    · rw [hN j]
      simp
  | succ h ih =>
    obtain ⟨fuel, rfl⟩ : ∃ f, fuel = f + 1 := ⟨fuel - 1, by omega⟩
    obtain ⟨hi, hi', hsize⟩ := nodeSize_div hl hl' hh
    obtain ⟨s₁, N₁, hrun₁, hmarks₁, hoff₁, hN₁⟩ := freeIfUsed_spec M hm hl hl' hh
    obtain ⟨s', N, hrun, hmarks, hoff, hN⟩ := ih N₁ hmarks₁ (by omega) (show h < fuel by omega)
    refine ⟨s', N, ?_, hmarks, hoff₁.trans hoff, fun j => ?_⟩
    · have hhalf : ℓ / 2 ^ (h + 1) = ℓ / 2 ^ h / 2 := by
        rw [pow_succ, Nat.div_div_eq_div_mul]
      have hlt : ℓ / 2 ^ (h + 1) < 512 := by
        have := Nat.div_le_self ℓ (2 ^ h)
        omega
      -- the comparison of addresses picks the child that lies over `ℓ`
      have hside : nodeAddr s₁.memSeparator b (ℓ / 2 ^ (h + 1))
            + nodeSize (ℓ / 2 ^ (h + 1)) * pgSize / 2 ≤ nodeAddr s₁.memSeparator b ℓ
          ↔ ℓ / 2 ^ h = 2 * (ℓ / 2 ^ (h + 1)) + 1 := by
        have h1 := nodePage_add hi hi'
        have h2 := nodePage_leaf hl hl'
        have h3 := Nat.div_add_mod ℓ (2 ^ h)
        have h4 := Nat.mod_lt ℓ (show 0 < 2 ^ h by positivity)
        rw [hsize] at h1 ⊢
        rw [show 2 ^ (h + 1) * pgSize / 2 = pgSize * 2 ^ h by rw [pow_succ]; unfold pgSize; omega,
          nodeAddr_add_le_iff]
        have hmul : ℓ / 2 ^ (h + 1) * 2 ^ (h + 1) = 2 ^ h * (2 * (ℓ / 2 ^ (h + 1))) := by
          rw [pow_succ]
          ring
        rcases Nat.mod_two_eq_zero_or_one (ℓ / 2 ^ h) with hr | hr
        · have hc : ℓ / 2 ^ h = 2 * (ℓ / 2 ^ (h + 1)) := by omega
          rw [hc] at h3
          omega
        · have hc : ℓ / 2 ^ h = 2 * (ℓ / 2 ^ (h + 1)) + 1 := by omega
          rw [hc, Nat.mul_add] at h3
          omega
      unfold freeInNode
      refine bind_eq_ok_iff.mpr ⟨s₁, hrun₁, ?_⟩
      simp only [hmarks₁.node _ hi hi', blockNode, if_pos hlt]
      rw [← hoff₁.sep]
      split_ifs with hright
      · rw [← hside.mp hright]
        exact hrun
      · have hleft : 2 * (ℓ / 2 ^ (h + 1)) = ℓ / 2 ^ h := by
          have := fun hc => hright (hside.mpr hc)
          omega
        rw [hleft]
        exact hrun
    · rw [hN j, hN₁ j]
      constructor
      · rintro ⟨⟨hj, hne⟩, hall⟩
        refine ⟨hj, fun t ht => ?_⟩
        rcases Nat.lt_or_ge t (h + 1) with hlt | hge
        · exact hall t (by omega)
        · obtain rfl : t = h + 1 := by omega
          exact hne
      · rintro ⟨hj, hall⟩
        exact ⟨⟨hj, hall (h + 1) le_rfl⟩, fun t ht => hall t (by omega)⟩

/-! ## All blocks -/

/-- The nodes of a block lie inside it. -/
theorem nodeAddr_mem_block (sep b : ℕ) (hi : 0 < i) (hi' : i < 1024) :
    sep + pgSize * (512 * b) ≤ nodeAddr sep b i ∧
      nodeAddr sep b i + pgSize * nodeSize i ≤ sep + pgSize * (512 * (b + 1)) := by
  have h1 := nodePage_add_nodeSize_le hi hi'
  unfold nodeAddr pgSize treeHeight standartDepth
  omega

/-- The address test of `buddy_free`. -/
theorem checkAddrInBlock_iff {U : ℕ → Bool} (hm : HasMarks s b U) (pa : ℕ) :
    checkAddrInBlock s pa b = true
      ↔ s.memSeparator + pgSize * (512 * b) ≤ pa
        ∧ pa < s.memSeparator + pgSize * (512 * (b + 1)) := by
  obtain ⟨hroot, hnode⟩ := hm.root
  have hstart : nodeAddr s.memSeparator b 1 = s.memSeparator + pgSize * (512 * b) := by
    unfold nodeAddr treeHeight standartDepth
    rw [nodePage_one]
    rfl
  unfold checkAddrInBlock
  simp only [hroot, hnode, blockNode, hstart, nodeSize_one, Bool.and_eq_true, decide_eq_true_eq]
  unfold pgSize
  omega

/-- A page address in a block is the address of one of its leaves. -/
theorem exists_leaf (hpa : pa % pgSize = 0) (hlo : pgRoundUp kend + pgSize * (512 * b) ≤ pa)
    (hhi : pa < pgRoundUp kend + pgSize * (512 * (b + 1))) :
    ∃ ℓ, 512 ≤ ℓ ∧ ℓ < 1024 ∧ pa = nodeAddr (pgRoundUp kend) b ℓ := by
  have hsep : pgRoundUp kend % pgSize = 0 := Nat.mul_mod_left _ _
  generalize pgRoundUp kend = sep at *
  obtain ⟨q, hq, rfl⟩ : ∃ q, q < 512 ∧ pa = sep + pgSize * (512 * b + q) := by
    refine ⟨(pa - sep) / pgSize - 512 * b, ?_, ?_⟩ <;>
    · unfold pgSize at *
      omega
  refine ⟨512 + q, by omega, by omega, ?_⟩
  have hleaf := nodePage_leaf (show 512 ≤ 512 + q by omega) (by omega)
  unfold nodeAddr treeHeight standartDepth
  rw [show nodePage (512 + q) = q by omega]
  rfl

/-- **One turn of the loop of `buddy_free`** drops the used nodes of block `b` that
start at `pa`. -/
theorem freeStep_spec {M : ℕ → Marking treeHeight} (h : AllocRep kend s M) (hb : b < cntMemBlocks)
    (hpa : pa % pgSize = 0) :
    ∃ (s' : State) (N : Marking treeHeight), freeStep pa s b = .ok s'
      ∧ AllocRep kend s' (update M b N)
      ∧ ∀ j, N.mark j = true ↔ (M b).mark j = true ∧ nodeAddr (pgRoundUp kend) b j ≠ pa := by
  have hm := h.marks b hb
  have hcheck := checkAddrInBlock_iff hm pa
  unfold freeStep
  split_ifs with hin
  · -- `pa` is the address of leaf `ℓ` of this block
    obtain ⟨hlo, hhi⟩ := hcheck.mp hin
    rw [h.sep] at hlo hhi
    obtain ⟨ℓ, hl, hl', hℓ⟩ := exists_leaf hpa hlo hhi
    obtain ⟨s', N, hrun, hmarks, hoff, hN⟩ :=
      freeInNode_spec (h := 9) (M b) hm hl hl' le_rfl (show 9 < standartDepth by decide)
    refine ⟨s', N, ?_, h.update hb hmarks hoff, fun j => ?_⟩
    · unfold freeInBlock
      rw [hm.root.1, hℓ, ← hrun, h.sep, show ℓ / 2 ^ 9 = 1 by omega]
    · rw [hN j]
      refine and_congr_right (fun hj => ?_)
      obtain ⟨hj0, hj1⟩ := (M b).inTree j hj
      have hpage := nodePage_add hj0 hj1
      have hleaf := nodePage_leaf hl hl'
      rw [hℓ, Ne, nodeAddr_eq_iff]
      constructor
      · intro hall heq
        refine hall (treeHeight - Nat.log2 j) (Nat.sub_le _ _) ?_
        show j * nodeSize j = ℓ
        omega
      · intro hne t ht hjt
        -- a node starts at a leaf only when `t` is its height
        have hdiv : ℓ / 2 ^ t = j := by
          rw [← hjt, Nat.mul_div_cancel _ (by positivity)]
        have hsize := (nodeSize_div hl hl' ht).2.2
        rw [hdiv] at hsize
        rw [hsize] at hpage
        omega
  · refine ⟨s, M b, rfl, ?_, fun j => ⟨fun hj => ⟨hj, fun heq => ?_⟩, And.left⟩⟩
    · rw [update_eq_self]
      exact h
    · obtain ⟨hj0, hj1⟩ := (M b).inTree j hj
      obtain ⟨h1, h2⟩ := nodeAddr_mem_block (pgRoundUp kend) b hj0 hj1
      have hpos := nodeSize_pos j
      rw [heq, ← h.sep] at h1 h2
      refine hin (hcheck.mpr ⟨h1, ?_⟩)
      unfold pgSize at *
      omega

/-- The loop of `buddy_free` over the blocks in `bs`. -/
theorem freeSteps_spec {M : ℕ → Marking treeHeight} (bs : List ℕ) (hbs : ∀ b ∈ bs, b < cntMemBlocks)
    (h : AllocRep kend s M) (hpa : pa % pgSize = 0) :
    ∃ (s' : State) (N : ℕ → Marking treeHeight), bs.foldlM (freeStep pa) s = .ok s'
      ∧ AllocRep kend s' N
      ∧ ∀ c j, (N c).mark j = true
        ↔ (M c).mark j = true ∧ (c ∈ bs → nodeAddr (pgRoundUp kend) c j ≠ pa) := by
  induction bs generalizing s M with
  | nil => exact ⟨s, M, rfl, h, by simp⟩
  | cons b bs ih =>
    obtain ⟨s₁, N₁, hrun₁, hrep₁, hN₁⟩ := freeStep_spec h (hbs b List.mem_cons_self) hpa
    obtain ⟨s', N, hrun, hrep, hN⟩ :=
      ih (fun c hc => hbs c (List.mem_cons_of_mem b hc)) hrep₁
    refine ⟨s', N, ?_, hrep, fun c j => ?_⟩
    · rw [List.foldlM_cons, hrun₁]
      exact hrun
    · rw [hN c j]
      by_cases hcb : c = b
      · subst hcb
        rw [update_self, hN₁ j]
        simp only [List.mem_cons, true_or, forall_const]
        exact ⟨fun hc => hc.1, fun hc => ⟨hc, fun _ => hc.2⟩⟩
      · rw [update_of_ne hcb]
        simp only [List.mem_cons, hcb, false_or]

/-- **`buddy_free`** drops from the used nodes those that start at `pa`. -/
theorem buddyFree_spec {M : ℕ → Marking treeHeight} (h : AllocRep kend s M) (hpa : pa % pgSize = 0)
    (hlo : kend ≤ pa) (hhi : pa < physTop) :
    ∃ (s' : State) (N : ℕ → Marking treeHeight), buddyFree kend s pa = .ok s'
      ∧ AllocRep kend s' N
      ∧ ∀ c, c < cntMemBlocks → ∀ j, (N c).mark j = true
        ↔ (M c).mark j = true ∧ nodeAddr (pgRoundUp kend) c j ≠ pa := by
  obtain ⟨s', N, hrun, hrep, hN⟩ := freeSteps_spec (List.range cntMemBlocks)
    (fun b hb => List.mem_range.mp hb) h hpa
  refine ⟨s', N, ?_, hrep, fun c hc j => ?_⟩
  · unfold buddyFree
    rw [if_neg (by omega)]
    exact hrun
  · rw [hN c j]
    simp only [List.mem_range, hc, forall_const]

end Xv6.Buddy
