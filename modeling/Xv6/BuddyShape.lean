/-
# The shape of a block's tree

`init_block` lays the 1023 nodes of a block out in heap order: node `i` of block
`b` sits at index `1024 * b + i` of `nodes_mem`, its children at `2 * i` and
`2 * i + 1`, its head at `i / 2`.  Only `maxFreePage` and `is_used` ever change
afterwards, so `BlockRep s b m u free fbs` describes block `b` of a state by the
four things that vary.

`HasMarks s b U` is the representation invariant of one block: everything the
block stores is a function of the set `U` of its used nodes.
-/
import Xv6.BuddyModel
import Xv6.HeapTreeMark

open HeapTree

namespace Xv6.Buddy

open Function

/-! ## Nodes and blocks -/

/-- The height of the tree of a block: a block has `2 ^ treeHeight` pages. -/
def treeHeight : ℕ := standartDepth - 1

/-- The number of pages of node `i`. -/
def nodeSize (i : ℕ) : ℕ := 2 ^ (treeHeight - Nat.log2 i)

/-- The first page of node `i`, counted from the start of its block. -/
def nodePage (i : ℕ) : ℕ := i * nodeSize i - 2 ^ treeHeight

/-- The address of node `i` of block `b`. -/
def nodeAddr (sep b i : ℕ) : ℕ := sep + pgSize * (2 ^ treeHeight * b + nodePage i)

/-- Node `i` of block `b` with the given `maxFreePage` and `is_used`. -/
def blockNode (sep b i m : ℕ) (u : Bool) : MemNode where
  leftChild := if i < 512 then some (1024 * b + 2 * i) else none
  rightChild := if i < 512 then some (1024 * b + (2 * i + 1)) else none
  head := if i = 1 then none else some (1024 * b + i / 2)
  depth := Nat.log2 i
  startPtr := nodeAddr sep b i
  maxFreePage := m
  cntPage := nodeSize i
  isUsed := u

/-- Block `b` of `s` has the static shape of `init_block`, and `m`, `u`, `free` and
`fbs` are what varies. -/
structure BlockRep (s : State) (b : ℕ) (m : ℕ → ℕ) (u : ℕ → Bool) (free : ℕ)
    (fbs : ℕ → ℕ) : Prop where
  node : ∀ i, 0 < i → i < 1024 →
    s.nodesMem (1024 * b + i) = blockNode s.memSeparator b i (m i) (u i)
  block : s.blocks b = ⟨1024 * b + 1, ⟨2 ^ treeHeight, free, fbs⟩⟩

/-- Nothing outside block `b` differs between the two states. -/
structure SameOff (b : ℕ) (s s' : State) : Prop where
  nodes : ∀ q, (∀ i, 0 < i → i < 1024 → q ≠ 1024 * b + i) → s'.nodesMem q = s.nodesMem q
  blocks : ∀ c, c ≠ b → s'.blocks c = s.blocks c
  sep : s'.memSeparator = s.memSeparator
  freeRoot : s'.freeRoot = s.freeRoot

theorem SameOff.refl (b : ℕ) (s : State) : SameOff b s s :=
  ⟨fun _ _ => rfl, fun _ _ => rfl, rfl, rfl⟩

theorem SameOff.trans {b : ℕ} {s s' s'' : State} (h : SameOff b s s') (h' : SameOff b s' s'') :
    SameOff b s s'' :=
  ⟨fun q hq => (h'.nodes q hq).trans (h.nodes q hq),
    fun c hc => (h'.blocks c hc).trans (h.blocks c hc),
    h'.sep.trans h.sep, h'.freeRoot.trans h.freeRoot⟩

theorem BlockRep.of_sameOff {s s' : State} {b c : ℕ} {m : ℕ → ℕ} {u : ℕ → Bool} {free : ℕ}
    {fbs : ℕ → ℕ} (hr : BlockRep s c m u free fbs) (h : SameOff b s s') (hcb : c ≠ b) :
    BlockRep s' c m u free fbs := by
  refine ⟨fun i hi hi' => ?_, ?_⟩
  · rw [h.sep, h.nodes _ (fun j hj hj' => by omega)]
    exact hr.node i hi hi'
  · rw [h.blocks c hcb]
    exact hr.block

theorem BlockRep.congr {s : State} {b : ℕ} {m m' : ℕ → ℕ} {u u' : ℕ → Bool} {free free' : ℕ}
    {fbs fbs' : ℕ → ℕ} (hr : BlockRep s b m u free fbs)
    (hm : ∀ i, 0 < i → i < 1024 → m i = m' i) (hu : ∀ i, 0 < i → i < 1024 → u i = u' i)
    (hf : free = free') (hb : fbs = fbs') : BlockRep s b m' u' free' fbs' := by
  subst hf hb
  refine ⟨fun i hi hi' => ?_, hr.block⟩
  rw [← hm i hi hi', ← hu i hi hi']
  exact hr.node i hi hi'

/-! ## Writing one node or one counter -/

section Writes

variable {s : State} {b : ℕ} {m : ℕ → ℕ} {u : ℕ → Bool} {free : ℕ} {fbs : ℕ → ℕ}

theorem BlockRep.setNode (hr : BlockRep s b m u free fbs) {i : ℕ} (hi : 0 < i) (hi' : i < 1024)
    (x : ℕ) (y : Bool) :
    BlockRep (s.setNode (1024 * b + i) (blockNode s.memSeparator b i x y)) b
        (update m i x) (update u i y) free fbs
      ∧ SameOff b s (s.setNode (1024 * b + i) (blockNode s.memSeparator b i x y)) := by
  refine ⟨⟨fun j hj hj' => ?_, hr.block⟩, ⟨fun q hq => ?_, fun c _ => rfl, rfl, rfl⟩⟩
  · show update s.nodesMem (1024 * b + i) _ (1024 * b + j) = _
    by_cases hji : j = i
    · subst hji
      simp [State.setNode]
    · rw [update_of_ne (by omega), update_of_ne hji,
        update_of_ne hji]
      exact hr.node j hj hj'
  · exact update_of_ne (hq i hi hi') _ _

theorem BlockRep.setInfo (hr : BlockRep s b m u free fbs) (free' : ℕ) (fbs' : ℕ → ℕ) :
    BlockRep (s.setInfo b ⟨2 ^ treeHeight, free', fbs'⟩) b m u free' fbs'
      ∧ SameOff b s (s.setInfo b ⟨2 ^ treeHeight, free', fbs'⟩) := by
  refine ⟨⟨fun j hj hj' => hr.node j hj hj', ?_⟩,
    ⟨fun q _ => rfl, fun c hc => update_of_ne hc _ _, rfl, rfl⟩⟩
  simp [State.setInfo, hr.block]

theorem BlockRep.changeBySize (hr : BlockRep s b m u free fbs) (op : ℕ → ℕ → ℕ) (d c : ℕ) :
    BlockRep (s.changeBySize op b d c) b m u free (update fbs d (op (fbs d) c))
      ∧ SameOff b s (s.changeBySize op b d c) := by
  have heq : s.changeBySize op b d c
      = s.setInfo b ⟨2 ^ treeHeight, free, update fbs d (op (fbs d) c)⟩ := by
    unfold State.changeBySize
    rw [hr.block]
  rw [heq]
  exact hr.setInfo _ _

theorem BlockRep.changeFree (hr : BlockRep s b m u free fbs) (op : ℕ → ℕ → ℕ) (c : ℕ) :
    BlockRep (s.changeFree op b c) b m u (op free c) fbs
      ∧ SameOff b s (s.changeFree op b c) := by
  have heq : s.changeFree op b c = s.setInfo b ⟨2 ^ treeHeight, op free c, fbs⟩ := by
    unfold State.changeFree
    rw [hr.block]
  rw [heq]
  exact hr.setInfo _ _

end Writes

/-! ## The representation invariant of a block -/

/-- The `maxFreePage` that node `i` must hold when the nodes in `U` are used. -/
def nodeFree (U : ℕ → Bool) (i : ℕ) : ℕ := maxFree U (treeHeight - Nat.log2 i) i

/-- Block `b` is in the state determined by its used nodes `U`. -/
def HasMarks (s : State) (b : ℕ) (U : ℕ → Bool) : Prop :=
  BlockRep s b (nodeFree U) U (freePages U treeHeight 1) (freeCount U treeHeight)

theorem HasMarks.of_sameOff {s s' : State} {b c : ℕ} {U : ℕ → Bool} (hm : HasMarks s c U)
    (h : SameOff b s s') (hcb : c ≠ b) : HasMarks s' c U :=
  BlockRep.of_sameOff hm h hcb

theorem nodeSize_pos (i : ℕ) : 0 < nodeSize i := by
  unfold nodeSize
  positivity

theorem nodeSize_eq_two_mul {i c : ℕ} (hi : 0 < i) (hi' : i < 512) (hc : c < 2) :
    nodeSize i = 2 * nodeSize (2 * i + c) := by
  have hlog : Nat.log2 i < 9 := by
    by_contra hlt
    have h1 := (Finset.mem_Ico.mp (mem_Ico_log2 hi)).1
    have h2 : 2 ^ 9 ≤ 2 ^ Nat.log2 i := Nat.pow_le_pow_right (by omega) (by omega)
    omega
  unfold nodeSize treeHeight standartDepth
  rw [log2_two_mul_add hi hc, ← pow_succ']
  congr 1
  omega

theorem nodeSize_one : nodeSize 1 = 512 := by decide

theorem nodePage_one : nodePage 1 = 0 := by decide

/-- The bits of a node number below the leading one give its first page. -/
theorem le_mul_nodeSize {i : ℕ} (hi : 0 < i) (hi' : i < 1024) :
    2 ^ treeHeight ≤ i * nodeSize i := by
  have h := Finset.mem_Ico.mp (mem_Ico_log2 hi)
  have hlog : Nat.log2 i ≤ 9 := by
    by_contra hlt
    have h2 : 2 ^ 10 ≤ 2 ^ Nat.log2 i := Nat.pow_le_pow_right (by omega) (by omega)
    omega
  calc 2 ^ treeHeight = 2 ^ Nat.log2 i * nodeSize i := by
        unfold nodeSize treeHeight standartDepth
        rw [← pow_add]
        congr 1
        omega
    _ ≤ i * nodeSize i := Nat.mul_le_mul_right _ h.1

theorem nodePage_child {i c : ℕ} (hi : 0 < i) (hi' : i < 512) (hc : c < 2) :
    nodePage (2 * i + c) = nodePage i + c * nodeSize (2 * i + c) := by
  have h1 := le_mul_nodeSize hi (by omega)
  unfold nodePage
  rw [nodeSize_eq_two_mul hi hi' hc] at h1 ⊢
  have h2 : (2 * i + c) * nodeSize (2 * i + c)
      = i * (2 * nodeSize (2 * i + c)) + c * nodeSize (2 * i + c) := by ring
  omega

end Xv6.Buddy
