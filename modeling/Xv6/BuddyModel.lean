/-
# The buddy allocator (`kernel/buddy_alloc.c`)

A translation of the allocator.  Pointers into `nodes_mem` are indices, with
`none` for the null pointer; `block_ptr` is an index into `blocks`.  The
`uint16` statistics wrap (`add16`, `sub16`).  The spinlock of a block is left
out: every function that takes it is one section under that lock.

`update_node_free_cnt`, `alloc_in_node` and `free_in_node` recurse along the
pointers of the tree.  Their models take a bound on the depth of the recursion
and end in `Fault.noReturn` when it is used up, which never happens on the trees
of `init_block` (ten levels).
-/
import Xv6.KernelBase

namespace Xv6.Buddy

open Function

/-! ## Data -/

/-- `CNT_MEM_BLOCKS`. -/
def cntMemBlocks : ℕ := 62

/-- `STANDART_DEPTH`, the number of levels of a block's tree. -/
def standartDepth : ℕ := 10

/-- `struct MemNode`. -/
structure MemNode where
  leftChild : Option ℕ
  rightChild : Option ℕ
  head : Option ℕ
  depth : ℕ
  startPtr : ℕ
  maxFreePage : ℕ
  cntPage : ℕ
  isUsed : Bool
  deriving DecidableEq

/-- A node of zeroed memory. -/
def MemNode.zero : MemNode := ⟨none, none, none, 0, 0, 0, 0, false⟩

/-- `struct BlocksInfo`: three groups of `uint16` counters, in pages. -/
@[ext]
structure BlocksInfo where
  total : ℕ
  free : ℕ
  freeBySize : ℕ → ℕ

/-- `struct BlockMem` without its lock. -/
@[ext]
structure BlockMem where
  root : ℕ
  info : BlocksInfo

/-- The global variables of `buddy_alloc.c`. -/
@[ext]
structure State where
  nodesMem : ℕ → MemNode
  freeRoot : ℕ
  blocks : ℕ → BlockMem
  memSeparator : ℕ

namespace State

/-- Write a node of `nodes_mem`. -/
def setNode (s : State) (p : ℕ) (node : MemNode) : State :=
  { s with nodesMem := update s.nodesMem p node }

/-- Write the statistics of a block. -/
def setInfo (s : State) (b : ℕ) (info : BlocksInfo) : State :=
  { s with blocks := update s.blocks b { s.blocks b with info := info } }

/-- `block_ptr->info.free_by_size[d] op= c`, for `op` one of `add16` and `sub16`. -/
def changeBySize (s : State) (op : ℕ → ℕ → ℕ) (b d c : ℕ) : State :=
  let info := (s.blocks b).info
  s.setInfo b { info with
    freeBySize := update info.freeBySize d (op (info.freeBySize d) c) }

/-- `block_ptr->info.free op= c`, for `op` one of `add16` and `sub16`. -/
def changeFree (s : State) (op : ℕ → ℕ → ℕ) (b c : ℕ) : State :=
  let info := (s.blocks b).info
  s.setInfo b { info with free := op info.free c }

end State

/-! ## Building the trees -/

/-- The root that `init_block` writes at `free_root`. -/
def initRoot (memSeparator freeRoot : ℕ) : MemNode where
  leftChild := some (freeRoot + 1)
  rightChild := some (freeRoot + 2)
  head := none
  depth := 0
  startPtr := pgSize * (freeRoot - 1) / 2 + memSeparator
  maxFreePage := 2 ^ (standartDepth - 1)
  cntPage := 2 ^ (standartDepth - 1)
  isUsed := false

/-- One turn of the loop of `init_block`, on the state and the variable `depth`. -/
def initStep (freeRoot : ℕ) (acc : State × ℕ) (i : ℕ) : State × ℕ :=
  let s := acc.1
  let depth := if i = 2 ^ (acc.2 + 1) then acc.2 + 1 else acc.2
  let head := s.nodesMem (freeRoot + i / 2)
  let cntPage := head.cntPage / 2
  (s.setNode (freeRoot + i)
    { leftChild := if depth < standartDepth - 1 then some (freeRoot + 2 * i) else none
      rightChild := if depth < standartDepth - 1 then some (freeRoot + 2 * i + 1) else none
      head := some (freeRoot + i / 2)
      depth := depth
      startPtr := head.startPtr + (if i % 2 = 0 then 0 else cntPage) * pgSize
      maxFreePage := cntPage
      cntPage := cntPage
      isUsed := false }, depth)

/-- The nodes that `init_block` writes: the root, and then the loop. -/
def initNodes (s : State) : State :=
  let freeRoot := s.freeRoot
  let s := s.setNode (freeRoot + 1) (initRoot s.memSeparator (freeRoot + 1))
  ((List.range' 2 (2 ^ standartDepth - 2)).foldl (initStep freeRoot) (s, 1)).1

/-- `init_block(blocks + b)`. -/
def initBlock (s : State) (b : ℕ) : State :=
  { initNodes s with
    blocks := update (initNodes s).blocks b
      { root := s.freeRoot + 1
        info :=
          { total := 2 ^ (standartDepth - 1)
            free := 2 ^ (standartDepth - 1)
            freeBySize := fun i => if i = 0 then 1 else 0 } }
    freeRoot := s.freeRoot + 2 ^ standartDepth }

/-- One turn of the loop of `buddy_init`. -/
def buddyInitStep (s : State) (b : ℕ) : Except Fault State :=
  let s := initBlock s b
  let root := s.nodesMem (s.blocks b).root
  if root.startPtr + root.cntPage * pgSize > physTop + 1 then
    .error (.panic "buddy_alloc_use_kalloc_mem")
  else .ok s

/-- `buddy_init()`. -/
def buddyInit (s : State) : Except Fault State :=
  (List.range cntMemBlocks).foldlM buddyInitStep s

/-- The zeroed globals after `kinit()`, which sets `mem_separator` from the end of
the kernel image `kend` (the linker symbol `end`). -/
def kinit (kend : ℕ) : State where
  nodesMem := fun _ => MemNode.zero
  freeRoot := 0
  blocks := fun _ => ⟨0, ⟨0, 0, fun _ => 0⟩⟩
  memSeparator := pgRoundUp kend

/-! ## Updating the path to the root -/

/-- `check_node_block_counting(node_ptr)`: the node is wholly free and its head, if
it has one, is not. -/
def checkNodeBlockCounting (s : State) (nodePtr : ℕ) : Except Fault ℕ :=
  let node := s.nodesMem nodePtr
  if node.maxFreePage = node.cntPage then
    if node.depth = 0 then .ok 1
    else do
      let head ← deref node.head
      if (s.nodesMem head).maxFreePage ≠ (s.nodesMem head).cntPage then .ok 1 else .ok 0
  else .ok 0

/-- The first and the last part of `update_node_free_cnt`: subtract (`sub16`) or add
(`add16`) the counts of the node and its sibling, or of the root. -/
def changeCounts (op : ℕ → ℕ → ℕ) (s : State) (nodePtr b : ℕ) : Except Fault State :=
  let node := s.nodesMem nodePtr
  match node.head with
  | some head => do
    let c ← checkNodeBlockCounting s (← deref (s.nodesMem head).leftChild)
    let s := s.changeBySize op b node.depth c
    let c ← checkNodeBlockCounting s (← deref (s.nodesMem head).rightChild)
    return s.changeBySize op b node.depth c
  | none => do
    let c ← checkNodeBlockCounting s nodePtr
    return s.changeBySize op b node.depth c

/-- The middle part of `update_node_free_cnt`: recompute `maxFreePage` from the
children, unless the node is a leaf. -/
def refreshMaxFree (s : State) (nodePtr : ℕ) : Except Fault State :=
  let node := s.nodesMem nodePtr
  if node.depth ≠ standartDepth - 1 then do
    let leftCnt := (s.nodesMem (← deref node.leftChild)).maxFreePage
    let rightCnt := (s.nodesMem (← deref node.rightChild)).maxFreePage
    if leftCnt + rightCnt = node.cntPage then
      return s.setNode nodePtr { node with maxFreePage := node.cntPage }
    else
      return s.setNode nodePtr
        { node with maxFreePage := if leftCnt < rightCnt then rightCnt else leftCnt }
  else .ok s

/-- `update_node_free_cnt(node_ptr, block_ptr)`. -/
def updateNodeFreeCnt : ℕ → State → Option ℕ → ℕ → Except Fault State
  | _, s, none, _ => .ok s
  | 0, _, some _, _ => .error .noReturn
  | fuel + 1, s, some nodePtr, b => do
    let s ← changeCounts sub16 s nodePtr b
    let s ← refreshMaxFree s nodePtr
    match (s.nodesMem nodePtr).head with
    | some head => do
      let s ← updateNodeFreeCnt fuel s (some head) b
      changeCounts add16 s nodePtr b
    | none => changeCounts add16 s nodePtr b

/-! ## Allocating -/

/-- The branch of `alloc_in_node` that takes the node itself. -/
def takeNode (s : State) (nodePtr b : ℕ) : Except Fault (ℕ × State) := do
  let node := s.nodesMem nodePtr
  let c ← checkNodeBlockCounting s nodePtr
  let s := s.changeBySize (if c ≠ 0 then sub16 else add16) b node.depth 1
  let s := s.changeFree sub16 b node.maxFreePage
  let s := s.setNode nodePtr { node with maxFreePage := 0, isUsed := true }
  let s ← updateNodeFreeCnt standartDepth s node.head b
  return (node.startPtr, s)

/-- `alloc_in_node(node_ptr, size, block_ptr)`. -/
def allocInNode : ℕ → State → ℕ → ℕ → ℕ → Except Fault (ℕ × State)
  | 0, _, _, _, _ => .error .noReturn
  | fuel + 1, s, nodePtr, size, b =>
    let node := s.nodesMem nodePtr
    if node.maxFreePage = size ∧ node.cntPage = size then takeNode s nodePtr b
    else do
      let left ← deref node.leftChild
      if (s.nodesMem left).maxFreePage ≥ size then
        allocInNode fuel s left size b
      else do
        let right ← deref node.rightChild
        allocInNode fuel s right size b

/-- `alloc_in_block(block_ptr, size)`. -/
def allocInBlock (s : State) (b size : ℕ) : Except Fault (ℕ × State) :=
  let root := (s.blocks b).root
  if (s.nodesMem root).maxFreePage < size then .ok (0, s)
  else allocInNode standartDepth s root size b

/-- The loop of `checker_cnt_page`: halve while even.  It never ends on `0`. -/
def halveWhileEven : ℕ → ℕ → Except Fault ℕ
  | 0, _ => .error .noReturn
  | fuel + 1, cnt => if cnt % 2 = 0 then halveWhileEven fuel (cnt / 2) else .ok cnt

/-- `checker_cnt_page(cnt)`.  The product is a `uint32`; 32 turns are enough for
every non-zero `uint32`. -/
def checkerCntPage (cnt : ℕ) : Except Fault Bool :=
  if 2 * cnt % 2 ^ 32 > 2 ^ standartDepth then .ok false
  else do
    let cnt ← halveWhileEven 32 cnt
    return cnt == 1

/-- The loop of `buddy_alloc` over the blocks in `bs`. -/
def allocLoop : List ℕ → State → ℕ → Except Fault (ℕ × State)
  | [], s, _ => .ok (0, s)
  | b :: bs, s, size => do
    let (ptr, s) ← allocInBlock s b size
    if ptr ≠ 0 then return (ptr, s) else allocLoop bs s size

/-- `buddy_alloc(cnt)`.  The size reaches `alloc_in_block` as a `uint16`. -/
def buddyAlloc (s : State) (cnt : ℕ) : Except Fault (ℕ × State) := do
  if ← checkerCntPage cnt then
    allocLoop (List.range cntMemBlocks) s (cnt % 2 ^ 16)
  else
    return (0, s)

/-! ## Freeing -/

/-- The branch of `free_in_node` that gives the node itself back. -/
def releaseNode (s : State) (nodePtr b : ℕ) : Except Fault State := do
  let node := s.nodesMem nodePtr
  let s := s.setNode nodePtr { node with isUsed := false, maxFreePage := node.cntPage }
  let s := s.changeFree add16 b node.cntPage
  let s ← updateNodeFreeCnt standartDepth s node.head b
  let c ← checkNodeBlockCounting s nodePtr
  return s.changeBySize (if c ≠ 0 then add16 else sub16) b node.depth 1

/-- The first `if` of `free_in_node`. -/
def freeIfUsed (s : State) (nodePtr startPtr b : ℕ) : Except Fault State :=
  let node := s.nodesMem nodePtr
  if node.startPtr = startPtr ∧ node.isUsed = true then releaseNode s nodePtr b else .ok s

/-- `free_in_node(node_ptr, start_ptr, block_ptr)`.  It goes on to a child also
after it has given a node back. -/
def freeInNode : ℕ → State → ℕ → ℕ → ℕ → Except Fault State
  | 0, _, _, _, _ => .error .noReturn
  | fuel + 1, s, nodePtr, startPtr, b => do
    let s ← freeIfUsed s nodePtr startPtr b
    let node := s.nodesMem nodePtr
    match node.leftChild, node.rightChild with
    | some left, some right =>
      if node.startPtr + node.cntPage * pgSize / 2 ≤ startPtr then
        freeInNode fuel s right startPtr b
      else
        freeInNode fuel s left startPtr b
    | _, _ => return s

/-- `free_in_block(block_ptr, start_ptr)`. -/
def freeInBlock (s : State) (b startPtr : ℕ) : Except Fault State :=
  freeInNode standartDepth s (s.blocks b).root startPtr b

/-- `check_addr_in_block(pa, block_ptr)`. -/
def checkAddrInBlock (s : State) (pa b : ℕ) : Bool :=
  let root := s.nodesMem (s.blocks b).root
  root.startPtr ≤ pa && root.startPtr + root.cntPage * pgSize > pa

/-- One turn of the loop of `buddy_free`. -/
def freeStep (pa : ℕ) (s : State) (b : ℕ) : Except Fault State :=
  if checkAddrInBlock s pa b then freeInBlock s b pa else .ok s

/-- `buddy_free(pa)`, where `kend` is the linker symbol `end`. -/
def buddyFree (kend : ℕ) (s : State) (pa : ℕ) : Except Fault State :=
  if pa % pgSize ≠ 0 ∨ pa < kend ∨ pa ≥ physTop then .error (.panic "buddy_free_pa")
  else (List.range cntMemBlocks).foldlM (freeStep pa) s

/-! ## Statistics -/

/-- One turn of the loop of `mem_dump`. -/
def memDumpStep (s : State) (dump : BlocksInfo) (b : ℕ) : BlocksInfo where
  total := add16 dump.total (s.blocks b).info.total
  free := add16 dump.free (s.blocks b).info.free
  freeBySize := fun j => add16 (dump.freeBySize j) ((s.blocks b).info.freeBySize j)

/-- The totals that `mem_dump()` prints. -/
def memDump (s : State) : BlocksInfo :=
  (List.range cntMemBlocks).foldl (memDumpStep s) ⟨0, 0, fun _ => 0⟩

end Xv6.Buddy
