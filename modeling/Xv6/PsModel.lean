/-
# Looking at other processes (`ps_info`, `ps_pt0`, `ps_pt1`, `ps_pt2`, `ps_copy`, `ps_sleep_info`)

The system calls that read another process.  `find_proc` takes the lock of every slot in
turn and returns with the lock of the slot it has found, so each call passes on the set
of process locks that its CPU holds; taking a lock twice and releasing one that is not
held are panics.  What the calls write into user memory is left out, apart from the
record of `ps_info`; whether `copyout` reaches the source is part of the model, because
the source can be a null pointer.
-/
import Xv6.ExecModel

namespace Xv6

/-! ## Locks -/

/-- `acquire(&proc[i].lock)` on a CPU that holds the locks of `held`. -/
def acquireProc (held : Finset ℕ) (i : ℕ) : Except Fault (Finset ℕ) :=
  if i ∈ held then .error (.panic "acquire") else .ok (insert i held)

/-- `release(&proc[i].lock)`. -/
def releaseProc (held : Finset ℕ) (i : ℕ) : Except Fault (Finset ℕ) :=
  if i ∈ held then .ok (held.erase i) else .error (.panic "release")

/-! ## Pids in a namespace -/

/-- The test of `find_proc` on slot `i`. -/
def hasPid (s : Kernel) (pid : ℤ) (n i : ℕ) : Except Fault Bool :=
  if (s.proc i).namespacePids (s.nodes n).depth = pid then isHeir s.nodes (s.proc i).node (some n)
  else .ok false

/-- The loop of `find_proc(pid, node)` over the slots of a list. -/
def findProcLoop (s : Kernel) (pid : ℤ) (n : ℕ) : List ℕ → Finset ℕ →
    Except Fault (Option ℕ × Finset ℕ)
  | [], held => .ok (none, held)
  | i :: l, held => do
    let held ← acquireProc held i
    let found ← hasPid s pid n i
    if found then return (some i, held)
    else
      let held ← releaseProc held i
      findProcLoop s pid n l held

/-- `find_proc(pid, node)`: the slot, with its lock held. -/
def findProc (s : Kernel) (pid : ℤ) (n : ℕ) (held : Finset ℕ) :
    Except Fault (Option ℕ × Finset ℕ) :=
  findProcLoop s pid n (List.range nproc) held

/-- `get_pid(p, node)`. -/
def getPid (s : Kernel) (p n : ℕ) : Except Fault ℤ := do
  let heir ← isHeir s.nodes (s.proc p).node (some n)
  return if heir then (s.proc p).namespacePids (s.nodes n).depth else 0

/-- `get_ppid(p, node)`. -/
def getPpid (s : Kernel) (p n : ℕ) : Except Fault ℤ :=
  if s.initproc = some p then .ok 0
  else do
    let parent ← deref (s.proc p).parent
    getPid s parent n

/-! ## The calls -/

/-- `copyout(pagetable, dstva, src, len)` from a pointer `src` that may be null: `memmove` reads
it as soon as the first page of the destination is there. -/
def copyoutFromPtr {α : Type} (pt : PageTable) (dstva : ℕ) (src : Option α) (len : ℕ) :
    Except Fault Bool :=
  if len = 0 then .ok true
  else if walkaddr pt (dstva / pgSize * pgSize) = 0 then .ok false
  else do
    let _ ← deref src
    return copyout pt dstva len

/-- `struct proccess_info`, without the name and the times. -/
structure ProcInfo where
  state : ProcState
  pid : ℤ
  parentPid : ℤ
  sz : ℕ
  cntOfile : ℕ

/-- `sizeof(struct proccess_info)`. -/
def procInfoSize : ℕ := 64

/-- `sizeof(struct write_info)`. -/
def writeInfoSize : ℕ := 32

/-- The record that `ps_info` fills in for `p`. -/
def procInfo (s : Kernel) (p n : ℕ) : Except Fault ProcInfo := do
  let pid ← getPid s p n
  let parentPid ← getPpid s p n
  return { state := (s.proc p).state, pid := pid, parentPid := parentPid, sz := (s.proc p).sz,
           cntOfile := ((List.finRange nofile).filter fun fd => ((s.proc p).ofile fd).isSome).length }

/-- `ps_info(pid, pinfoAddr)` called by `me`, with the record it fills in. -/
def psInfo (s : Kernel) (me : ℕ) (pid : ℤ) (pinfoAddr : ℕ) (held : Finset ℕ) :
    Except Fault (ℤ × Option ProcInfo × Finset ℕ) := do
  let n ← deref (s.proc me).node
  let (slot, held) ← findProc s pid n held
  let p ← deref slot
  if (s.proc p).namespacePids (s.nodes n).depth ≠ pid then
    let held ← releaseProc held p
    return (-1, none, held)
  else
    let info ← procInfo s p n
    let pt ← deref (s.proc me).pagetable
    let _ ← copyoutFromPtr pt pinfoAddr (some info) procInfoSize
    let held ← releaseProc held p
    return (0, some info, held)

/-- `copy_from_level(pagetable, va, 1)`. -/
def copyFromLevel1 (pagetable : Option PageTable) (va : ℕ) : Except Fault (Option MidTable) :=
  if va ≥ maxVa then .error (.panic "ps_pt")
  else do
    let pt ← deref pagetable
    return pt.entry (px 2 va)

/-- `copy_from_level(pagetable, va, 0)`. -/
def copyFromLevel0 (pagetable : Option PageTable) (va : ℕ) : Except Fault (Option LeafTable) := do
  let mid ← copyFromLevel1 pagetable va
  return mid.bind fun mid => mid.entry (px 1 va)

/-- `ps_pt0`, `ps_pt1` and `ps_pt2`, which differ in the table of the process that they copy. -/
def psPt {α : Type} (table : Proc → Except Fault (Option α)) (s : Kernel) (me : ℕ) (pid : ℤ)
    (tableAddr : ℕ) (held : Finset ℕ) : Except Fault (ℤ × Finset ℕ) := do
  let n ← deref (s.proc me).node
  match ← findProc s pid n held with
  | (none, held) => return (-1, held)
  | (some p, held) =>
    let held ← acquireProc held me
    let src ← table (s.proc p)
    let pt ← deref (s.proc me).pagetable
    let _ ← copyoutFromPtr pt tableAddr src (512 * 8)
    let held ← releaseProc held p
    let held ← releaseProc held me
    return (0, held)

/-- `ps_pt0(pid, tableAddr)`. -/
def psPt0 (s : Kernel) (me : ℕ) (pid : ℤ) (tableAddr : ℕ) (held : Finset ℕ) :
    Except Fault (ℤ × Finset ℕ) :=
  psPt (fun q => .ok q.pagetable) s me pid tableAddr held

/-- `ps_pt1(pid, addr, tableAddr)`. -/
def psPt1 (s : Kernel) (me : ℕ) (pid : ℤ) (addr tableAddr : ℕ) (held : Finset ℕ) :
    Except Fault (ℤ × Finset ℕ) :=
  psPt (fun q => copyFromLevel1 q.pagetable addr) s me pid tableAddr held

/-- `ps_pt2(pid, addr, tableAddr)`. -/
def psPt2 (s : Kernel) (me : ℕ) (pid : ℤ) (addr tableAddr : ℕ) (held : Finset ℕ) :
    Except Fault (ℤ × Finset ℕ) :=
  psPt (fun q => copyFromLevel0 q.pagetable addr) s me pid tableAddr held

/-- The loop of `ps_copy` over the page table of the process it has found, `k` more turns:
every turn takes `PGSIZE` off the size.  `false` where it returns `-1`. -/
def psCopyLoop (pt : PageTable) (pagetable : Option PageTable) : ℕ → ℕ → ℕ → Except Fault Bool
  | 0, _, _ => .ok true
  | k + 1, addr, copyAddr => do
    let table ← copyFromLevel0 pagetable addr
    let leaf ← deref table
    match leaf.pte (px 0 addr) with
    | none => return false
    | some pte =>
      let _ ← copyoutFromPtr pt copyAddr (some pte.pa) pgSize
      psCopyLoop pt pagetable k (uint64 (addr + pgSize)) (uint64 (copyAddr + pgSize))

/-- `ps_copy(pid, addr, size, copyAddr)`. -/
def psCopy (s : Kernel) (me : ℕ) (pid : ℤ) (addr : ℕ) (size : ℤ) (copyAddr : ℕ)
    (held : Finset ℕ) : Except Fault (ℤ × Finset ℕ) := do
  let n ← deref (s.proc me).node
  let (slot, held) ← findProc s pid n held
  let held ← acquireProc held me
  let p ← deref slot
  let pt ← deref (s.proc me).pagetable
  let ok ← psCopyLoop pt (s.proc p).pagetable ((size.toNat + pgSize - 1) / pgSize) addr copyAddr
  if ok then
    let held ← releaseProc held me
    let held ← releaseProc held p
    return (0, held)
  else return (-1, held)

/-- `ps_sleep_info(pid, infoAddr)`. -/
def psSleepInfo (s : Kernel) (me : ℕ) (pid : ℤ) (infoAddr : ℕ) (held : Finset ℕ) :
    Except Fault (ℤ × Finset ℕ) := do
  let n ← deref (s.proc me).node
  match ← findProc s pid n held with
  | (none, held) => return (-1, held)
  | (some p, held) =>
    let tf ← deref (s.proc p).trapframe
    let held ← if me ≠ p then acquireProc held me else .ok held
    let pt ← deref (s.proc me).pagetable
    let _ ← copyoutFromPtr pt infoAddr (some tf) writeInfoSize
    let held ← releaseProc held p
    if me ≠ p then
      let held ← releaseProc held me
      return (0, held)
    else return (0, held)

/-- A call that looks at another process. -/
inductive PsCall where
  | info (pid : ℤ) (pinfoAddr : ℕ)
  | pt0 (pid : ℤ) (tableAddr : ℕ)
  | pt1 (pid : ℤ) (addr tableAddr : ℕ)
  | pt2 (pid : ℤ) (addr tableAddr : ℕ)
  | copy (pid : ℤ) (addr : ℕ) (size : ℤ) (copyAddr : ℕ)
  | sleepInfo (pid : ℤ) (infoAddr : ℕ)

/-- The pid that is asked for. -/
def PsCall.pid : PsCall → ℤ
  | .info pid _ | .pt0 pid _ | .pt1 pid _ _ | .pt2 pid _ _ | .copy pid _ _ _
  | .sleepInfo pid _ => pid

/-- A call made by `me`: the return value, and the locks that are held afterwards. -/
def psCall (s : Kernel) (me : ℕ) (held : Finset ℕ) : PsCall → Except Fault (ℤ × Finset ℕ)
  | .info pid pinfoAddr => do
    let (ret, _, held) ← psInfo s me pid pinfoAddr held
    return (ret, held)
  | .pt0 pid tableAddr => psPt0 s me pid tableAddr held
  | .pt1 pid addr tableAddr => psPt1 s me pid addr tableAddr held
  | .pt2 pid addr tableAddr => psPt2 s me pid addr tableAddr held
  | .copy pid addr size copyAddr => psCopy s me pid addr size copyAddr held
  | .sleepInfo pid infoAddr => psSleepInfo s me pid infoAddr held

end Xv6
