/-
# Processes and PID namespaces (`kernel/proc.c`)

The process table, the namespace nodes, the file table and the reference counts of
inodes, with `fork`, `clone`, `exit`, `wait` and what they call.  Pointers into the
tables are indices, a null pointer is `none`, and following one that is null is a
fault.  The kernel section of a call is one step here; the locks and the points where
a call can be interrupted are the subject of `WaitModel`.

A call that takes pages is given the answers of the allocator (`PagePool.supply`), so
a result for every supply covers every point at which an allocation can fail.

`Reach` describes all runs of the system: the first process is set up by `userinit`,
then running processes make system calls and the scheduler moves processes on and off
the CPUs in any order.
-/
import Xv6.VmModel

namespace Xv6

open Function

/-! ## Data -/

/-- `NPROC`. -/
def nproc : ℕ := 64

/-- `NNMND`, the number of namespace nodes. -/
def nnmnd : ℕ := 64

/-- `NOFILE`, open files per process. -/
def nofile : ℕ := 16

/-- `NFILE`, open files per system. -/
def nfile : ℕ := 100

/-- `ROOTINO`. -/
def rootIno : ℕ := 1

/-- The length of `namespace_pids`. -/
def npids : ℕ := 8

/-- The value of an `int` after arithmetic on 32 bits. -/
def int32 (x : ℤ) : ℤ := Int.bmod x (2 ^ 32)

/-- `enum procstate`. -/
inductive ProcState where
  | unused
  | used
  | sleeping
  | runnable
  | running
  | zombie
  deriving DecidableEq, Repr

/-- `struct proc`.  The channel is that of a `wait`, the sleeping process itself. -/
structure Proc where
  state : ProcState := .unused
  chan : Option ℕ := none
  killed : Bool := false
  xstate : ℤ := 0
  pid : ℤ := 0
  namespacePids : ℕ → ℤ := fun _ => 0
  node : Option ℕ := none
  parent : Option ℕ := none
  sz : ℕ := 0
  pagetable : Option PageTable := none
  trapframe : Option ℕ := none
  ofile : Fin nofile → Option ℕ := fun _ => none
  cwd : Option ℕ := none

/-- `struct namespace_node`. -/
structure NamespaceNode where
  cntProc : ℤ := 0
  lastPid : ℤ := 0
  init : Option ℕ := none
  head : Option ℕ := none
  depth : ℕ := 0

/-- `struct file`, with the inode of an `FD_INODE` or `FD_DEVICE` and `none` for `FD_NONE`. -/
structure File where
  ref : ℤ := 0
  ip : Option ℕ := none

/-- The kernel's tables. -/
structure Kernel where
  proc : ℕ → Proc
  used : ℕ → Bool
  nodes : ℕ → NamespaceNode
  initproc : Option ℕ
  nextpid : ℤ
  /-- The address of the trampoline code. -/
  trampoline : ℕ
  mem : PagePool
  file : ℕ → File
  inodeRef : ℕ → ℤ

namespace Kernel

/-- Change the slot `i` of the process table. -/
def updProc (s : Kernel) (i : ℕ) (f : Proc → Proc) : Kernel :=
  { s with proc := update s.proc i (f (s.proc i)) }

/-- Write entry `fd` of the open files of `i`. -/
def setFd (s : Kernel) (i : ℕ) (fd : Fin nofile) (f : Option ℕ) : Kernel :=
  s.updProc i fun q => { q with ofile := update q.ofile fd f }

/-- Fix what the allocator answers from now on. -/
def refill (s : Kernel) (supply : List ℕ) : Kernel :=
  { s with mem := { s.mem with supply := supply } }

end Kernel

/-! ## Files and inodes -/

/-- `idup(ip)`. -/
def idup (s : Kernel) (ip : ℕ) : Kernel :=
  { s with inodeRef := update s.inodeRef ip (s.inodeRef ip + 1) }

/-- `iput(ip)`; what it does to the disk when the last link is gone is left out. -/
def iput (s : Kernel) (ip : ℕ) : Kernel :=
  { s with inodeRef := update s.inodeRef ip (s.inodeRef ip - 1) }

/-- `filealloc()`. -/
def filealloc (s : Kernel) : Option ℕ × Kernel :=
  match (List.range nfile).find? (fun f => (s.file f).ref = 0) with
  | some f => (some f, { s with file := update s.file f { s.file f with ref := 1 } })
  | none => (none, s)

/-- `filedup(f)`. -/
def filedup (s : Kernel) (f : ℕ) : Except Fault Kernel :=
  if (s.file f).ref < 1 then .error (.panic "filedup")
  else .ok { s with file := update s.file f { s.file f with ref := (s.file f).ref + 1 } }

/-- `fileclose(f)`. -/
def fileclose (s : Kernel) (f : ℕ) : Except Fault Kernel :=
  if (s.file f).ref < 1 then .error (.panic "fileclose")
  else if (s.file f).ref - 1 > 0 then
    .ok { s with file := update s.file f { s.file f with ref := (s.file f).ref - 1 } }
  else
    let ff := s.file f
    let s := { s with file := update s.file f { ref := 0, ip := none } }
    match ff.ip with
    | some ip => .ok (iput s ip)
    | none => .ok s

/-- `fdalloc(f)` in process `p`. -/
def fdalloc (s : Kernel) (p f : ℕ) : Option (Fin nofile) × Kernel :=
  match (List.finRange nofile).find? (fun fd => (s.proc p).ofile fd = none) with
  | some fd => (some fd, s.setFd p fd (some f))
  | none => (none, s)

/-- `sys_open` from the point on where the path has led to the inode `ip`. -/
def sysOpen (s : Kernel) (p ip : ℕ) : Except Fault Kernel :=
  let s := idup s ip
  match filealloc s with
  | (none, s) => .ok (iput s ip)
  | (some f, s) =>
    match fdalloc s p f with
    | (none, s) => do
      let s ← fileclose s f
      return iput s ip
    | (some _, s) =>
      .ok { s with file := update s.file f { s.file f with ip := some ip } }

/-- `argfd` with the argument `fd`: a descriptor that is open, and its file. -/
def argfd (s : Kernel) (p : ℕ) (fd : ℤ) : Option (Fin nofile × ℕ) :=
  if h : 0 ≤ fd ∧ fd.toNat < nofile then
    ((s.proc p).ofile ⟨fd.toNat, h.2⟩).map fun f => (⟨fd.toNat, h.2⟩, f)
  else none

/-- `sys_dup`. -/
def sysDup (s : Kernel) (p : ℕ) (fd : ℤ) : Except Fault Kernel :=
  match argfd s p fd with
  | none => .ok s
  | some (_, f) =>
    match fdalloc s p f with
    | (none, s) => .ok s
    | (some _, s) => filedup s f

/-- `sys_close`. -/
def sysClose (s : Kernel) (p : ℕ) (fd : ℤ) : Except Fault Kernel :=
  match argfd s p fd with
  | none => .ok s
  | some (fd, f) => fileclose (s.setFd p fd none) f

/-! ## Slots of the process table -/

/-- `allocpid()`. -/
def allocpid (s : Kernel) : ℤ × Kernel :=
  (s.nextpid, { s with nextpid := int32 (s.nextpid + 1) })

/-- What `freeproc` leaves of a slot: the node, its pids, the files and the directory. -/
def Proc.cleared (p : Proc) : Proc :=
  { p with trapframe := none, pagetable := none, sz := 0, pid := 0, parent := none, chan := none,
           killed := false, xstate := 0, state := .unused }

/-- `freeproc(p)`: the trapframe. -/
def freeTrapframe (m : PagePool) (p : Proc) : Except Fault PagePool :=
  match p.trapframe with
  | some tf => kfree m tf
  | none => .ok m

/-- `freeproc(p)`: the page table and the user memory. -/
def freePagetable (m : PagePool) (p : Proc) : Except Fault PagePool :=
  match p.pagetable with
  | some pt => procFreepagetable pt m p.sz
  | none => .ok m

/-- `freeproc(p)`. -/
def freeproc (s : Kernel) (i : ℕ) : Except Fault Kernel := do
  let m ← freeTrapframe s.mem (s.proc i)
  let m ← freePagetable m (s.proc i)
  return { s with mem := m }.updProc i Proc.cleared

/-- `allocproc` from the label `found` on, for the slot `i`. -/
def allocprocFound (s : Kernel) (i : ℕ) : Except Fault (Option ℕ × Kernel) := do
  let (pid, s) := allocpid s
  let s := s.updProc i fun p => { p with pid := pid, state := .used }
  match kalloc s.mem with
  | (none, m) =>
    let s ← freeproc ({ s with mem := m }.updProc i fun p => { p with trapframe := none }) i
    return (none, s)
  | (some tf, m) =>
    let s := { s with mem := m }.updProc i fun p => { p with trapframe := some tf }
    match ← procPagetable s.trampoline tf s.mem with
    | (none, m) =>
      let s ← freeproc ({ s with mem := m }.updProc i fun p => { p with pagetable := none }) i
      return (none, s)
    | (some pt, m) =>
      return (some i, { s with mem := m }.updProc i fun p => { p with pagetable := some pt })

/-- `allocproc()`. -/
def allocproc (s : Kernel) : Except Fault (Option ℕ × Kernel) :=
  match (List.range nproc).find? (fun i => (s.proc i).state = .unused) with
  | none => .ok (none, s)
  | some i => allocprocFound s i

/-! ## Namespaces -/

/-- `namespace_malloc()`. -/
def namespaceMalloc (s : Kernel) : Option ℕ × Kernel :=
  match (List.range nnmnd).find? (fun i => s.used i = false) with
  | some i => (some i, { s with used := update s.used i true })
  | none => (none, s)

/-- `namespace_free(node)`, on `used`. -/
def namespaceFree (used : ℕ → Bool) (node : ℕ) : ℕ → Bool :=
  if node < nnmnd then update used node false else used

/-- The loop over the head chain in `fork` and `clone`: `k` more turns, at `localNode`. -/
def enterLoop : ℕ → Option ℕ → (ℕ → NamespaceNode) → (ℕ → ℤ) →
    Except Fault ((ℕ → NamespaceNode) × (ℕ → ℤ))
  | 0, _, nodes, pids => .ok (nodes, pids)
  | k + 1, localNode, nodes, pids => do
    let n ← deref localNode
    let node := nodes n
    if node.depth ≥ npids then .error .outOfBounds
    else
      enterLoop k node.head
        (update nodes n
          { node with cntProc := node.cntProc + 1, lastPid := int32 (node.lastPid + 1) })
        (update pids node.depth node.lastPid)

/-- The loop over the head chain in `exit`. -/
def leaveLoop : ℕ → Option ℕ → (ℕ → NamespaceNode) → Except Fault (ℕ → NamespaceNode)
  | 0, _, nodes => .ok nodes
  | k + 1, localNode, nodes => do
    let n ← deref localNode
    let node := nodes n
    leaveLoop k node.head (update nodes n { node with cntProc := node.cntProc - 1 })

/-- More turns than any loop over a head chain can make. -/
def chainFuel : ℕ := nnmnd + 1

/-- The loop of `clean_node(node)`, on `used`. -/
def cleanLoop : ℕ → (ℕ → NamespaceNode) → (ℕ → Bool) → Option ℕ → Except Fault (ℕ → Bool)
  | 0, _, _, _ => .error .noReturn
  | fuel + 1, nodes, used, node => do
    let n ← deref node
    if (nodes n).depth ≠ 0 ∧ (nodes n).cntProc = 0 then
      cleanLoop fuel nodes (namespaceFree used n) (nodes n).head
    else .ok used

/-- `clean_node(node)`. -/
def cleanNode (nodes : ℕ → NamespaceNode) (used : ℕ → Bool) (node : Option ℕ) :
    Except Fault (ℕ → Bool) :=
  cleanLoop chainFuel nodes used node

/-- The loop of `is_heir`. -/
def isHeirLoop : ℕ → (ℕ → NamespaceNode) → Option ℕ → Option ℕ → Except Fault Bool
  | 0, _, _, _ => .error .noReturn
  | fuel + 1, nodes, localNode, other => do
    let n ← deref localNode
    if (nodes n).depth > 0 then
      if localNode = other then .ok true
      else isHeirLoop fuel nodes (nodes n).head other
    else .ok (localNode = other)

/-- `is_heir(one, other)`. -/
def isHeir (nodes : ℕ → NamespaceNode) (one other : Option ℕ) : Except Fault Bool :=
  isHeirLoop chainFuel nodes one other

/-! ## Creating processes -/

/-- One turn of the loop of `fork` and `clone` over the open files. -/
def dupFile (p np : ℕ) (s : Kernel) (fd : Fin nofile) : Except Fault Kernel :=
  match (s.proc p).ofile fd with
  | none => .ok s
  | some f => do
    let s ← filedup s f
    return s.setFd np fd (some f)

/-- What `fork` and `clone` do after a successful `uvmcopy`, up to the copy of `cwd`. -/
def copyOpen (s : Kernel) (p np : ℕ) : Except Fault Kernel := do
  let _ ← deref (s.proc p).trapframe
  let _ ← deref (s.proc np).trapframe
  let s ← (List.finRange nofile).foldlM (dupFile p np) s
  let ip ← deref (s.proc p).cwd
  return (idup s ip).updProc np fun q => { q with cwd := some ip }

/-- The beginning of `fork` and `clone`: a new slot with a copy of the caller's memory, open
files and directory.  The result is the slot, `none` where the call returns `-1`. -/
def forkCopy (s : Kernel) (p : ℕ) : Except Fault (Option ℕ × Kernel) := do
  match ← allocproc s with
  | (none, s) => return (none, s)
  | (some np, s) =>
    let old ← deref (s.proc p).pagetable
    let new ← deref (s.proc np).pagetable
    match ← uvmcopy old new s.mem (s.proc p).sz with
    | (false, new, m) =>
      let s ← freeproc ({ s with mem := m }.updProc np fun q => { q with pagetable := some new }) np
      return (none, s)
    | (true, new, m) =>
      let sz := (s.proc p).sz
      let s ← copyOpen
        ({ s with mem := m }.updProc np fun q => { q with pagetable := some new, sz := sz }) p np
      return (some np, s)

/-- The rest of `fork` and `clone`, once the child `np` has its node: pids, parent, state. -/
def forkFinish (s : Kernel) (p np : ℕ) : Except Fault Kernel := do
  let n ← deref (s.proc np).node
  let (nodes, pids) ←
    enterLoop ((s.nodes n).depth + 1) (some n) s.nodes (s.proc np).namespacePids
  return { s with nodes := nodes }.updProc np fun q =>
    { q with namespacePids := pids, parent := some p, state := .runnable }

/-- `fork()`: the slot of the child, whose `pid` is returned, or `none` for `-1`. -/
def fork (s : Kernel) (p : ℕ) : Except Fault (Option ℕ × Kernel) := do
  match ← forkCopy s p with
  | (none, s) => return (none, s)
  | (some np, s) =>
    let node := (s.proc p).node
    let s ← forkFinish (s.updProc np fun q => { q with node := node }) p np
    return (some np, s)

/-- `clone()`: as `fork`, but the child starts a new namespace. -/
def clone (s : Kernel) (p : ℕ) : Except Fault (Option ℕ × Kernel) := do
  match ← forkCopy s p with
  | (none, s) => return (none, s)
  | (some np, s) =>
    let (node, s) := namespaceMalloc s
    let n ← deref node
    let head ← deref (s.proc p).node
    let node : NamespaceNode :=
      { cntProc := 0, lastPid := 1, init := some np, head := some head,
        depth := (s.nodes head).depth + 1 }
    let s := { s with nodes := update s.nodes n node }
    let s ← forkFinish (s.updProc np fun q => { q with node := some n }) p np
    return (some np, s)

/-! ## Leaving -/

/-- `wakeup(chan)`, called by `me`. -/
def wakeup (s : Kernel) (me : ℕ) (chan : Option ℕ) : Kernel :=
  { s with proc := fun q =>
      if q < nproc ∧ q ≠ me ∧ (s.proc q).state = .sleeping ∧ (s.proc q).chan = chan then
        { s.proc q with state := .runnable }
      else s.proc q }

/-- The loop of `reparent` that looks for the new parent. -/
def findInit : ℕ → (ℕ → NamespaceNode) → Option ℕ → Option ℕ → Except Fault (Option ℕ)
  | _, _, none, newInit => .ok newInit
  | 0, _, some _, _ => .error .noReturn
  | fuel + 1, nodes, some n, newInit =>
    match (nodes n).init with
    | some q => .ok (some q)
    | none => findInit fuel nodes (nodes n).head newInit

/-- One turn of the loop of `reparent` over the process table. -/
def reparentOne (p : ℕ) (newInit : Option ℕ) (s : Kernel) (pp : ℕ) : Kernel :=
  if (s.proc pp).parent = some p then
    wakeup (s.updProc pp fun q => { q with parent := newInit }) p s.initproc
  else s

/-- `reparent(p)`. -/
def reparent (s : Kernel) (p : ℕ) : Except Fault Kernel := do
  let n ← deref (s.proc p).node
  let nodes := if (s.nodes n).init = some p then
    update s.nodes n { s.nodes n with init := none } else s.nodes
  let newInit ← findInit chainFuel nodes (some n) s.initproc
  return (List.range nproc).foldl (reparentOne p newInit) { s with nodes := nodes }

/-- One turn of the loop of `exit` over the open files. -/
def closeFile (p : ℕ) (s : Kernel) (fd : Fin nofile) : Except Fault Kernel :=
  match (s.proc p).ofile fd with
  | none => .ok s
  | some f => do
    let s ← fileclose s f
    return s.setFd p fd none

/-- The first part of `exit`: the open files and the current directory. -/
def closeOpen (s : Kernel) (p : ℕ) : Except Fault Kernel := do
  let s ← (List.finRange nofile).foldlM (closeFile p) s
  let ip ← deref (s.proc p).cwd
  return (iput s ip).updProc p fun q => { q with cwd := none }

/-- The part of `exit` that takes `p` out of its namespaces. -/
def leaveNamespaces (s : Kernel) (p : ℕ) : Except Fault Kernel := do
  let n ← deref (s.proc p).node
  let nodes ← leaveLoop ((s.nodes n).depth + 1) (some n) s.nodes
  let used ← cleanNode nodes s.used (some n)
  return { s with nodes := nodes, used := used }

/-- `exit(status)`, up to the call of the scheduler. -/
def exit (s : Kernel) (p : ℕ) (status : ℤ) : Except Fault Kernel := do
  if s.initproc = some p then .error (.panic "init exiting")
  else
    let s ← closeOpen s p
    let s ← leaveNamespaces s p
    let s ← reparent s p
    let s := wakeup s p (s.proc p).parent
    return s.updProc p fun q => { q with xstate := status, state := .zombie }

/-- How a turn of the loop of `wait` ends. -/
inductive WaitResult where
  | ret (v : ℤ)
  | asleep
  deriving DecidableEq, Repr

/-- The scan of `wait` over the slots of a list, with the flag `havekids`.  `copyFails` says
whether `copyout` would fail. -/
def waitScan (s : Kernel) (p : ℕ) (copyFails : Bool) :
    List ℕ → Bool → Except Fault (Option ℤ × Bool × Kernel)
  | [], havekids => .ok (none, havekids, s)
  | pp :: l, havekids =>
    if (s.proc pp).parent = some p then
      if (s.proc pp).state = .zombie then
        if copyFails then .ok (some (-1), true, s)
        else do
          let pid := (s.proc pp).pid
          let s ← freeproc s pp
          return (some pid, true, s)
      else waitScan s p copyFails l true
    else waitScan s p copyFails l havekids

/-- `wait(addr)`, one turn of its loop: it returns, or goes to sleep. -/
def wait (s : Kernel) (p : ℕ) (copyFails : Bool) : Except Fault (WaitResult × Kernel) := do
  match ← waitScan s p copyFails (List.range nproc) false with
  | (some v, _, s) => return (.ret v, s)
  | (none, havekids, s) =>
    if havekids = false ∨ (s.proc p).killed then return (.ret (-1), s)
    else return (.asleep, s.updProc p fun q => { q with chan := some p, state := .sleeping })

/-! ## Looking at processes -/

/-- `sys_getpid()`. -/
def sysGetpid (s : Kernel) (p : ℕ) : Except Fault ℤ := do
  let n ← deref (s.proc p).node
  if (s.nodes n).depth ≥ npids then .error .outOfBounds
  else return (s.proc p).namespacePids (s.nodes n).depth

/-- The slot that `kill(pid)` marks. -/
def killTarget (s : Kernel) (pid : ℤ) : Option ℕ :=
  (List.range nproc).find? (fun q => (s.proc q).pid = pid)

/-- `kill(pid)`. -/
def kill (s : Kernel) (pid : ℤ) : ℤ × Kernel :=
  match killTarget s pid with
  | some q => (0, s.updProc q fun x =>
      { x with killed := true, state := if x.state = .sleeping then .runnable else x.state })
  | none => (-1, s)

/-- The test of `ps_list` on slot `q`, for a caller in the namespace `node`. -/
def listed (s : Kernel) (node q : ℕ) : Except Fault Bool :=
  if (s.proc q).state = .unused then .ok false
  else isHeir s.nodes (s.proc q).node (some node)

/-- The second loop of `ps_list`: the pids written so far are `out`. -/
def psListLoop (s : Kernel) (node depth : ℕ) (limit : ℤ) : List ℕ → List ℤ → Except Fault (List ℤ)
  | [], out => .ok out
  | q :: l, out => do
    let heir ← listed s node q
    let out := if heir then out ++ [(s.proc q).namespacePids depth] else out
    if out.length = limit then return out
    else psListLoop s node depth limit l out

/-- `ps_list(limit, pids)` called by `p`: the pids it writes. -/
def psList (s : Kernel) (p : ℕ) (limit : ℤ) : Except Fault (List ℤ) := do
  let n ← deref (s.proc p).node
  psListLoop s n (s.nodes n).depth limit (List.range nproc) []

/-! ## Runs -/

/-- The tables before `userinit`. -/
def bootState (kend trampoline : ℕ) (outstanding : Finset ℕ) (supply : List ℕ) : Kernel where
  proc := fun _ => {}
  used := fun _ => false
  nodes := fun _ => {}
  initproc := none
  nextpid := 1
  trampoline := trampoline
  mem := ⟨kend, outstanding, supply⟩
  file := fun _ => {}
  inodeRef := fun _ => 0

/-- `userinit()`. -/
def userinit (s : Kernel) : Except Fault Kernel := do
  let (slot, s) ← allocproc s
  let p ← deref slot
  let pt ← deref (s.proc p).pagetable
  let (pt, m) ← uvmfirst pt s.mem
  let s := idup { s with initproc := some p, mem := m } rootIno
  let (node, s) := namespaceMalloc s
  let n ← deref node
  let node : NamespaceNode :=
    { cntProc := 1, head := none, init := some p, lastPid := 2, depth := 0 }
  let s := { s with nodes := update s.nodes n node }
  return s.updProc p fun q =>
    { q with pagetable := some pt, sz := pgSize, cwd := some rootIno, state := .runnable,
             node := some n, namespacePids := update q.namespacePids 0 1 }

/-- What can happen next. -/
inductive Event where
  | fork (p : ℕ) (supply : List ℕ)
  | clone (p : ℕ) (supply : List ℕ)
  | exit (p : ℕ) (status : ℤ)
  | wait (p : ℕ) (copyFails : Bool)
  | sysOpen (p ip : ℕ)
  | sysDup (p : ℕ) (fd : ℤ)
  | sysClose (p : ℕ) (fd : ℤ)
  /-- The scheduler runs `p`; a process that was asleep clears its channel. -/
  | dispatch (p : ℕ)
  | yield (p : ℕ)

/-- The process that an event is about. -/
def Event.proc : Event → ℕ
  | .fork p _ | .clone p _ | .exit p _ | .wait p _ | .sysOpen p _ | .sysDup p _ | .sysClose p _
  | .dispatch p | .yield p => p

/-- The state a process must be in for an event. -/
def Event.needs : Event → ProcState
  | .dispatch _ => .runnable
  | _ => .running

/-- An event that can happen now. -/
def Enabled (s : Kernel) (e : Event) : Prop :=
  e.proc < nproc ∧ (s.proc e.proc).state = e.needs

instance (s : Kernel) (e : Event) : Decidable (Enabled s e) := inferInstanceAs (Decidable (_ ∧ _))

/-- One event, with the slot of the process it creates. -/
def step (s : Kernel) : Event → Except Fault (Option ℕ × Kernel)
  | .fork p supply => fork (s.refill supply) p
  | .clone p supply => clone (s.refill supply) p
  | .exit p status => do return (none, ← exit s p status)
  | .wait p copyFails => do return (none, (← wait s p copyFails).2)
  | .sysOpen p ip => do return (none, ← sysOpen s p ip)
  | .sysDup p fd => do return (none, ← sysDup s p fd)
  | .sysClose p fd => do return (none, ← sysClose s p fd)
  | .dispatch p => .ok (none, s.updProc p fun q => { q with state := .running, chan := none })
  | .yield p => .ok (none, s.updProc p fun q => { q with state := .runnable })

/-- The state after `userinit`.  Had its page not been mapped, the first process would not
get to a system call: it would be killed at its first instruction. -/
def Started (s : Kernel) : Prop :=
  (∃ kend trampoline outstanding supply,
    userinit (bootState kend trampoline outstanding supply) = .ok s)
  ∧ ∃ p pt pte, s.initproc = some p ∧ (s.proc p).pagetable = some pt ∧ pt.lookup 0 = some pte

/-- The number of processes an event has created. -/
def created : Option ℕ → ℕ
  | some _ => 1
  | none => 0

/-- `Reach ok n s`: some run leads to `s` after `n` processes have been created, and each of
its events met the condition `ok` in the state before it. -/
inductive Reach (ok : Kernel → Event → Prop) : ℕ → Kernel → Prop
  | start {s : Kernel} : Started s → Reach ok 1 s
  | step {n : ℕ} {s s' : Kernel} {e : Event} {child : Option ℕ} : Reach ok n s → Enabled s e →
      ok s e → step s e = .ok (child, s') → Reach ok (n + created child) s'

end Xv6
