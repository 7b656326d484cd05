/-
# Processes that interrupt each other (`kernel/proc.c`)

`ProcModel` takes the kernel section of a call as one step.  Here `fork`, `clone`, `exit` and
`wait` run in pieces, and the pieces of different processes come in any order.  A piece
is what happens under one acquisition of a lock, or one turn of a loop under `wait_lock`.
`Pc` says where a process is; the pieces are those of `ProcModel`.

The lock of a process is held across pieces only by the process itself, on its way
into the scheduler (`ownLocked`).
-/
import Xv6.KernelInv

namespace Xv6

open Function

/-! ## Pieces of calls -/

/-- The node and the pids of a new process, up to the end of the section under its lock. -/
def forkEnter (s : Kernel) (np : ℕ) : Except Fault Kernel := do
  let n ← deref (s.proc np).node
  let (nodes, pids) ←
    enterLoop ((s.nodes n).depth + 1) (some n) s.nodes (s.proc np).namespacePids
  return { s with nodes := nodes }.updProc np fun q => { q with namespacePids := pids }

/-- `fork()`, up to `release(&np->lock)`. -/
def forkAlloc (s : Kernel) (p : ℕ) : Except Fault (Option ℕ × Kernel) := do
  match ← forkCopy s p with
  | (none, s) => return (none, s)
  | (some np, s) =>
    let node := (s.proc p).node
    let s ← forkEnter (s.updProc np fun q => { q with node := node }) np
    return (some np, s)

/-- `clone()`, up to `release(&np->lock)`. -/
def cloneAlloc (s : Kernel) (p : ℕ) : Except Fault (Option ℕ × Kernel) := do
  match ← forkCopy s p with
  | (none, s) => return (none, s)
  | (some np, s) =>
    let (node, s) := namespaceMalloc s
    let n ← deref node
    let head ← deref (s.proc p).node
    let node : NamespaceNode :=
      { cntProc := 0, lastPid := 1, init := some np, head := some head,
        depth := (s.nodes head).depth + 1 }
    let s := { s with nodes := update s.nodes n node }
    let s ← forkEnter (s.updProc np fun q => { q with node := some n }) np
    return (some np, s)

/-- `reparent(p)`, up to the choice of `new_init`. -/
def chooseInit (s : Kernel) (p : ℕ) : Except Fault (Option ℕ × Kernel) := do
  let n ← deref (s.proc p).node
  let nodes := if (s.nodes n).init = some p then
    update s.nodes n { s.nodes n with init := none } else s.nodes
  let newInit ← findInit chainFuel nodes (some n) s.initproc
  return (newInit, { s with nodes := nodes })

/-- One turn of the loop of `wakeup(chan)`, called by `me`, at the slot `q`. -/
def wakeOne (s : Kernel) (me : ℕ) (chan : Option ℕ) (q : ℕ) : Kernel :=
  if q ≠ me ∧ (s.proc q).state = .sleeping ∧ (s.proc q).chan = chan then
    s.updProc q fun x => { x with state := .runnable }
  else s

/-! ## Where a process is -/

/-- The next piece of a process.  `wait` takes along whether `copyout` would fail. -/
inductive Pc where
  /-- Outside of these calls. -/
  | user
  /-- `fork`, `clone`: the child is set up; `wait_lock` for its parent is next. -/
  | forked (np : ℕ)
  /-- `fork`, `clone`: the child has its parent and is to become runnable. -/
  | linked (np : ℕ)
  /-- `exit`: the files are closed, `wait_lock` is next. -/
  | exiting (status : ℤ)
  /-- `exit`, with `wait_lock`: the counts of the nodes and `clean_node` are next. -/
  | leaving (status : ℤ)
  /-- `reparent`: the choice of `new_init` is next. -/
  | choosing (status : ℤ)
  /-- `reparent`: the turn for the slot `pp` is next. -/
  | handing (status : ℤ) (newInit : Option ℕ) (pp : ℕ)
  /-- `reparent`: in `wakeup(initproc)`, at the slot `i`, in the turn for the slot `pp`. -/
  | wakingInit (status : ℤ) (newInit : Option ℕ) (pp i : ℕ)
  /-- `exit`: in `wakeup(p->parent)`, at the slot `i`. -/
  | wakingParent (status : ℤ) (chan : Option ℕ) (i : ℕ)
  /-- `exit`: the process is to become a zombie. -/
  | dying (status : ℤ)
  /-- `exit`: a zombie that holds `wait_lock` and its own lock. -/
  | dead
  /-- `exit`: a zombie on its way into the scheduler, with its own lock. -/
  | gone
  | stopped
  /-- `wait`: `wait_lock` is next. -/
  | waiting (copyFails : Bool)
  /-- `wait`, with `wait_lock`: the scan is at the slot `pp`. -/
  | scanning (copyFails : Bool) (pp : ℕ) (havekids : Bool)
  /-- `wait`: the scan has found no zombie. -/
  | deciding (copyFails havekids : Bool)
  /-- `sleep`: its own lock is next. -/
  | sleeping (copyFails : Bool)
  /-- `sleep`: it has its own lock and has released `wait_lock`. -/
  | committed (copyFails : Bool)
  /-- `sleep`: in the scheduler, or back from it. -/
  | asleep (copyFails : Bool)
  deriving DecidableEq

namespace Pc

/-- The process holds `wait_lock`. -/
def holdsWait : Pc → Bool
  | .leaving _ | .choosing _ | .handing .. | .wakingInit .. | .wakingParent .. | .dying _ | .dead
  | .scanning .. | .deciding .. | .sleeping _ => true
  | _ => false

/-- The process holds its own lock between two pieces. -/
def ownLocked : Pc → Bool
  | .dead | .gone | .committed _ => true
  | _ => false

/-- Interrupts are on, so the process can be made to yield. -/
def interruptible : Pc → Bool
  | .user | .forked _ | .linked _ | .exiting _ | .waiting _ => true
  | _ => false

end Pc

/-- The tables, where each process is, and who holds `wait_lock`. -/
structure Threads where
  kernel : Kernel
  pc : ℕ → Pc
  waitLock : Option ℕ

/-- The lock of the process `q` is free. -/
def Threads.LockFree (t : Threads) (q : ℕ) : Prop := (t.pc q).ownLocked = false

instance (t : Threads) (q : ℕ) : Decidable (t.LockFree q) := inferInstanceAs (Decidable (_ = _))

/-- Move `p` to the piece `pc`. -/
def Threads.goto (t : Threads) (p : ℕ) (pc : Pc) : Threads :=
  { t with pc := update t.pc p pc }

/-! ## Steps -/

inductive Call where
  | fork (supply : List ℕ)
  | clone (supply : List ℕ)
  | exit (status : ℤ)
  | wait (copyFails : Bool)

inductive Act where
  /-- A process makes a call and runs its first piece. -/
  | call (p : ℕ) (c : Call)
  /-- A process in a call runs its next piece. -/
  | run (p : ℕ)
  | dispatch (p : ℕ)
  | yield (p : ℕ)
  | kill (pid : ℤ)

/-- The locks that the next piece of `p` acquires are free. -/
@[reducible]
def Threads.UnblockedAt (t : Threads) (p : ℕ) : Pc → Prop
  | .user | .stopped => False
  | .forked _ | .exiting _ | .waiting _ => t.waitLock = none
  | .linked np => t.LockFree np
  | .wakingInit _ _ _ i | .wakingParent _ _ i => i ≠ p → t.LockFree i
  | .scanning _ pp _ => (t.kernel.proc pp).parent = some p → t.LockFree pp
  | _ => True

instance (t : Threads) (p : ℕ) (c : Pc) : Decidable (t.UnblockedAt p c) := by
  cases c <;> infer_instance

/-- A step that can happen now. -/
@[reducible]
def Ready (t : Threads) : Act → Prop
  | .call p _ => p < nproc ∧ (t.kernel.proc p).state = .running ∧ t.pc p = .user
  | .run p => p < nproc ∧ ((t.kernel.proc p).state = .running ∨ t.pc p = .dead ∨ t.pc p = .gone)
      ∧ t.UnblockedAt p (t.pc p)
  | .dispatch p => p < nproc ∧ (t.kernel.proc p).state = .runnable ∧ t.LockFree p
  | .yield p => p < nproc ∧ (t.kernel.proc p).state = .running ∧ (t.pc p).interruptible = true
  | .kill pid => ∀ q ∈ killTarget t.kernel pid, t.LockFree q

instance (t : Threads) (a : Act) : Decidable (Ready t a) := by
  cases a <;> infer_instance

/-- The first piece of a call. -/
def startCall (t : Threads) (p : ℕ) : Call → Except Fault Threads
  | .fork supply => do
    match ← forkAlloc (t.kernel.refill supply) p with
    | (none, k) => return { t with kernel := k }
    | (some np, k) => return ({ t with kernel := k }.goto np .user).goto p (.forked np)
  | .clone supply => do
    match ← cloneAlloc (t.kernel.refill supply) p with
    | (none, k) => return { t with kernel := k }
    | (some np, k) => return ({ t with kernel := k }.goto np .user).goto p (.forked np)
  | .exit status => do
    if t.kernel.initproc = some p then .error (.panic "init exiting")
    else
      let k ← closeOpen t.kernel p
      return { t with kernel := k }.goto p (.exiting status)
  | .wait copyFails => .ok (t.goto p (.waiting copyFails))

/-- The next piece of a call. -/
def runPiece (t : Threads) (p : ℕ) : Except Fault Threads :=
  match t.pc p with
  | .user | .stopped => .ok t
  | .forked np =>
    .ok ({ t with kernel := t.kernel.updProc np fun q => { q with parent := some p } }.goto p
      (.linked np))
  | .linked np =>
    .ok ({ t with kernel := t.kernel.updProc np fun q => { q with state := .runnable } }.goto p
      .user)
  | .exiting status => .ok ({ t with waitLock := some p }.goto p (.leaving status))
  | .leaving status => do
    let k ← leaveNamespaces t.kernel p
    return { t with kernel := k }.goto p (.choosing status)
  | .choosing status => do
    let (newInit, k) ← chooseInit t.kernel p
    return { t with kernel := k }.goto p (.handing status newInit 0)
  | .handing status newInit pp =>
    if pp < nproc then
      if (t.kernel.proc pp).parent = some p then
        .ok ({ t with kernel := t.kernel.updProc pp fun q => { q with parent := newInit } }.goto p
          (.wakingInit status newInit pp 0))
      else .ok (t.goto p (.handing status newInit (pp + 1)))
    else .ok (t.goto p (.wakingParent status (t.kernel.proc p).parent 0))
  | .wakingInit status newInit pp i =>
    if i < nproc then
      .ok ({ t with kernel := wakeOne t.kernel p t.kernel.initproc i }.goto p
        (.wakingInit status newInit pp (i + 1)))
    else .ok (t.goto p (.handing status newInit (pp + 1)))
  | .wakingParent status chan i =>
    if i < nproc then
      .ok ({ t with kernel := wakeOne t.kernel p chan i }.goto p
        (.wakingParent status chan (i + 1)))
    else .ok (t.goto p (.dying status))
  | .dying status =>
    .ok ({ t with kernel := t.kernel.updProc p fun q => { q with xstate := status, state := .zombie } }.goto
      p .dead)
  | .dead => .ok ({ t with waitLock := none }.goto p .gone)
  | .gone => .ok (t.goto p .stopped)
  | .waiting copyFails => .ok ({ t with waitLock := some p }.goto p (.scanning copyFails 0 false))
  | .scanning copyFails pp havekids =>
    if pp < nproc then
      if (t.kernel.proc pp).parent = some p then
        if (t.kernel.proc pp).state = .zombie then
          if copyFails then .ok ({ t with waitLock := none }.goto p .user)
          else do
            let k ← freeproc t.kernel pp
            return { t with kernel := k, waitLock := none }.goto p .user
        else .ok (t.goto p (.scanning copyFails (pp + 1) true))
      else .ok (t.goto p (.scanning copyFails (pp + 1) havekids))
    else .ok (t.goto p (.deciding copyFails havekids))
  | .deciding copyFails havekids =>
    if havekids = false ∨ (t.kernel.proc p).killed then .ok ({ t with waitLock := none }.goto p .user)
    else .ok (t.goto p (.sleeping copyFails))
  | .sleeping copyFails => .ok ({ t with waitLock := none }.goto p (.committed copyFails))
  | .committed copyFails =>
    .ok ({ t with kernel := t.kernel.updProc p fun q =>
      { q with chan := some p, state := .sleeping } }.goto p (.asleep copyFails))
  | .asleep copyFails =>
    .ok ({ t with kernel := t.kernel.updProc p fun q => { q with chan := none } }.goto p
      (.waiting copyFails))

/-- One step. -/
def act (t : Threads) : Act → Except Fault Threads
  | .call p c => startCall t p c
  | .run p => runPiece t p
  | .dispatch p => .ok { t with kernel := t.kernel.updProc p fun q => { q with state := .running } }
  | .yield p => .ok { t with kernel := t.kernel.updProc p fun q => { q with state := .runnable } }
  | .kill pid => .ok { t with kernel := (kill t.kernel pid).2 }

/-- `Interleaved ok t`: some run leads to `t`, and each of its steps met the condition `ok` in the
state before it. -/
inductive Interleaved (ok : Threads → Act → Prop) : Threads → Prop
  | start {k : Kernel} : Started k → Interleaved ok ⟨k, fun _ => .user, none⟩
  | step {t t' : Threads} {a : Act} : Interleaved ok t → Ready t a → ok t a → act t a = .ok t' →
      Interleaved ok t'

end Xv6
