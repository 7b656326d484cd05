/-
# Which locks the process code takes

The functions of `proc.c`, `trap.c` and `sysproc.c` that take `pid_lock`, `wait_lock`,
`tickslock` or a process lock, as commands over the part of the process table that decides
which locks they take.  A choice that this part does not decide is left open: whether
there is memory, whether `copyout` succeeds, what `kill` has done, what user code calls
next, which process inherits a child.  Locks other than these four kinds, such as the
lock that a driver passes to `sleep`, do not occur.
-/
import Xv6.LockLang
import Xv6.ProcModel

namespace Xv6.Locks

open Function LockLang

/-- A slot of the process table. -/
abbrev Slot := Fin nproc

inductive Lock where
  | pidLock
  | waitLock
  | tickslock
  | proc (p : Slot)
  deriving DecidableEq

/-- The function that takes a lock. -/
inductive Site where
  | scheduler
  | sched
  | yield
  | sleep
  | wakeup
  | allocpid
  | allocproc
  | fork
  | clone
  | exit
  | wait
  | killed
  | sysSleep
  | clockintr
  deriving DecidableEq

/-- A lock, and the function that takes it. -/
structure Use where
  lock : Lock
  site : Site
  deriving DecidableEq

/-- What a process sleeps on. -/
inductive Chan where
  | proc (p : Slot)
  | ticks
  | other
  deriving DecidableEq

/-- The process table, `ticks`, and the local variables of the system calls of a process. -/
structure Table where
  state : Slot → ProcState
  chan : Slot → Option Chan
  parent : Slot → Option Slot
  initproc : Slot
  ticks : ℕ
  havekids : Slot → Bool
  k : Slot → Bool
  ticks0 : Slot → ℕ

abbrev Code := Cmd Table Use Lock Slot

def acquire (site : Site) (l : Lock) : Code := .acquire ⟨l, site⟩

/-- `p->state = st`. -/
def setState (p : Slot) (st : ProcState) : Code :=
  .act fun t => { t with state := update t.state p st }

def setChan (p : Slot) (chan : Option Chan) : Code :=
  .act fun t => { t with chan := update t.chan p chan }

def setParent (p : Slot) (parent : Option Slot) : Code :=
  .act fun t => { t with parent := update t.parent p parent }

/-- A loop over the process table. -/
def forProcs (body : Slot → Code) : Code := .block ((List.finRange nproc).map body)

/-! ## Scheduling -/

/-- `sched()` of the process `p`. -/
def sched (p : Slot) : Code := .block [
  .when (fun _ t => t.state p = .running) (.panic "sched running"),
  .swtchBack p,
  acquire .sched .tickslock,
  .release .tickslock]

/-- `yield()`. -/
def yield (p : Slot) : Code := .block [
  acquire .yield (.proc p),
  setState p .runnable,
  sched p,
  .release (.proc p)]

/-- `wakeup(chan)`, called for the process `me` or for none. -/
def wakeup (me : Option Slot) (chan : Table → Option Chan) : Code :=
  forProcs fun p =>
    if me = some p then .skip
    else .block [
      acquire .wakeup (.proc p),
      .when (fun _ t => t.state p = .sleeping && t.chan p = chan t) (setState p .runnable),
      .release (.proc p)]

/-- `sleep(chan, lk)`, where `lk` is one of the locks here. -/
def sleep (p : Slot) (chan : Chan) (lk : Lock) : Code := .block [
  acquire .sleep (.proc p),
  .release lk,
  setChan p (some chan),
  setState p .sleeping,
  sched p,
  setChan p none,
  .release (.proc p),
  acquire .sleep lk]

/-- `sleep(chan, lk)`, where `lk` is another lock. -/
def sleepOther (p : Slot) : Code := .block [
  acquire .sleep (.proc p),
  setChan p (some .other),
  setState p .sleeping,
  sched p,
  setChan p none,
  .release (.proc p)]

/-- Code that waits for a device or for another process: it sleeps and wakes others up. -/
def otherCode (p : Slot) : Code :=
  .loop (.any fun n =>
    if n = 0 then .brk
    else if n = 1 then sleepOther p
    else wakeup (some p) fun _ => some .other)

/-- The body of the loop of `scheduler()`. -/
def schedule (p : Slot) : Code := .block [
  acquire .scheduler (.proc p),
  .when (fun _ t => t.state p = .runnable) (.block [
    setState p .running,
    acquire .scheduler .tickslock,
    .release .tickslock,
    .swtchTo p]),
  .release (.proc p)]

/-- `scheduler()`. -/
def scheduler : Code := .loop (forProcs schedule)

/-! ## Processes come and go -/

/-- `allocpid()`. -/
def allocpid : Code := .block [acquire .allocpid .pidLock, .release .pidLock]

/-- `freeproc(p)`. -/
def freeproc (p : Slot) : Code := .block [setParent p none, setChan p none, setState p .unused]

/-- `allocproc()` over the slots of a list, with what its caller does when it returns a process or
none. -/
def allocprocFrom (found : Slot → Code) (fail : Code) : List Slot → Code
  | [] => fail
  | p :: l => .block [
      acquire .allocproc (.proc p),
      .ite (fun _ t => t.state p = .unused)
        (.block [
          allocpid,
          setState p .used,
          .any fun memory =>
            if memory = 0 then .block [freeproc p, .release (.proc p), fail]
            else .block [.spawn p, found p]])
        (.block [.release (.proc p), allocprocFrom found fail l])]

/-- `fork()` and `clone()`, which take the same locks. -/
def forkAt (site : Site) (p : Slot) : Code :=
  allocprocFrom (fun np => .any fun memory =>
      if memory = 0 then .block [freeproc np, .release (.proc np)]
      else .block [
        acquire site .tickslock,
        .release .tickslock,
        .release (.proc np),
        acquire site .waitLock,
        setParent np (some p),
        .release .waitLock,
        acquire site (.proc np),
        setState np .runnable,
        .release (.proc np)])
    .skip (List.finRange nproc)

/-- `reparent(p)`: the process that inherits the children is left open. -/
def reparent (p : Slot) : Code :=
  forProcs fun pp => .when (fun _ t => t.parent pp = some p) (.block [
    .any fun heir => .act fun t =>
      { t with parent := update t.parent pp ((List.finRange nproc).find? fun q => q.val = heir) },
    wakeup (some p) fun t => some (.proc t.initproc)])

/-- `exit(status)`. -/
def exit (p : Slot) : Code := .block [
  .when (fun _ t => t.initproc = p) (.panic "init exiting"),
  otherCode p,
  acquire .exit .waitLock,
  reparent p,
  wakeup (some p) fun t => (t.parent p).map .proc,
  acquire .exit (.proc p),
  setState p .zombie,
  .release .waitLock,
  sched p,
  .panic "zombie exit"]

/-- `killed(p)`: what another process has done by `kill` is left open. -/
def killed (p : Slot) : Code := .block [
  acquire .killed (.proc p),
  .any fun k => .act fun t => { t with k := update t.k p (k ≠ 0) },
  .release (.proc p)]

/-- What `wait` does with the child `pp` of `p`; `brk` is its `return`. -/
def waitChild (p pp : Slot) : Code := .block [
  acquire .wait (.proc pp),
  .act fun t => { t with havekids := update t.havekids p true },
  .ite (fun _ t => t.state pp = .zombie)
    (.any fun copied =>
      if copied = 0 then .block [.release (.proc pp), .release .waitLock, .brk]
      else .block [freeproc pp, .release (.proc pp), .release .waitLock, .brk])
    (.release (.proc pp))]

/-- `wait(addr)`. -/
def wait (p : Slot) : Code := .block [
  acquire .wait .waitLock,
  .loop (.block [
    .act fun t => { t with havekids := update t.havekids p false },
    forProcs fun pp => .when (fun _ t => t.parent pp = some p) (waitChild p pp),
    .ite (fun _ t => !t.havekids p)
      (.block [.release .waitLock, .brk])
      (.block [
        killed p,
        .ite (fun _ t => t.k p)
          (.block [.release .waitLock, .brk])
          (sleep p (.proc p) .waitLock)])])]

/-! ## The clock -/

/-- `sys_sleep()` for `n` ticks.  It also releases `tickslock` where it returns early. -/
def sysSleep (p : Slot) (n : ℕ) : Code := .block [
  acquire .sysSleep .tickslock,
  .act fun t => { t with ticks0 := update t.ticks0 p t.ticks },
  .loop (.ite (fun _ t => (t.ticks + 2 ^ 32 - t.ticks0 p) % 2 ^ 32 < n)
    (.block [killed p, .ite (fun _ t => t.k p) .brk (sleep p .ticks .tickslock)])
    .brk),
  .release .tickslock]

/-- `clockintr()`. -/
def clockintr (me : Option Slot) : Code := .block [
  acquire .clockintr .tickslock,
  .act fun t => { t with ticks := (t.ticks + 1) % 2 ^ 32 },
  wakeup me fun _ => some .ticks,
  .release .tickslock]

/-- `devintr()` for the timer: only CPU `0` counts ticks. -/
def timerintr (me : Option Slot) : Code := .when (fun c _ => c = 0) (clockintr me)

/-- `kerneltrap()`: a timer interrupt, or one of a device that wakes processes up. -/
def kerneltrap (me : Option Slot) : Code :=
  .any fun n =>
    if n = 0 then
      match me with
      | some p => .block [timerintr me, .when (fun _ t => t.state p = .running) (yield p)]
      | none => timerintr me
    else wakeup me fun _ => some .other

/-- `usertrap()` for an interrupt. -/
def usertrap (p : Slot) : Code :=
  .any fun n =>
    if n = 0 then .block [timerintr (some p), yield p]
    else wakeup (some p) fun _ => some .other

/-- What a process in user mode does next. -/
def userStep (p : Slot) : ℕ → Code
  | 0 => forkAt .fork p
  | 1 => forkAt .clone p
  | 2 => exit p
  | 3 => wait p
  | 4 => usertrap p
  | 5 => otherCode p
  | n + 6 => sysSleep p n

/-- `forkret()`, and then user mode. -/
def process (p : Slot) : Code := .block [.release (.proc p), otherCode p, .loop (.any (userStep p))]

/-- The kernel: a process gets its own lock from `scheduler()`. -/
def kernel : System Table Use Lock Slot where
  lockOf := Use.lock
  procLock := Lock.proc
  handOn := fun p => ⟨.proc p, .scheduler⟩
  lockOf_handOn := fun _ => rfl
  start := process
  interrupt := kerneltrap

/-- After `userinit()`: all CPUs are in `scheduler()`, and the first process can run. -/
def booted : State Table Use Lock Slot where
  data :=
    { state := fun p => if p.val = 0 then .runnable else .unused
      chan := fun _ => none
      parent := fun _ => none
      initproc := ⟨0, by decide⟩
      ticks := 0
      havekids := fun _ => false
      k := fun _ => false
      ticks0 := fun _ => 0 }
  holder := fun _ => none
  cpu := fun _ => { code := .next scheduler .done, cur := none, saved := .done, noff := 0 }
  context := fun p => .next (process p) .done

end Xv6.Locks
