/-
# Sleeping and waking up

`sched`, `yield`, `scheduler`, `sleep`, `wakeup`, `kill` and `killed` of `proc.c` as commands
over a process table of `N` slots.  What the processes share besides the table is left open
(`δ`), and so are the channels (`C`) that they sleep on.  The lock that a process passes to
`sleep` is `tickslock` or another one.
-/
import Xv6.LockLang
import Xv6.ProcModel

namespace Xv6.Sleep

open LockLang

/-- A spin lock that a process may pass to `sleep`. -/
inductive Guard where
  | tickslock
  | other
  deriving DecidableEq

/-- The spin locks. -/
inductive Lock (N : ℕ) where
  | guard (g : Guard)
  | proc (p : Fin N)
  deriving DecidableEq

/-- The function that takes a lock; `caller` is the code around the functions here. -/
inductive Site where
  | scheduler
  | sched
  | yield
  | sleep
  | wakeup
  | kill
  | killed
  | caller
  deriving DecidableEq

/-- A lock, and the function that takes it. -/
structure Use (N : ℕ) where
  lock : Lock N
  site : Site
  deriving DecidableEq

/-- The fields of `struct proc` that these functions use. -/
structure Slot (C : Type) where
  state : ProcState
  chan : Option C
  killed : Bool

/-- The process table, and what the lock that processes sleep with protects. -/
structure Table (N : ℕ) (C δ : Type) where
  slot : Fin N → Slot C
  user : δ

abbrev Code (N : ℕ) (C δ : Type) := Cmd (Table N C δ) (Use N) (Lock N) (Fin N)

variable {N : ℕ} {C δ : Type}

def acquire (site : Site) (l : Lock N) : Code N C δ := .acquire ⟨l, site⟩

/-- An assignment to fields of the slot `p`. -/
def setSlot (p : Fin N) (f : Slot C → Slot C) : Code N C δ :=
  .act fun t => { t with slot := Function.update t.slot p (f (t.slot p)) }

/-- `p->state = st`. -/
def setState (p : Fin N) (st : ProcState) : Code N C δ := setSlot p fun x => { x with state := st }

/-- `p->chan = chan`. -/
def setChan (p : Fin N) (chan : Option C) : Code N C δ := setSlot p fun x => { x with chan := chan }

/-- An assignment to what the processes share. -/
def setUser (f : δ → δ) : Code N C δ := .act fun t => { t with user := f t.user }

/-- A test of what the processes share. -/
def ifUser (t : δ → Bool) (a b : Code N C δ) : Code N C δ := .ite (fun _ d => t d.user) a b

/-- A test of a slot. -/
def ifSlot (p : Fin N) (t : Slot C → Bool) (a b : Code N C δ) : Code N C δ :=
  .ite (fun _ d => t (d.slot p)) a b

/-- A loop over the process table. -/
def forProcs (body : Fin N → Code N C δ) : Code N C δ := .block ((List.finRange N).map body)

/-- The section that reads `ticks`. -/
def readTicks (site : Site) : List (Code N C δ) :=
  [acquire site (.guard .tickslock), .release (.guard .tickslock)]

/-- `sched()` of the process `p`. -/
def sched (p : Fin N) : Code N C δ := .block ([
  ifSlot p (fun x => x.state = .running) (.panic "sched running") .skip,
  .swtchBack p] ++ readTicks .sched)

/-- `yield()`. -/
def yield (p : Fin N) : Code N C δ := .block [
  acquire .yield (.proc p),
  setState p .runnable,
  sched p,
  .release (.proc p)]

/-- The body of the loop of `scheduler()`. -/
def schedule (p : Fin N) : Code N C δ := .block [
  acquire .scheduler (.proc p),
  ifSlot p (fun x => x.state = .runnable)
    (.block ([setState p .running] ++ readTicks .scheduler ++ [.swtchTo p]))
    .skip,
  .release (.proc p)]

/-- `scheduler()`. -/
def scheduler : Code N C δ := .loop (forProcs schedule)

/-- `sleep(chan, lk)`. -/
def sleep (p : Fin N) (chan : C) (lk : Guard) : Code N C δ := .block [
  acquire .sleep (.proc p),
  .release (.guard lk),
  setChan p (some chan),
  setState p .sleeping,
  sched p,
  setChan p none,
  .release (.proc p),
  acquire .sleep (.guard lk)]

variable [DecidableEq C]

/-- What `wakeup(chan)` does with the process `p`. -/
def wakeupProc (chan : C) (p : Fin N) : Code N C δ := .block [
  acquire .wakeup (.proc p),
  ifSlot p (fun x => x.state = .sleeping && x.chan = some chan) (setState p .runnable) .skip,
  .release (.proc p)]

/-- `wakeup(chan)`, called for the process `me` or for none. -/
def wakeup (me : Option (Fin N)) (chan : C) : Code N C δ :=
  forProcs fun p => if me = some p then .skip else wakeupProc chan p

omit [DecidableEq C]

/-- The loop of `kill`, where `victim` is the process that has the pid. -/
def killFrom (victim : Fin N) : List (Fin N) → Code N C δ
  | [] => .skip
  | p :: l => .block [
      acquire .kill (.proc p),
      if p = victim then .block [
        setSlot p fun x => { x with killed := true },
        ifSlot p (fun x => x.state = .sleeping) (setState p .runnable) .skip,
        .release (.proc p)]
      else .block [.release (.proc p), killFrom victim l]]

/-- `kill(pid)` of a process that is there. -/
def kill (victim : Fin N) : Code N C δ := killFrom victim (List.finRange N)

/-- `killed(p)`, with what the caller does with the result. -/
def killed (p : Fin N) (result : Bool → δ → δ) : Code N C δ := .block [
  acquire .killed (.proc p),
  .act fun t => { t with user := result (t.slot p).killed t.user },
  .release (.proc p)]

/-- A kernel in which the process `p` runs `process p`, and an interrupt `trap`. -/
def system (process : Fin N → Code N C δ) (trap : Option (Fin N) → Code N C δ) :
    System (Table N C δ) (Use N) (Lock N) (Fin N) where
  lockOf := Use.lock
  procLock := Lock.proc
  handOn := fun p => ⟨.proc p, .scheduler⟩
  lockOf_handOn := fun _ => rfl
  start := process
  interrupt := trap

/-- All CPUs are in `scheduler()`, and the processes of `alive` can run. -/
def booted (process : Fin N → Code N C δ) (alive : Fin N → Bool) (user : δ) :
    State (Table N C δ) (Use N) (Lock N) (Fin N) where
  data :=
    { slot := fun p => { state := if alive p then .runnable else .unused, chan := none, killed := false }
      user := user }
  holder := fun _ => none
  cpu := fun _ => { code := .next scheduler .done, cur := none, saved := .done, noff := 0 }
  context := fun p => .next (process p) .done

end Xv6.Sleep
