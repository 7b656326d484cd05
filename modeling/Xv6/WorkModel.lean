/-
# The clock and the scheduler (`kernel/proc.c`)

`scheduler` and `sched` with the fields of `pinfo` that they keep: `scheduler` reads the clock before
it switches to a process and stores what it read when the process switches back, and `sched` adds up
the time since the stored value when the process is switched to again.  Every read and every switch
is a step of its own, and so is a tick of the clock.

Beside the fields of the source a process carries the numbers of ticks that came while it was at
certain points (`History`).
-/
import Xv6.ProcModel

namespace Xv6.Work

/-- Where a process is.  Except off the processors and in user mode, its lock is held. -/
inductive Place (C : Type) where
  | off
  /-- In `scheduler`, with the state `RUNNING`. -/
  | chosen (c : C)
  /-- In `scheduler`, `ticks` is read. -/
  | stamped (c : C)
  /-- In `forkret`. -/
  | entered (c : C)
  /-- In `sched`, behind its `swtch`. -/
  | resuming (c : C)
  /-- In `sched`, `ticks` is read. -/
  | counting (c : C) (xticks : ℕ)
  /-- In `sched`, the time is added. -/
  | resumed (c : C)
  /-- Out of `sched`, without its lock. -/
  | running (c : C)
  /-- The state is changed and `sched` called. -/
  | leaving (c : C)
  /-- In `scheduler`, behind its `swtch`, with the start time stored. -/
  | stored (c : C)
  deriving DecidableEq

/-- The processor a process is on. -/
def Place.cpu? {C : Type} : Place C → Option C
  | .off => none
  | .chosen c | .stamped c | .entered c | .resuming c | .counting c _ | .resumed c | .running c
  | .leaving c | .stored c => some c

/-- Numbers of ticks in the life of a process. -/
structure History where
  /-- The sum of the times added, without the bounds of an `int`. -/
  exact : ℕ := 0
  /-- In the state `RUNNING`. -/
  running : ℕ := 0
  /-- Out of the state `RUNNING`, after the first slice. -/
  waiting : ℕ := 0
  /-- In the first slice, before `scheduler` reads the clock. -/
  lead : ℕ := 0
  /-- In the later slices that are over, between the two reads of the clock. -/
  resumes : ℕ := 0
  /-- In this slice, between the two reads of the clock. -/
  resume : ℕ := 0
  /-- In this slice, since the last read of the clock. -/
  late : ℕ := 0
  deriving DecidableEq

/-- The fields of `struct proc` in use here. -/
structure Proc (C : Type) where
  state : ProcState := .unused
  /-- `context.ra` is `forkret`. -/
  fresh : Bool := false
  totalTime : ℤ := 0
  lastStartTime : ℕ := 0
  cntChange : ℕ := 0
  place : Place C := .off
  history : History := {}

/-- `struct cpu` with the variables of its `scheduler`. -/
structure Cpu (N : ℕ) where
  proc : Option (Fin N)
  /-- The slot the loop is at; it goes round the table. -/
  p : Fin N
  xticksStart : ℕ

structure State (N : ℕ) (C : Type) where
  ticks : ℕ
  proc : Fin N → Proc C
  cpu : C → Cpu N

/-- The steps of a processor that has a process. -/
inductive Act where
  /-- `scheduler` reads the clock. -/
  | stamp
  /-- `scheduler` switches to the process. -/
  | swtch
  /-- `sched` reads the clock. -/
  | read
  /-- `sched` adds the time. -/
  | count
  /-- The process releases its lock. -/
  | release
  | yield
  | sleep
  | exit
  /-- Back in `scheduler`, the start time is stored. -/
  | store
  /-- `scheduler` releases the lock of the process. -/
  | drop
  deriving DecidableEq

variable {N : ℕ} [NeZero N] {C : Type} [DecidableEq C]

/-- A process gives up the processor: its state changes, then it calls `sched`. -/
def Proc.leave (x : Proc C) (c : C) (st : ProcState) : Option (Proc C) :=
  if x.place = .running c then
    some { x with
      state := st
      place := .leaving c
      history := { x.history with
        resumes := x.history.resumes + x.history.resume, resume := 0, late := 0 } }
  else none

/-- What a step of the processor `c` does to its process. -/
def Proc.move (c : C) (ticks xticksStart : ℕ) (x : Proc C) : Act → Option (Proc C)
  | .stamp => if x.place = .chosen c then some { x with place := .stamped c } else none
  | .swtch =>
    if x.place = .stamped c then
      some { x with
        cntChange := x.cntChange + 1
        fresh := false
        place := if x.fresh then .entered c else .resuming c }
    else none
  | .read => if x.place = .resuming c then some { x with place := .counting c ticks } else none
  | .count =>
    match x.place with
    | .counting d xticks =>
      if d = c then
        some { x with
          totalTime := int32 (x.totalTime + ((xticks : ℤ) - x.lastStartTime) % 2 ^ 32)
          lastStartTime := 0
          place := .resumed c
          history := { x.history with exact := x.history.exact + (xticks - x.lastStartTime) } }
      else none
    | _ => none
  | .release =>
    if x.place = .entered c ∨ x.place = .resumed c then some { x with place := .running c }
    else none
  | .yield => x.leave c .runnable
  | .sleep => x.leave c .sleeping
  | .exit => x.leave c .zombie
  | .store =>
    if x.place = .leaving c then some { x with lastStartTime := xticksStart, place := .stored c }
    else none
  | .drop => if x.place = .stored c then some { x with place := .off } else none

/-- What a step does to the variables of `scheduler`. -/
def Cpu.move (ticks : ℕ) (x : Cpu N) : Act → Cpu N
  | .stamp => { x with xticksStart := ticks }
  | .drop => { x with proc := none, p := x.p + 1 }
  | _ => x

/-- What a tick adds to the numbers of a process. -/
def Proc.tick (x : Proc C) : Proc C :=
  let h := { x.history with
    running := x.history.running + if x.state = .running then 1 else 0 }
  { x with history :=
      match x.place with
      | .off =>
        if x.fresh = false ∧ x.state ≠ .unused then { h with waiting := h.waiting + 1 } else h
      | .chosen _ => if x.fresh then { h with lead := h.lead + 1 } else h
      | .stamped _ =>
        if x.fresh then { h with late := h.late + 1 } else { h with resume := h.resume + 1 }
      | .resuming _ => { h with resume := h.resume + 1 }
      | .entered _ | .counting _ _ | .resumed _ | .running _ => { h with late := h.late + 1 }
      | .leaving _ | .stored _ => { h with waiting := h.waiting + 1 } }

inductive Event (N : ℕ) (C : Type) where
  /-- `ticks++` in `clockintr`. -/
  | tick
  /-- `scheduler` looks at the next slot. -/
  | scan (c : C)
  | act (c : C) (a : Act)
  /-- `wakeup` or `kill` finds the process asleep. -/
  | wakeup (p : Fin N)
  | allocproc (p : Fin N)
  /-- The new process becomes `RUNNABLE`, at the end of `fork`, `clone` or `userinit`. -/
  | start (p : Fin N)
  | freeproc (p : Fin N)

/-- An assignment to the slot `p`. -/
def State.setProc (s : State N C) (p : Fin N) (x : Proc C) : State N C :=
  { s with proc := Function.update s.proc p x }

/-- An assignment to the processor `c`. -/
def State.setCpu (s : State N C) (c : C) (x : Cpu N) : State N C :=
  { s with cpu := Function.update s.cpu c x }

/-- An assignment to a slot whose lock is free. -/
def State.assign (s : State N C) (p : Fin N) (t : ProcState → Bool) (f : Proc C → Proc C) :
    Option (State N C) :=
  if (s.proc p).place = .off ∧ t (s.proc p).state then some (s.setProc p (f (s.proc p))) else none

/-- One step; the clock does not wrap. -/
def step (s : State N C) : Event N C → Option (State N C)
  | .tick =>
    if s.ticks + 1 < 2 ^ 32 then
      some { s with ticks := s.ticks + 1, proc := fun p => (s.proc p).tick }
    else none
  | .scan c =>
    if (s.cpu c).proc = none then
      let p := (s.cpu c).p
      let x := s.proc p
      if x.place = .off then
        if x.state = .runnable then
          some ((s.setProc p { x with state := .running, place := .chosen c }).setCpu c
            { s.cpu c with proc := some p })
        else some (s.setCpu c { s.cpu c with p := p + 1 })
      -- the process runs on another processor: its lock is free and it is not `RUNNABLE`
      else if x.place.cpu?.any (fun d => x.place = .running d) then
        some (s.setCpu c { s.cpu c with p := p + 1 })
      else none
    else none
  | .act c a =>
    (s.cpu c).proc.bind fun p =>
      ((s.proc p).move c s.ticks (s.cpu c).xticksStart a).map fun x =>
        (s.setProc p x).setCpu c ((s.cpu c).move s.ticks a)
  | .wakeup p => s.assign p (· = .sleeping) fun x => { x with state := .runnable }
  | .allocproc p =>
    s.assign p (· = .unused) fun x => { x with state := .used, fresh := true, history := {} }
  | .start p => s.assign p (· = .used) fun x => { x with state := .runnable }
  | .freeproc p =>
    s.assign p (fun st => st = .used ∨ st = .zombie) fun x => { x with
      state := .unused, totalTime := 0, lastStartTime := 0, cntChange := 0, history := {} }

/-- The state after `procinit`, with every processor at the first slot. -/
def boot : State N C where
  ticks := 0
  proc := fun _ => {}
  cpu := fun _ => ⟨none, 0, 0⟩

/-- The states of a run. -/
inductive Reachable : State N C → Prop
  | boot : Reachable boot
  | step {s s' : State N C} (e : Event N C) (h : Reachable s) (hs : step s e = some s') :
      Reachable s'

end Xv6.Work
