/-
# Programs that nest locks

A small language for kernel code that runs on several CPUs: assignments and tests on
shared data, spin locks, loops, and the switch between the scheduler of a CPU and the
thread of a process.  A CPU keeps the lock of a process while it switches, so a lock that
one thread has taken is released by another one.

A lock is taken by a *use*, which says which lock it is and which place of the code takes
it.
-/
import Mathlib.Data.Set.Basic
import Mathlib.Logic.Function.Basic

namespace LockLang

/-! ## Commands -/

/-- Commands over the data `σ`, the uses `U` of locks `L`, and the processes `P`. -/
inductive Cmd (σ U L P : Type) where
  | skip
  | panic (msg : String)
  | act (f : σ → σ)
  | acquire (u : U)
  | release (l : L)
  | seq (a b : Cmd σ U L P)
  /-- A test, which may read the number of the CPU. -/
  | ite (t : ℕ → σ → Bool) (a b : Cmd σ U L P)
  /-- A choice that the data does not decide. -/
  | any (f : ℕ → Cmd σ U L P)
  | loop (a : Cmd σ U L P)
  /-- Leave the innermost loop. -/
  | brk
  /-- Give a process the context in which it starts. -/
  | spawn (p : P)
  /-- The scheduler switches to a process. -/
  | swtchTo (p : P)
  /-- A process switches to the scheduler. -/
  | swtchBack (p : P)

/-- Commands one after the other. -/
def Cmd.block {σ U L P : Type} : List (Cmd σ U L P) → Cmd σ U L P
  | [] => .skip
  | a :: l => .seq a (block l)

/-- A command under a test. -/
def Cmd.when {σ U L P : Type} (t : ℕ → σ → Bool) (a : Cmd σ U L P) : Cmd σ U L P := .ite t a .skip

/-- What is left to do: `again a k` is inside of the loop with the body `a`. -/
inductive Cont (σ U L P : Type) where
  | done
  | next (a : Cmd σ U L P) (k : Cont σ U L P)
  | again (a : Cmd σ U L P) (k : Cont σ U L P)

variable {σ U L P : Type}

/-- What is left to do after leaving the innermost loop. -/
def Cont.afterLoop : Cont σ U L P → Cont σ U L P
  | .done => .done
  | .next _ k => k.afterLoop
  | .again _ k => k

/-! ## The machine -/

/-- A system: its locks, the use under which the scheduler hands a process its own lock, the code
of a process, and the code of an interrupt of a CPU that runs a process or none. -/
structure System (σ U L P : Type) where
  lockOf : U → L
  procLock : P → L
  handOn : P → U
  lockOf_handOn : ∀ p, lockOf (handOn p) = procLock p
  start : P → Cmd σ U L P
  interrupt : Option P → Cmd σ U L P

/-- A CPU: what it runs, for which process, the context of its scheduler meanwhile, and the number of locks
that keep interrupts off. -/
structure Cpu (σ U L P : Type) where
  code : Cont σ U L P
  cur : Option P
  saved : Cont σ U L P
  noff : ℕ

/-- A state: every lock with the CPU that has it. -/
structure State (σ U L P : Type) where
  data : σ
  holder : L → Option (ℕ × U)
  cpu : ℕ → Cpu σ U L P
  context : P → Cont σ U L P

/-- CPU `c` goes on with `k`. -/
def State.setCode (s : State σ U L P) (c : ℕ) (k : Cont σ U L P) : State σ U L P :=
  { s with cpu := Function.update s.cpu c { s.cpu c with code := k } }

section

variable [DecidableEq L]

/-- CPU `c` takes the lock of `u`. -/
def State.take (S : System σ U L P) (s : State σ U L P) (c : ℕ) (u : U) (k : Cont σ U L P) :
    State σ U L P :=
  { s with
    holder := Function.update s.holder (S.lockOf u) (some (c, u))
    cpu := Function.update s.cpu c { s.cpu c with code := k, noff := (s.cpu c).noff + 1 } }

/-- CPU `c` gives the lock `l` back. -/
def State.give (s : State σ U L P) (c : ℕ) (l : L) (k : Cont σ U L P) : State σ U L P :=
  { s with
    holder := Function.update s.holder l none
    cpu := Function.update s.cpu c { s.cpu c with code := k, noff := (s.cpu c).noff - 1 } }

variable [DecidableEq P]

/-- One command on CPU `c`, with `k` left to do; `n` settles a choice.  A CPU that spins for a lock
or that has panicked does not move. -/
def exec (S : System σ U L P) (s : State σ U L P) (c n : ℕ) (k : Cont σ U L P) :
    Cmd σ U L P → Option (State σ U L P)
  | .skip => some (s.setCode c k)
  | .panic _ => none
  | .act f => some { s.setCode c k with data := f s.data }
  | .acquire u => if (s.holder (S.lockOf u)).isNone then some (s.take S c u k) else none
  | .release l => if (s.holder l).any (fun x => x.1 == c) then some (s.give c l k) else none
  | .seq a b => some (s.setCode c (.next a (.next b k)))
  | .ite t a b => some (s.setCode c (.next (if t c s.data then a else b) k))
  | .any f => some (s.setCode c (.next (f n) k))
  | .loop a => some (s.setCode c (.next a (.again a k)))
  | .brk => some (s.setCode c k.afterLoop)
  | .spawn p =>
    some { s.setCode c k with context := Function.update s.context p (.next (S.start p) .done) }
  | .swtchTo p =>
    some { s with
      cpu := Function.update s.cpu c { s.cpu c with code := s.context p, cur := some p, saved := k } }
  | .swtchBack p =>
    some { s with
      context := Function.update s.context p k
      cpu := Function.update s.cpu c { s.cpu c with code := (s.cpu c).saved, cur := none } }

/-- A step of a CPU, or an interrupt. -/
inductive Event where
  | run (c n : ℕ)
  | interrupt (c : ℕ)

/-- One step.  Interrupts are off while the CPU has a lock. -/
def step (S : System σ U L P) (s : State σ U L P) : Event → Option (State σ U L P)
  | .run c n =>
    match (s.cpu c).code with
    | .done => none
    | .again a k => some (s.setCode c (.next a (.again a k)))
    | .next a k => exec S s c n k a
  | .interrupt c =>
    if (s.cpu c).noff = 0 then
      some (s.setCode c (.next (S.interrupt (s.cpu c).cur) (s.cpu c).code))
    else none

/-- What a step does to the locks: nothing, or one is taken or given back. -/
theorem holder_of_step {S : System σ U L P} {s t : State σ U L P} {e : Event} (h : step S s e = some t) :
    t.holder = s.holder
      ∨ (∃ c n u k, e = .run c n ∧ (s.cpu c).code = .next (.acquire u) k
        ∧ t.holder = Function.update s.holder (S.lockOf u) (some (c, u)))
      ∨ ∃ l, t.holder = Function.update s.holder l none := by
  cases e with
  | interrupt c =>
    unfold step at h
    simp only at h
    split_ifs at h
    cases h
    exact Or.inl rfl
  | run c n =>
    unfold step at h
    simp only at h
    split at h
    · cases h
    · cases h
      exact Or.inl rfl
    · next a k hcode =>
      cases a with
      | panic msg => cases h
      | acquire u =>
        simp only [exec] at h
        split_ifs at h
        cases h
        exact Or.inr (Or.inl ⟨c, n, u, k, rfl, hcode, rfl⟩)
      | release l =>
        simp only [exec] at h
        split_ifs at h
        cases h
        exact Or.inr (Or.inr ⟨l, rfl⟩)
      | skip | act f | seq a b | ite t a b | any f | loop a | brk | spawn p | swtchTo p
      | swtchBack p =>
        cases h
        exact Or.inl rfl

/-- The states that `s₀` reaches by steps that meet a condition. -/
inductive Reach (S : System σ U L P) (ok : State σ U L P → Event → Prop) (s₀ : State σ U L P) :
    State σ U L P → Prop where
  | start : Reach S ok s₀ s₀
  | step {s t : State σ U L P} {e : Event} (hreach : Reach S ok s₀ s) (hok : ok s e)
      (hstep : step S s e = some t) : Reach S ok s₀ t

/-- Steps one after the other, as long as each meets a condition. -/
def runSteps (S : System σ U L P) (ok : State σ U L P → Event → Bool) :
    List Event → State σ U L P → Option (State σ U L P)
  | [], s => some s
  | e :: l, s => if ok s e then (step S s e).bind (runSteps S ok l) else none

theorem Reach.of_runSteps {S : System σ U L P} {ok : State σ U L P → Event → Bool} {l : List Event}
    {s₀ s t : State σ U L P} (hreach : Reach S (fun s e => ok s e = true) s₀ s)
    (h : runSteps S ok l s = some t) : Reach S (fun s e => ok s e = true) s₀ t := by
  induction l generalizing s with
  | nil =>
    cases h
    exact hreach
  | cons e l ih =>
    unfold runSteps at h
    split_ifs at h with hok
    obtain ⟨u, hstep, hrun⟩ := Option.bind_eq_some_iff.mp h
    exact ih (hreach.step hok hstep) hrun

theorem Reach.mono {S : System σ U L P} {ok ok' : State σ U L P → Event → Prop} {s₀ s : State σ U L P}
    (h : Reach S ok s₀ s) (hok : ∀ s e, ok s e → ok' s e) : Reach S ok' s₀ s := by
  induction h with
  | start => exact Reach.start
  | step _ hok' hstep ih => exact ih.step (hok _ _ hok') hstep

end

/-- The CPU `c` has the lock `l`. -/
def Holds (s : State σ U L P) (c : ℕ) (l : L) : Prop := ∃ u, s.holder l = some (c, u)

/-- The CPU `c` is about to take the lock `l`. -/
def Waits (S : System σ U L P) (s : State σ U L P) (c : ℕ) (l : L) : Prop :=
  ∃ u k, (s.cpu c).code = .next (.acquire u) k ∧ S.lockOf u = l

/-- Every CPU of the set `D` has a lock and waits for one that another CPU of `D` has. -/
def Stuck (S : System σ U L P) (s : State σ U L P) (D : Set ℕ) : Prop :=
  ∀ c ∈ D, (∃ l, Holds s c l) ∧ ∃ l, Waits S s c l ∧ ∃ d ∈ D, d ≠ c ∧ Holds s d l

/-- **Deadlock.** -/
def Deadlock (S : System σ U L P) (s : State σ U L P) : Prop :=
  ∃ D : Set ℕ, D.Nonempty ∧ Stuck S s D

end LockLang
