/-
# Pipes: no byte and no wakeup is lost

Every run of processes that use one pipe with valid buffers keeps the bytes in order.  No wakeup is lost
in a run in which `pipewrite` is not told that its process is killed between two bytes: there
it returns without waking up the readers of the bytes it has put in.
-/
import Xv6.PipeRules

namespace Xv6.Sleep

open LockLang

/-- A state of processes that use one pipe. -/
abbrev PipeState (N : ℕ) := State (Table N PipeChan (PipeUse N)) (Use N) (Lock N) (Fin N)

/-! ## Bytes -/

/-- **A pipe is a queue**: what readers have got and what is in the pipe is what writers have put in, in
this order, and the pipe never holds more than `PIPESIZE` bytes. -/
theorem pipe_fifo {N : ℕ} {alive : Fin N → Bool} {data : ℕ → UInt8} {s : PipeState N}
    (hreach : LockLang.Reach (pipeSystem N false) (fun _ _ => True) (pipeBooted N false alive data) s) :
    s.data.user.delivered ++ s.data.user.pipe.buffered = s.data.user.accepted
      ∧ s.data.user.pipe.buffered.length = s.data.user.pipe.count
      ∧ s.data.user.pipe.count ≤ pipeSize := by
  have hstart : ∀ p, know (pipeSystem N false) (pipeOutline N false false) (some p) (pipeProcess false p)
      (fun _ => True) (fun _ => False) (.ofGrip ⟨p, fun x => x.state = .running, false, none⟩) :=
    know_pipeProcess
  have hallow : ∀ (s : PipeState N) (c n : ℕ) (u : Use N) k, True →
      (s.cpu c).code = .next (.acquire u) k → TimelyUse false s.data u := by
    intro s c n u k _ _ h
    cases h
  obtain ⟨hgood, -⟩ := cond_false_of_reach (good_pipeUse₀ false data) hallow hstart
    (fun me => turns_pipeTrap) hreach
  refine ⟨(hgood.fifo rfl).symm, ?_, hgood.wf.count_le⟩
  simp [Pipe.buffered]

/-- The first of two processes writes two bytes and then reads one. -/
theorem pipe_fifo_write_read :
    ∃ s : PipeState 2,
      LockLang.Reach (pipeSystem 2 false) (fun _ _ => True)
        (pipeBooted 2 false (fun _ => true) fun _ => 0) s
      ∧ s.data.user.accepted = [14, 15] ∧ s.data.user.delivered = [14]
      ∧ (s.data.user.delivered ++ s.data.user.pipe.buffered = s.data.user.accepted
        ∧ s.data.user.pipe.buffered.length = s.data.user.pipe.count
        ∧ s.data.user.pipe.count ≤ pipeSize) := by
  have hrun : (runSteps (pipeSystem 2 false) (fun _ _ => true)
      (List.replicate 45 (.run 0 14) ++ List.replicate 35 (.run 0 15) ++ List.replicate 40 (.run 0 8))
      (pipeBooted 2 false (fun _ => true) fun _ => 0)).any (fun s =>
        s.data.user.accepted = [14, 15] ∧ s.data.user.delivered = [14]) = true := by
    decide +kernel
  obtain ⟨s, hs, hcheck⟩ := (Option.any_eq_true _ _).mp hrun
  obtain ⟨haccepted, hdelivered⟩ := of_decide_eq_true hcheck
  have hreach : LockLang.Reach (pipeSystem 2 false) (fun _ _ => True)
      (pipeBooted 2 false (fun _ => true) fun _ => 0) s :=
    (LockLang.Reach.of_runSteps .start hs).mono fun _ _ _ => trivial
  exact ⟨s, hreach, haccepted, hdelivered, pipe_fifo hreach⟩

/-! ## Wakeups -/

/-- The lock that a thread is about to take, and where. -/
def nextAcquire {N : ℕ} : Cont (Table N PipeChan (PipeUse N)) (Use N) (Lock N) (Fin N) → Option (Use N)
  | .next (.acquire u) _ => some u
  | _ => none

/-- `killed` does not find a process marked that has put bytes into the pipe since it took `pi->lock` or
woke up the readers: a condition on the state before the step in which `killed` takes `p->lock`. -/
def Timely {N : ℕ} (s : PipeState N) : LockLang.Event → Prop
  | .run c _ => ∀ p, nextAcquire (s.cpu c).code = some ⟨.proc p, .killed⟩ →
      (s.data.slot p).killed = true → s.data.user.fresh = false
  | .interrupt _ => True

instance {N : ℕ} (s : PipeState N) : (e : LockLang.Event) → Decidable (Timely s e)
  | .run c _ => inferInstanceAs (Decidable (∀ p, nextAcquire (s.cpu c).code = some ⟨.proc p, .killed⟩ →
      (s.data.slot p).killed = true → s.data.user.fresh = false))
  | .interrupt _ => inferInstanceAs (Decidable True)

/-- **No lost wakeup on a pipe**: while `pi->lock` is free, readers sleep only on an empty pipe that is still
written to, and writers only on a full one that is still read from. -/
theorem pipe_no_lost_wakeup {N : ℕ} {alive : Fin N → Bool} {data : ℕ → UInt8} {s : PipeState N}
    (hreach : LockLang.Reach (pipeSystem N true) Timely (pipeBooted N true alive data) s)
    (hfree : s.holder (.guard .other) = none) (p : Fin N) (hstate : (s.data.slot p).state = .sleeping) :
    ((s.data.slot p).chan = some .nread →
      s.data.user.pipe.count = 0 ∧ s.data.user.pipe.writeopen = true)
    ∧ ((s.data.slot p).chan = some .nwrite →
      s.data.user.pipe.count = pipeSize ∧ s.data.user.pipe.readopen = true) := by
  have hstart : ∀ p, know (pipeSystem N true) (pipeOutline N true true) (some p) (pipeProcess true p)
      (fun _ => True) (fun _ => False) (.ofGrip ⟨p, fun x => x.state = .running, false, none⟩) :=
    know_pipeProcess
  have hallow : ∀ (s : PipeState N) (c n : ℕ) (u : Use N) k, Timely s (.run c n) →
      (s.cpu c).code = .next (.acquire u) k → TimelyUse true s.data u := by
    rintro s c n u k htimely hcode - p rfl
    exact htimely p (by rw [hcode]; rfl)
  obtain ⟨hgood, hfalse⟩ := cond_false_of_reach (good_pipeUse₀ true data) hallow hstart
    (fun me => turns_pipeTrap) hreach
  constructor
  · intro hchan
    have hcond := hfalse hfree p .nread hstate hchan
    simp only [pipeCond, Bool.true_and, Bool.or_eq_false_iff, Bool.not_eq_false'] at hcond
    exact ⟨hgood.wf.isEmpty_iff.mp hcond.1, hcond.2⟩
  · intro hchan
    have hcond := hfalse hfree p .nwrite hstate hchan
    simp only [pipeCond, Bool.true_and, Bool.or_eq_false_iff, Bool.not_eq_false'] at hcond
    exact ⟨hgood.wf.isFull_iff.mp hcond.1, hcond.2⟩

/-- The three processes of the runs below; the other slots are unused. -/
def threeAlive (p : Fin 64) : Bool := decide (p.val < 3)

/-- The first process reads from the new pipe, and sleeps. -/
theorem pipe_no_lost_wakeup_reader :
    ∃ s : PipeState 64,
      LockLang.Reach (pipeSystem 64 true) Timely (pipeBooted 64 true threeAlive fun _ => 0) s
      ∧ (s.holder (.guard .other) = none ∧ (s.data.slot 0).state = .sleeping
        ∧ (s.data.slot 0).chan = some .nread)
      ∧ s.data.user.pipe.count = 0 ∧ s.data.user.pipe.writeopen = true := by
  have hrun : (runSteps (pipeSystem 64 true) (fun s e => decide (Timely s e))
      (List.replicate 51 (.run 0 8)) (pipeBooted 64 true threeAlive fun _ => 0)).any (fun s =>
        s.holder (.guard .other) = none ∧ (s.data.slot 0).state = .sleeping
          ∧ (s.data.slot 0).chan = some .nread) = true := by
    decide +kernel
  obtain ⟨s, hs, hcheck⟩ := (Option.any_eq_true _ _).mp hrun
  have hasleep := of_decide_eq_true hcheck
  have hreach : LockLang.Reach (pipeSystem 64 true) Timely (pipeBooted 64 true threeAlive fun _ => 0) s :=
    (LockLang.Reach.of_runSteps .start hs).mono fun _ _ => of_decide_eq_true
  exact ⟨s, hreach, hasleep, (pipe_no_lost_wakeup hreach hasleep.1 0 hasleep.2.1).1 hasleep.2.2⟩

/-- **A lost wakeup**: the first process sleeps in `piperead`; the second one has put in the first of two
bytes when the third one kills it, and returns.  The reader sleeps, with a byte in the pipe and
`pi->lock` free. -/
theorem killed_writer_loses_wakeup :
    ∃ s : PipeState 64,
      LockLang.Reach (pipeSystem 64 true) (fun _ _ => True) (pipeBooted 64 true threeAlive fun _ => 0) s
      ∧ s.holder (.guard .other) = none ∧ (s.data.slot 0).state = .sleeping
      ∧ (s.data.slot 0).chan = some .nread ∧ s.data.user.pipe.count = 1 := by
  have hrun : (runSteps (pipeSystem 64 true) (fun _ _ => true)
      (List.replicate 51 (.run 0 8) ++ List.replicate 49 (.run 1 14) ++ List.replicate 53 (.run 2 11)
        ++ List.replicate 22 (.run 1 14)) (pipeBooted 64 true threeAlive fun _ => 0)).any (fun s =>
        s.holder (.guard .other) = none ∧ (s.data.slot 0).state = .sleeping
          ∧ (s.data.slot 0).chan = some .nread ∧ s.data.user.pipe.count = 1) = true := by
    decide +kernel
  obtain ⟨s, hs, hcheck⟩ := (Option.any_eq_true _ _).mp hrun
  exact ⟨s, (LockLang.Reach.of_runSteps .start hs).mono fun _ _ _ => trivial, of_decide_eq_true hcheck⟩

end Xv6.Sleep
