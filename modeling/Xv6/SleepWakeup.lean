/-
# sleep and wakeup lose no events

The most general code that uses one condition as `sleep` and `wakeup` ask for.  A process, or an
interrupt handler, takes `lk` and then does any of these, in any order and any number of
times: make the condition true or false, wake up the processes on `chan` or on another
channel, and, unless it is a handler, sleep.  It gives `lk` back, in `sleep` or by leaving, only if every change of the
condition from false to true has been followed by `wakeup(chan)`, and it sleeps on `chan` only if it
finds the condition false.  Outside of `lk` processes wake each other up, kill each other and yield.
-/
import Xv6.SleepCalls

namespace Xv6.Sleep

open LockLang

/-- The condition, and whether it has become true since the last `wakeup(chan)`. -/
structure Flag where
  cond : Bool
  owed : Bool

/-- The condition that is waited for on each channel: only the one of `chan` is ever true. -/
def Flag.condOf (chan k : ℕ) (f : Flag) : Bool := decide (k = chan) && f.cond

variable {N : ℕ}

/-- What a process or a handler does next while it has `lk`; `wait k` is how it sleeps on `k`. -/
def insideStep (me : Option (Fin N)) (wait : ℕ → Code N ℕ Flag) (chan : ℕ) (lk : Guard) :
    ℕ → Code N ℕ Flag
  | 0 => ifUser (fun f => !f.owed) (.block [.release (.guard lk), .brk]) .skip
  | 1 => setUser fun f => { cond := true, owed := f.owed || !f.cond }
  | 2 => setUser fun f => { f with cond := false }
  | 3 => .block [wakeup me chan, setUser fun f => { f with owed := false }]
  | 4 => ifUser (fun f => !f.cond && !f.owed) (wait chan) .skip
  | n + 5 =>
    if n / 2 = chan then .skip
    else if n % 2 = 0 then wakeup me (n / 2)
    else ifUser (fun f => !f.owed) (wait (n / 2)) .skip

/-- A critical section of `lk`. -/
def criticalSection (me : Option (Fin N)) (wait : ℕ → Code N ℕ Flag) (chan : ℕ) (lk : Guard) : Code N ℕ Flag :=
  .block [acquire .caller (.guard lk), .loop (.any (insideStep me wait chan lk))]

/-- What a process does next without locks. -/
def outsideStep (p : Fin N) (chan : ℕ) (lk : Guard) : ℕ → Code N ℕ Flag
  | 0 => criticalSection (some p) (fun k => sleep p k lk) chan lk
  | 1 => yield p
  | n + 2 =>
    if n % 2 = 0 then wakeup (some p) (n / 2)
    else if h : n / 2 < N then kill ⟨n / 2, h⟩ else .skip

/-- A process: it has its own lock from the scheduler when it starts. -/
def client (chan : ℕ) (lk : Guard) (p : Fin N) : Code N ℕ Flag :=
  .block [.release (.proc p), .loop (.any (outsideStep p chan lk))]

/-- An interrupt: a handler uses the condition or wakes processes up, or the process yields. -/
def handler (chan : ℕ) (lk : Guard) (me : Option (Fin N)) : Code N ℕ Flag :=
  .any fun n =>
    if n = 0 then criticalSection me (fun _ => .skip) chan lk
    else if n = 1 then me.elim .skip fun p => .ite (fun _ t => (t.slot p).state = .running) (yield p) .skip
    else wakeup me (n - 2)

/-! ## The rules are kept -/

/-- In a critical section: only sleepers on `chan` are debts, and only while a wakeup is owed. -/
def Owing (chan : ℕ) (v : View N ℕ Flag) : Prop :=
  ∃ x, v = .inside x ∧ ∀ k q, x.debts k q → k = chan ∧ ∀ f, x.known f → f.owed = true

section

variable {process : Fin N → Code N ℕ Flag} {trap : Option (Fin N) → Code N ℕ Flag} {chan : ℕ}
  {lk : Guard} {me : Option (Fin N)} {wait : ℕ → Code N ℕ Flag}

/-- The outline of the condition. -/
abbrev flagOutline (N : ℕ) (chan : ℕ) (lk : Guard) :
    Outline (Table N ℕ Flag) (Use N) (Lock N) (Fin N) (View N ℕ Flag) :=
  outline lk (Flag.condOf chan) (fun _ => True) fun _ _ => True

theorem owing_start : Owing (N := N) chan (.inside ⟨fun _ _ => False, fun _ => True⟩) :=
  ⟨_, rfl, fun _ _ h => h.elim⟩

/-- One step in a critical section. -/
theorem know_insideStep {B : View N ℕ Flag → Prop} (hB : B .out)
    (hwait : ∀ k x, Owing chan (.inside x) →
      (∀ f : Flag, x.known f → ∀ k' q, Flag.condOf chan k' f = true → ¬ x.debts k' q) →
      (∀ f, x.known f → Flag.condOf chan k f = false) →
      know (system process trap) (flagOutline N chan lk) me (wait k) (Owing chan) B (.inside x))
    (n : ℕ) {v : View N ℕ Flag} (hv : Owing chan v) :
    know (system process trap) (flagOutline N chan lk) me (insideStep me wait chan lk n) (Owing chan) B v := by
  obtain ⟨x, rfl, hx⟩ := hv
  -- a view that knows more is as good
  have hmore : ∀ t : Flag → Bool, Owing chan
      (.inside { x with known := fun f => x.known f ∧ t f = true } : View N ℕ Flag)
        ∧ Owing chan (.inside { x with known := fun f => x.known f ∧ t f = false } : View N ℕ Flag) := by
    intro t
    constructor
    · exact ⟨_, rfl, fun k q hd => ⟨(hx k q hd).1, fun f hf => (hx k q hd).2 f hf.1⟩⟩
    · exact ⟨_, rfl, fun k q hd => ⟨(hx k q hd).1, fun f hf => (hx k q hd).2 f hf.1⟩⟩
  match n with
  | 0 =>
    simp only [insideStep]
    refine know_ifUser rfl ?_ (Turns.skip _ _ (hmore _).2)
    refine know_cons (m := .out) (turns_releaseGuard rfl ?_ fun k (hk : none = some k) => by cases hk) ?_
    · rintro f - ⟨hf, howed⟩ k q - hd
      simp [(hx k q hd).2 f hf] at howed
    · exact know_last hB
  | 1 =>
    refine know_assign rfl ?_
    intro d _ _ hd
    refine ⟨trivial, ?_⟩
    cases howed : (d.user.owed || !d.user.cond) with
    | true =>
      refine ⟨⟨fun k _ => k = chan, fun f => f.owed = true⟩, howed, ⟨_, rfl, fun _ _ hk => ⟨hk, fun _ h => h⟩⟩, ?_⟩
      intro k q hk
      have hchan : k = chan := by
        simp only [Flag.condOf, Bool.and_eq_true, decide_eq_true_eq] at hk
        exact hk.1
      exact ⟨fun _ _ => hchan, fun _ => hchan⟩
    | false =>
      -- the condition was true already, and no wakeup is owed
      rw [Bool.or_eq_false_iff] at howed
      refine ⟨⟨fun _ _ => False, fun _ => True⟩, trivial, owing_start, ?_⟩
      intro k q hk
      constructor
      · intro _ hdebt
        rw [(hx k q hdebt).2 _ hd] at howed
        cases howed.1
      · intro hfalse
        simp only [Flag.condOf, Bool.and_eq_true, decide_eq_true_eq] at hk
        simp [Flag.condOf, hk.1] at hfalse
        simp [hfalse] at howed
  | 2 =>
    refine know_assign rfl ?_
    intro d _ _ _
    refine ⟨trivial, ⟨fun _ _ => False, fun _ => True⟩, trivial, owing_start, ?_⟩
    intro k q hk
    simp [Flag.condOf] at hk
  | 3 =>
    refine know_cons (turns_wakeup chan rfl) (know_last (know_assign rfl ?_))
    intro d _ _ hd
    refine ⟨trivial, ⟨fun _ _ => False, fun _ => True⟩, trivial, owing_start, ?_⟩
    intro k q hk
    have hchan : k = chan := by
      simp only [Flag.condOf, Bool.and_eq_true, decide_eq_true_eq] at hk
      exact hk.1
    constructor
    · rintro _ ⟨-, hleft⟩
      exact absurd (hleft hchan) List.not_mem_nil
    · intro hfalse
      change Flag.condOf chan k d.user = true at hk
      rw [hfalse] at hk
      cases hk
  | 4 =>
    simp only [insideStep]
    refine know_ifUser rfl (hwait chan _ (hmore _).1 ?_ ?_) ?_
    · rintro f ⟨hf, ht⟩ k q - hd
      simp [(hx k q hd).2 f hf] at ht
    · rintro f ⟨-, ht⟩
      simp only [Bool.and_eq_true, Bool.not_eq_true'] at ht
      simp [Flag.condOf, ht.1]
    · exact Turns.skip _ _ (hmore _).2
  | n + 5 =>
    simp only [insideStep]
    split_ifs with hchan heven
    · exact Turns.skip _ _ ⟨x, rfl, hx⟩
    · refine turns_wakeup (n / 2) rfl _ _ ⟨_, rfl, fun k q hd => ?_⟩
      exact hx k q hd.1
    · refine know_ifUser rfl (hwait (n / 2) _ (hmore _).1 ?_ ?_) ?_
      · rintro f ⟨hf, ht⟩ k q - hd
        simp [(hx k q hd).2 f hf] at ht
      · rintro f -
        simp [Flag.condOf, hchan]
      · exact Turns.skip _ _ (hmore _).2

theorem turns_section
    (hwait : ∀ k x, Owing chan (.inside x) →
      (∀ f : Flag, x.known f → ∀ k' q, Flag.condOf chan k' f = true → ¬ x.debts k' q) →
      (∀ f, x.known f → Flag.condOf chan k f = false) → ∀ B,
      know (system process trap) (flagOutline N chan lk) me (wait k) (Owing chan) B (.inside x)) :
    Turns (system process trap) (flagOutline N chan lk) me (criticalSection me wait chan lk) .out .out := by
  intro Q B hq
  refine know_cons (m := .inside ⟨fun _ _ => False, fun _ => True⟩) (turns_acquireGuard .caller rfl) ?_
  refine know_last ⟨Owing chan, owing_start, fun v hv n => ?_⟩
  exact know_insideStep hq (fun k x ho hd hc => hwait k x ho hd hc Q) n hv

theorem turns_outsideStep (p : Fin N) (n : ℕ) :
    Turns (system process trap) (flagOutline N chan lk) (some p) (outsideStep p chan lk n) .out .out := by
  match n with
  | 0 =>
    refine turns_section fun k x _ hdebts hcond B => ?_
    exact turns_sleep p k (fun f _ => hdebts f) (fun f _ => hcond f) _ B owing_start
  | 1 => exact turns_yield p
  | n + 2 =>
    simp only [outsideStep]
    split_ifs
    · exact turns_wakeup (n / 2) rfl
    · exact turns_kill _ rfl
    · exact Turns.skip

theorem know_client (p : Fin N) :
    know (system process trap) (flagOutline N chan lk) (some p) (client chan lk p) (fun _ => True)
      (fun _ => False) (.ofGrip ⟨p, fun x => x.state = .running, false, none⟩) := by
  refine know_cons (m := .out) (turns_releaseProc (g := ⟨p, _, false, none⟩) rfl fun _ _ h => h) ?_
  refine know_last ?_
  exact Turns.forever (m := .out) (Turns.any (turns_outsideStep p)) _ _ trivial

theorem turns_handler :
    Turns (system process trap) (flagOutline N chan lk) me (handler chan lk me) .out .out := by
  refine Turns.any fun n => ?_
  split_ifs
  · exact turns_section fun k x howing _ _ B => Turns.skip _ B howing
  · cases me with
    | none => exact Turns.skip
    | some p => exact fun Q B hq => know_ite (turns_yield p Q B hq) (Turns.skip Q B hq)
  · exact turns_wakeup (n - 2) rfl

end

/-- **sleep and wakeup lose no events**: with any number of processes and CPUs, whatever the interleaving,
nobody is `SLEEPING` on `chan` while `lk` is free and the condition is true. -/
theorem no_lost_wakeup (N : ℕ) (chan : ℕ) (lk : Guard) (alive : Fin N → Bool) (cond : Bool)
    {s : State (Table N ℕ Flag) (Use N) (Lock N) (Fin N)}
    (hreach : LockLang.Reach (system (client chan lk) (handler chan lk)) (fun _ _ => True)
      (booted (client chan lk) alive ⟨cond, false⟩) s)
    (hfree : s.holder (.guard lk) = none) (p : Fin N) :
    ¬ ((s.data.slot p).state = .sleeping ∧ (s.data.slot p).chan = some chan ∧ s.data.user.cond = true) := by
  rintro ⟨hstate, hchan, hcond⟩
  have hstart : ∀ p, know (system (client chan lk) (handler chan lk)) (flagOutline N chan lk) (some p)
      (client chan lk p) (fun _ => True) (fun _ => False)
      (.ofGrip ⟨p, fun x => x.state = .running, false, none⟩) := know_client
  have hrun := cond_false_of_reach trivial (fun _ _ _ _ _ _ _ => trivial) hstart
    (fun me => turns_handler) hreach
  have hfalse := hrun.2 hfree p chan hstate hchan
  simp [Flag.condOf, hcond] at hfalse

/-- A run in which the first of two processes falls asleep on the channel `7`. -/
def asleepRun : List LockLang.Event :=
  List.replicate 21 (.run 0 0) ++ List.replicate 30 (.run 0 4)

theorem no_lost_wakeup_asleep :
    ∃ s, LockLang.Reach (system (client 7 .other) (handler 7 .other)) (fun _ _ => True)
        (booted (client 7 .other) (fun _ : Fin 2 => true) ⟨false, false⟩) s
      ∧ s.holder (.guard .other) = none
      ∧ ((s.data.slot 0).state = .sleeping ∧ (s.data.slot 0).chan = some 7)
      ∧ ¬ ((s.data.slot 0).state = .sleeping ∧ (s.data.slot 0).chan = some 7 ∧ s.data.user.cond = true) := by
  have hrun : (runSteps (system (client 7 .other) (handler 7 .other)) (fun _ _ => true) asleepRun
      (booted (client 7 .other) (fun _ : Fin 2 => true) ⟨false, false⟩)).any (fun s =>
        s.holder (.guard .other) = none ∧ (s.data.slot 0).state = .sleeping
          ∧ (s.data.slot 0).chan = some 7) = true := by
    decide +kernel
  obtain ⟨s, hs, hcheck⟩ := (Option.any_eq_true _ _).mp hrun
  obtain ⟨hfree, hasleep⟩ := of_decide_eq_true hcheck
  have hreach : LockLang.Reach (system (client 7 .other) (handler 7 .other)) (fun _ _ => True)
      (booted (client 7 .other) (fun _ : Fin 2 => true) ⟨false, false⟩) s :=
    (LockLang.Reach.of_runSteps .start hs).mono fun _ _ _ => trivial
  exact ⟨s, hreach, hfree, hasleep, no_lost_wakeup 2 7 .other (fun _ => true) false hreach hfree 0⟩

end Xv6.Sleep
