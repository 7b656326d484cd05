/-
# What sleeping, waking and scheduling do to a view

The rules for the functions of `proc.c`, put together from the rules for single commands, and the
run lemma for all code that keeps to them.
-/
import Xv6.SleepRules

namespace Xv6.Sleep

open LockLang

variable {N : ℕ} {C δ : Type}

/-- No lock. -/
def View.out : View N C δ := { charge := none, ticks := false, grip := none }

/-- The lock `lk` only. -/
def View.inside (x : Charge N C δ) : View N C δ := { charge := some x, ticks := false, grip := none }

/-- The lock of the process `p` besides, with something known about its slot. -/
abbrev View.hold (v : View N C δ) (p : Fin N) (K : Slot C → Prop) : View N C δ :=
  { v with grip := some ⟨p, K, false, none⟩ }

theorem View.eq_out {v : View N C δ} (hv : v.locks = 0) : v = .out := by
  obtain ⟨charge, ticks, grip⟩ := v
  cases charge <;> cases ticks <;> cases grip <;> first | rfl | simp [View.locks] at hv

/-- All processes are still to be looked at. -/
theorem View.owes_all (v : View N C δ) (k : C) : v.owes k (List.finRange N) = v := by
  obtain ⟨charge, ticks, grip⟩ := v
  cases charge with
  | none => rfl
  | some x => simp [View.owes]

section

variable {process : Fin N → Code N C δ} {trap : Option (Fin N) → Code N C δ} {lk : Guard}
  {cond : C → δ → Bool} {good : δ → Prop} {allow : Table N C δ → Use N → Prop} {me : Option (Fin N)}
  {v : View N C δ} {x : Charge N C δ}

/-- The section that reads `ticks` leaves the view as it is. -/
theorem know_readTicks {site : Site} {l : List (Code N C δ)} {Q B : View N C δ → Prop}
    (hv : v.charge = none) (ht : v.ticks = false) (hfalls : ∀ g, v.grip = some g → g.falls = none)
    (hl : know (system process trap) (outline lk cond good allow) me (.block l) Q B v) :
    know (system process trap) (outline lk cond good allow) me (.block (readTicks site ++ l)) Q B v :=
  know_cons (turns_acquireTicks site hv ht) (know_cons (turns_releaseTicks hv ht hfalls) hl)

/-- A process that has left `RUNNING` gives up the CPU, and is `RUNNING` when it gets one back. -/
theorem turns_sched (p : Fin N) (K : Slot C → Prop) (falls : Option C) :
    Turns (system process trap) (outline lk cond good allow) (some p) (sched p)
      (.ofGrip ⟨p, K, false, falls⟩) (.ofGrip ⟨p, fun x => x.state = .running, false, none⟩) := by
  intro Q B hq
  refine know_head (know_ifSlot (g := ⟨p, K, false, falls⟩) false rfl (fun h => by cases h) trivial ?_)
  refine Turns.skip _ B (know_cons (turns_swtchBack (g := ⟨p, _, false, falls⟩) rfl) ?_)
  exact know_readTicks (l := []) rfl rfl (fun g hg => by rw [← Option.some.inj hg]) (Turns.nil Q B hq)

theorem turns_yield (p : Fin N) :
    Turns (system process trap) (outline lk cond good allow) (some p) (yield p) .out .out := by
  have hacquire : Turns (system process trap) (outline lk cond good allow) (some p)
      (acquire .yield (.proc p)) .out (.ofGrip ⟨p, fun _ => True, false, none⟩) :=
    turns_acquireProc .yield p rfl fun _ _ _ _ => trivial
  have hset : Turns (system process trap) (outline lk cond good allow) (some p) (setState p .runnable)
      (.ofGrip ⟨p, fun _ => True, false, none⟩) (.ofGrip ⟨p, fun _ => True, false, none⟩) :=
    turns_setSlot (g := ⟨p, fun _ => True, false, none⟩) rfl rfl (fun _ _ => trivial) id (fun _ h => h)
      (fun _ _ _ h => by cases h) (Or.inl rfl)
  have hrelease : Turns (system process trap) (outline lk cond good allow) (some p)
      (.release (.proc p)) (.ofGrip ⟨p, fun x => x.state = .running, false, none⟩) .out :=
    turns_releaseProc (g := ⟨p, fun x => x.state = .running, false, none⟩) rfl fun _ _ h => h
  exact hacquire.cons (hset.cons ((turns_sched p _ none).cons (hrelease.cons Turns.nil)))

/-- The scheduler looks at a process, and runs it if it is `RUNNABLE`. -/
theorem turns_schedule (p : Fin N) :
    Turns (system process trap) (outline lk cond good allow) none (schedule p) .out .out := by
  intro Q B hq
  have hacquire : Turns (system process trap) (outline lk cond good allow) none
      (acquire .scheduler (.proc p)) .out (.ofGrip ⟨p, fun _ => True, false, none⟩) :=
    turns_acquireProc .scheduler p rfl fun _ _ _ _ => trivial
  have hrelease : ∀ (K : Slot C → Prop) (a : Bool),
      know (system process trap) (outline lk cond good allow) none (.block [.release (.proc p)]) Q B
        (.ofGrip ⟨p, K, a, none⟩) := by
    intro K a
    refine know_cons (turns_releaseProc (g := ⟨p, K, a, none⟩) rfl fun h => by cases h) ?_
    exact Turns.nil Q B hq
  refine know_cons hacquire ?_
  -- a process that another CPU runs would be RUNNING, so nobody runs this one
  refine know_head (know_ifSlot (g := ⟨p, fun _ => True, false, none⟩) true rfl ?_ ?_ ?_)
  · intro _
    refine Or.inr ⟨by simp, fun x _ hx hrun => ?_⟩
    rw [decide_eq_true_eq, hrun] at hx
    cases hx
  · refine know_cons (m := .ofGrip ⟨p, fun x => x.state = .running, true, none⟩) ?_ ?_
    · exact turns_setSlot (g := ⟨p, _, true, none⟩) rfl rfl (fun _ _ => rfl) id (fun _ h => h)
        (fun _ _ _ h => by cases h) (Or.inr (Or.inl rfl))
    · refine know_readTicks rfl rfl (fun g hg => by rw [← Option.some.inj hg]) ?_
      refine know_cons (turns_swtchTo (g := ⟨p, _, true, none⟩) rfl rfl fun _ h => h) ?_
      exact Turns.nil _ B (hrelease _ true)
  · exact Turns.skip _ B (hrelease _ false)

theorem turns_scheduler :
    Turns (system process trap) (outline lk cond good allow) none scheduler .out v := by
  refine Turns.forever ?_
  exact Turns.map (fun _ => View.out) (fun p _ => turns_schedule p) (List.finRange N)

/-- `sleep(chan, lk)` may be called without debts while the condition of `chan` is false. -/
theorem turns_sleep (p : Fin N) (k : C)
    (hdebts : ∀ user, good user → x.known user → ∀ k q, cond k user = true → ¬ x.debts k q)
    (hcond : ∀ user, good user → x.known user → cond k user = false) :
    Turns (system process trap) (outline lk cond good allow) (some p) (sleep p k lk) (.inside x)
      (.inside ⟨fun _ _ => False, good⟩) := by
  have hacquire : Turns (system process trap) (outline lk cond good allow) (some p)
      (acquire .sleep (.proc p)) (.inside x)
      ((View.inside x).hold p fun y => y.state = .running) :=
    turns_acquireProc .sleep p rfl fun _ _ _ hrun => hrun rfl
  -- from here on the process is about to sleep
  have hgive : Turns (system process trap) (outline lk cond good allow) (some p)
      (.release (.guard lk))
      ((View.inside x).hold p fun y => y.state = .running)
      (.ofGrip ⟨p, fun y => y.state = .running, false, some k⟩) := by
    refine turns_releaseGuard rfl hdebts ?_
    intro k' hk g hg
    cases hk
    rw [← Option.some.inj hg]
    exact ⟨rfl, hcond⟩
  have hchan : Turns (system process trap) (outline lk cond good allow) (some p) (setChan p (some k))
      (.ofGrip ⟨p, fun y => y.state = .running, false, some k⟩)
      (.ofGrip ⟨p, fun y => y.state = .running ∧ y.chan = some k, false, some k⟩) :=
    turns_setSlot (g := ⟨p, _, false, some k⟩) rfl rfl (fun _ h => ⟨h, rfl⟩) id (fun _ h => h)
      (fun _ _ _ _ h => Or.inr h) (Or.inl rfl)
  have hstate : Turns (system process trap) (outline lk cond good allow) (some p) (setState p .sleeping)
      (.ofGrip ⟨p, fun y => y.state = .running ∧ y.chan = some k, false, some k⟩)
      (.ofGrip ⟨p, fun _ => True, false, none⟩) := by
    refine turns_setSlot (g := ⟨p, _, false, some k⟩) rfl rfl (fun _ _ => trivial) id ?_ ?_ (Or.inl rfl)
    · intro _ h
      cases h
    · intro y k' hy _ hk'
      exact Or.inr (hy.2.symm.trans hk')
  have htidy : Turns (system process trap) (outline lk cond good allow) (some p) (setChan p none)
      (.ofGrip ⟨p, fun y => y.state = .running, false, none⟩)
      (.ofGrip ⟨p, fun y => y.state = .running, false, none⟩) :=
    turns_setSlot (g := ⟨p, _, false, none⟩) rfl rfl (fun _ h => h) id (fun _ h => h)
      (fun _ _ _ _ h => by cases h) (Or.inl rfl)
  have hrelease : Turns (system process trap) (outline lk cond good allow) (some p)
      (.release (.proc p)) (.ofGrip ⟨p, fun y => y.state = .running, false, none⟩) .out :=
    turns_releaseProc (g := ⟨p, fun y => y.state = .running, false, none⟩) rfl fun _ _ h => h
  have hagain : Turns (system process trap) (outline lk cond good allow) (some p)
      (acquire .sleep (.guard lk)) .out (.inside ⟨fun _ _ => False, good⟩) :=
    turns_acquireGuard .sleep rfl
  exact hacquire.cons (hgive.cons (hchan.cons (hstate.cons ((turns_sched p _ none).cons
    (htidy.cons (hrelease.cons (hagain.cons Turns.nil)))))))

theorem turns_wakeup [DecidableEq C] (k : C) (hv : v.grip = none) :
    Turns (system process trap) (outline lk cond good allow) me (wakeup me k) v (v.owes k []) := by
  have hstep : ∀ p l, Turns (system process trap) (outline lk cond good allow) me
      (if me = some p then .skip else wakeupProc k p) (v.owes k (p :: l)) (v.owes k l) := by
    intro p l
    split_ifs with hme
    · exact turns_skipWoken hv hme
    · intro Q B hq
      have hacquire : Turns (system process trap) (outline lk cond good allow) me
          (acquire .wakeup (.proc p)) (v.owes k (p :: l))
          ((v.owes k (p :: l)).hold p fun _ => True) :=
        turns_acquireProc .wakeup p hv fun _ _ _ _ => trivial
      have hrelease : know (system process trap) (outline lk cond good allow) me
          (.block [.release (.proc p)]) Q B
          ((v.owes k (p :: l)).hold p fun y => ¬ (y.state = .sleeping ∧ y.chan = some k)) :=
        know_cons (turns_releaseWoken (g := ⟨p, _, false, none⟩) hv (fun _ h => h) rfl hme)
          (Turns.nil Q B hq)
      have hwake : Turns (system process trap) (outline lk cond good allow) me (setState p .runnable)
          ((v.owes k (p :: l)).hold p fun y =>
            True ∧ (decide (y.state = .sleeping) && decide (y.chan = some k)) = true)
          ((v.owes k (p :: l)).hold p fun y => ¬ (y.state = .sleeping ∧ y.chan = some k)) := by
        refine turns_setSlot (g := ⟨p, _, false, none⟩) rfl rfl ?_ id (fun _ h => h)
          (fun _ _ _ h => by cases h) ?_
        · rintro y - ⟨hst, -⟩
          cases hst
        · refine Or.inr (Or.inr (Or.inl ?_))
          rintro y ⟨-, hy⟩ hrun
          simp [hrun] at hy
      have hpass : Turns (system process trap) (outline lk cond good allow) me .skip
          ((v.owes k (p :: l)).hold p fun y =>
            True ∧ (decide (y.state = .sleeping) && decide (y.chan = some k)) = false)
          ((v.owes k (p :: l)).hold p fun y => ¬ (y.state = .sleeping ∧ y.chan = some k)) := by
        refine turns_skipGrip (g := ⟨p, _, false, none⟩) rfl rfl ?_ id rfl
        rintro y ⟨-, hy⟩ ⟨hst, hch⟩
        simp [hst, hch] at hy
      refine know_cons hacquire ?_
      exact know_head (know_ifSlot (g := ⟨p, fun _ => True, false, none⟩) false rfl (fun h => by cases h)
        (hwake _ B hrelease) (hpass _ B hrelease))
  have hall := Turns.map (fun l => v.owes k l) hstep (List.finRange N)
  simp only [View.owes_all] at hall
  exact hall

/-- `kill` makes nobody sleep. -/
theorem turns_kill (victim : Fin N) (hv : v.grip = none) :
    Turns (system process trap) (outline lk cond good allow) me (kill victim) v v := by
  have hfrom : ∀ l, Turns (system process trap) (outline lk cond good allow) me (killFrom victim l) v v := by
    intro l
    induction l with
    | nil => exact Turns.skip
    | cons p l ih =>
      -- the process that kills itself stays RUNNING
      have hacquire : Turns (system process trap) (outline lk cond good allow) me
          (acquire .kill (.proc p)) v
          (v.hold p fun y => me = some p → y.state = .running) :=
        turns_acquireProc .kill p hv fun _ _ _ hrun => hrun
      have hrelease : Turns (system process trap) (outline lk cond good allow) me (.release (.proc p))
          (v.hold p fun y => me = some p → y.state = .running) v := by
        have hback : { v with grip := none } = v := by
          rw [← hv]
        have hturns : Turns (system process trap) (outline lk cond good allow) me (.release (.proc p))
            (v.hold p fun y => me = some p → y.state = .running)
            { v with grip := none } :=
          turns_releaseProc (g := ⟨p, _, false, none⟩) rfl fun hme _ h => h hme
        rw [hback] at hturns
        exact hturns
      refine hacquire.cons (Turns.cons ?_ Turns.nil)
      split_ifs with hp
      · have hmark : Turns (system process trap) (outline lk cond good allow) me
            (setSlot p fun y => { y with killed := true })
            (v.hold p fun y => me = some p → y.state = .running)
            (v.hold p fun y => me = some p → y.state = .running) :=
          turns_setSlot (g := ⟨p, _, false, none⟩) rfl rfl (fun _ h => h) id (fun _ h => h)
            (fun _ _ _ hst hch => Or.inl ⟨hst, hch⟩) (Or.inr (Or.inr (Or.inr fun _ => rfl)))
        have hwake : Turns (system process trap) (outline lk cond good allow) me (setState p .runnable)
            (v.hold p fun y => (me = some p → y.state = .running) ∧ decide (y.state = .sleeping) = true)
            (v.hold p fun y => me = some p → y.state = .running) := by
          refine turns_setSlot (g := ⟨p, _, false, none⟩) rfl rfl ?_ id (fun _ h => h)
            (fun _ _ _ h => by cases h) ?_
          · rintro y ⟨hy, hst⟩ hme
            rw [decide_eq_true_eq, hy hme] at hst
            cases hst
          · refine Or.inr (Or.inr (Or.inl ?_))
            rintro y ⟨-, hst⟩ hrun
            rw [decide_eq_true_eq, hrun] at hst
            cases hst
        have hpass : Turns (system process trap) (outline lk cond good allow) me .skip
            (v.hold p fun y => (me = some p → y.state = .running) ∧ decide (y.state = .sleeping) = false)
            (v.hold p fun y => me = some p → y.state = .running) :=
          turns_skipGrip (g := ⟨p, _, false, none⟩) rfl rfl (fun _ h => h.1) id rfl
        refine hmark.cons (Turns.cons ?_ (hrelease.cons Turns.nil))
        intro Q B hq
        exact know_ifSlot (g := ⟨p, fun y => me = some p → y.state = .running, false, none⟩) false rfl
          (fun h => by cases h) (hwake Q B hq) (hpass Q B hq)
      · exact hrelease.cons (ih.cons Turns.nil)
  exact hfrom _

/-- `killed(p)`, called with `lk`: the caller knows then what the processes share, as it was when the lock of
the process was taken. -/
theorem know_killed (p : Fin N) {result : Bool → δ → δ} {Q B : View N C δ → Prop}
    (hf : ∀ d : Table N C δ, allow d ⟨.proc p, .killed⟩ → good d.user → x.known d.user →
      good (result (d.slot p).killed d.user)
        ∧ (∀ k, cond k (result (d.slot p).killed d.user) = true → cond k d.user = true)
        ∧ Q (.inside ⟨x.debts, fun user => user = result (d.slot p).killed d.user⟩)) :
    know (system process trap) (outline lk cond good allow) (some p) (killed p result) Q B (.inside x) := by
  refine know_head ⟨trivial, fun d h r w c hat hfree hallow => ?_⟩
  have hi : Inv lk cond good d h r w := hat.inv
  have hx : (w c).charge = some x := by rw [hat.view]; rfl
  have hrun := hi.grips.running_of_free hfree hat.cur
  obtain ⟨hgood, hcond, hq⟩ := hf d hallow hi.guards.good (hi.guards.known c x hx)
  -- from here on the CPU knows the slot and what the processes share exactly
  let v' : View N C δ := View.hold (.inside ⟨x.debts, fun user => user = d.user⟩) p fun z => z = d.slot p
  refine ⟨v', rfl, ?_, ?_⟩
  · refine hi.step ?_ ?_ ?_
    · have hguards : Guards lk good d.user (Function.update h (.proc p) (some (c, ⟨.proc p, .killed⟩)))
          fun e => (w e).charge := hi.guards.congr (Function.update_of_ne (by simp) _ _)
      exact hguards.set hx hguards.good rfl
    · exact hi.grips.take hfree (by rw [hat.view]; rfl) _ rfl
    · intro q k hs hk
      rcases hs.of_update with hs | ⟨g, hg, -, hfalls⟩
      · refine Or.inl ⟨hs, hk, fun y hy hd => ⟨_, rfl, ?_⟩⟩
        rw [hx] at hy
        exact Option.some.inj hy ▸ hd
      · rw [← Option.some.inj hg] at hfalls
        cases hfalls
  · refine know_head (know_assign rfl ?_)
    intro d' hslot hgood' huser
    have hslot' : d'.slot p = d.slot p := hslot _ rfl
    have huser' : d'.user = d.user := huser
    rw [hslot', huser']
    refine ⟨hgood, ⟨x.debts, fun user => user = result (d.slot p).killed d.user⟩, rfl, ?_, ?_⟩
    · refine know_cons (m := .inside ⟨x.debts, fun user => user = result (d.slot p).killed d.user⟩) ?_
        (Turns.nil _ B hq)
      refine turns_releaseProc (g := ⟨p, _, false, none⟩) rfl fun _ z hz => ?_
      rw [hz]
      exact hrun
    · intro k q hk
      exact ⟨fun _ hd => hd, fun hfalse => by rw [hcond k hk] at hfalse; cases hfalse⟩

/-! ## Runs -/

/-- The state after `booted` is in agreement with views without locks. -/
theorem agree_booted {alive : Fin N → Bool} {user : δ} (hgood : good user)
    (hstart : ∀ p, know (system process trap) (outline lk cond good allow) (some p) (process p)
      (fun _ => True) (fun _ => False) (.ofGrip ⟨p, fun x => x.state = .running, false, none⟩)) :
    Agree (system process trap) (outline lk cond good allow) (fun _ => .out)
      (booted process alive user) := by
  constructor
  case inv =>
    refine ⟨⟨hgood, ?_, ?_⟩, ⟨?_, ?_, ?_, ?_, ?_, ?_⟩, ?_⟩
    case refine_9 =>
      rintro q k (⟨hst, -⟩ | ⟨_, _, hg, -⟩)
      · cases halive : alive q <;> simp [booted, halive] at hst
      · cases hg
    all_goals simp [booted, View.out, State.cur]
  case noff => exact fun _ => rfl
  case code => exact fun _ => turns_scheduler (v := .out) _ (fun _ => False) trivial
  case saved =>
    intro c p h
    cases h
  case context => exact hstart

/-- **No wakeup is lost** in a run of code that keeps to the rules: while `lk` is free, nobody is
`SLEEPING` on a channel whose condition is true. -/
theorem cond_false_of_reach {alive : Fin N → Bool} {user : δ}
    {ok : State (Table N C δ) (Use N) (Lock N) (Fin N) → LockLang.Event → Prop}
    {s : State (Table N C δ) (Use N) (Lock N) (Fin N)} (hgood : good user)
    (hallow : ∀ s c n u k, ok s (.run c n) → (s.cpu c).code = .next (.acquire u) k → allow s.data u)
    (hstart : ∀ p, know (system process trap) (outline lk cond good allow) (some p) (process p)
      (fun _ => True) (fun _ => False) (.ofGrip ⟨p, fun x => x.state = .running, false, none⟩))
    (htrap : ∀ me, Turns (system process trap) (outline lk cond good allow) me (trap me) .out .out)
    (hreach : LockLang.Reach (system process trap) ok (booted process alive user) s) :
    good s.data.user ∧ (s.holder (.guard lk) = none →
      ∀ q k, (s.data.slot q).state = .sleeping → (s.data.slot q).chan = some k →
        cond k s.data.user = false) := by
  have hinterrupt : ∀ (me : Option (Fin N)) (v : View N C δ), v.locks = 0 →
      Turns (system process trap) (outline lk cond good allow) me (trap me) v v := by
    intro me v hv
    rw [View.eq_out hv]
    exact htrap me
  obtain ⟨w, hw⟩ := Agree.reach hallow hstart hinterrupt ⟨_, agree_booted hgood hstart⟩ hreach
  have hi : Inv lk cond good s.data s.holder s.cur w := hw.inv
  exact ⟨hi.guards.good, fun hfree q k hst hch => hi.cond_false hfree hst hch⟩

end

end Xv6.Sleep
