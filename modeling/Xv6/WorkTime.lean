/-
# What `totalTime` counts

The sum of the times that `sched` adds is balanced against the numbers of ticks of the schedule: at
each place a process is balanced in one of three ways (`Balanced`), and every step keeps that.  When
the process resumes, its `totalTime` is at most its running time exactly if the ticks that came
while it waited are not more than those the sum leaves out.
-/
import Xv6.WorkModel

namespace Xv6.Work

variable {C : Type}

/-! ## The balance of a process -/

/-- The time from `t` on is still to be added. -/
def History.Owed (h : History) (ticks t : ℕ) : Prop :=
  t ≤ ticks ∧ h.exact + ticks + h.lead = t + h.running + h.waiting + h.resumes

/-- In a slice that began at `t`, with the time before it added. -/
def History.InSlice (h : History) (ticks t : ℕ) : Prop :=
  ticks = t + h.resume + h.late ∧ h.exact + h.late + h.lead = h.running + h.waiting + h.resumes

/-- In a slice that began at `t`, with the time from `last` on still to be added. -/
def History.Resuming (h : History) (ticks t last : ℕ) : Prop :=
  h.Owed ticks last ∧ ticks = t + h.resume ∧ h.late = 0

/-- The same, with the clock read at `xticks`. -/
def History.Counting (h : History) (ticks t last xticks : ℕ) : Prop :=
  last ≤ xticks ∧ xticks = t + h.resume ∧ ticks = xticks + h.late
    ∧ h.exact + xticks + h.late + h.lead = last + h.running + h.waiting + h.resumes

/-- No slice is under way. -/
def History.AtRest (h : History) : Prop := h.resume = 0 ∧ h.late = 0

/-- In the first slice, before the clock is read. -/
def History.Leading (h : History) : Prop :=
  h.exact = 0 ∧ h.running = h.lead ∧ h.waiting = 0 ∧ h.resumes = 0 ∧ h.AtRest

/-- The balance at each place; `t` is what the `scheduler` of the processor read. -/
def Proc.Balanced (ticks t : ℕ) (x : Proc C) : Prop :=
  match x.place with
  | .off =>
    x.state ≠ .running ∧ if x.state = .unused ∨ x.fresh then x.history = {} ∧ x.lastStartTime = 0
      else x.history.Owed ticks x.lastStartTime ∧ x.history.AtRest
  | .chosen _ =>
    x.state = .running ∧ if x.fresh then x.history.Leading ∧ x.lastStartTime = 0
      else x.history.Owed ticks x.lastStartTime ∧ x.history.AtRest
  | .stamped _ =>
    x.state = .running ∧ if x.fresh then x.history.InSlice ticks t
      else x.history.Resuming ticks t x.lastStartTime
  | .resuming _ =>
    x.state = .running ∧ x.fresh = false ∧ x.history.Resuming ticks t x.lastStartTime
  | .counting _ xticks =>
    x.state = .running ∧ x.fresh = false ∧ x.history.Counting ticks t x.lastStartTime xticks
  | .entered _ | .resumed _ | .running _ =>
    x.state = .running ∧ x.fresh = false ∧ x.history.InSlice ticks t
  | .leaving _ =>
    x.state ≠ .running ∧ x.state ≠ .unused ∧ x.fresh = false ∧ x.history.Owed ticks t
      ∧ x.history.AtRest
  | .stored _ =>
    x.state ≠ .running ∧ x.state ≠ .unused ∧ x.fresh = false
      ∧ x.history.Owed ticks x.lastStartTime ∧ x.history.AtRest

/-- What holds of a process at every place. -/
structure Proc.Fair (ticks : ℕ) (x : Proc C) : Prop where
  total : x.totalTime = int32 x.history.exact
  elapsed : x.history.running + x.history.waiting ≤ ticks
  within : x.history.resumes + x.history.resume ≤ x.history.running

/-! ## A tick -/

section Tick

variable {h : History} {ticks t : ℕ}

theorem History.Owed.wait (ho : h.Owed ticks t) :
    { h with waiting := h.waiting + 1 : History }.Owed (ticks + 1) t := by
  unfold History.Owed at *
  dsimp only
  omega

theorem History.Owed.run (ho : h.Owed ticks t) :
    { h with running := h.running + 1 : History }.Owed (ticks + 1) t := by
  unfold History.Owed at *
  dsimp only
  omega

theorem History.InSlice.run (hi : h.InSlice ticks t) :
    { h with running := h.running + 1, late := h.late + 1 : History }.InSlice (ticks + 1) t := by
  unfold History.InSlice at *
  dsimp only
  omega

theorem History.Resuming.run {last : ℕ} (hr : h.Resuming ticks t last) :
    { h with running := h.running + 1, resume := h.resume + 1 : History }.Resuming
      (ticks + 1) t last := by
  unfold History.Resuming History.Owed at *
  dsimp only
  omega

theorem History.Counting.run {last xticks : ℕ} (hc : h.Counting ticks t last xticks) :
    { h with running := h.running + 1, late := h.late + 1 : History }.Counting
      (ticks + 1) t last xticks := by
  unfold History.Counting at *
  dsimp only
  omega

theorem History.Leading.run (hl : h.Leading) :
    { h with running := h.running + 1, lead := h.lead + 1 : History }.Leading := by
  unfold History.Leading History.AtRest at *
  dsimp only
  omega

end Tick

theorem balanced_tick {ticks t : ℕ} {x : Proc C} (h : x.Balanced ticks t) :
    x.tick.Balanced (ticks + 1) t := by
  obtain ⟨state, fresh, total, last, cnt, place, history⟩ := x
  cases place with
  | off =>
    obtain ⟨hst, h⟩ := h
    dsimp only at hst h
    refine ⟨hst, ?_⟩
    simp only [Proc.tick, if_neg hst, Nat.add_zero]
    by_cases hnew : state = .unused ∨ fresh = true
    · have hcond : ¬ (fresh = false ∧ state ≠ .unused) := by grind
      rw [if_pos hnew] at h ⊢
      rwa [if_neg hcond]
    · have hcond : fresh = false ∧ state ≠ .unused := by grind
      rw [if_neg hnew] at h ⊢
      rw [if_pos hcond]
      exact ⟨h.1.wait, h.2⟩
  | chosen c =>
    obtain ⟨hst, h⟩ := h
    dsimp only at hst h
    refine ⟨hst, ?_⟩
    simp only [Proc.tick, if_pos hst]
    by_cases hnew : fresh = true
    · rw [if_pos hnew] at h ⊢
      rw [if_pos hnew]
      exact ⟨h.1.run, h.2⟩
    · rw [if_neg hnew] at h ⊢
      rw [if_neg hnew]
      exact ⟨h.1.run, h.2⟩
  | stamped c =>
    obtain ⟨hst, h⟩ := h
    dsimp only at hst h
    refine ⟨hst, ?_⟩
    simp only [Proc.tick, if_pos hst]
    by_cases hnew : fresh = true
    · rw [if_pos hnew] at h ⊢
      rw [if_pos hnew]
      exact h.run
    · rw [if_neg hnew] at h ⊢
      rw [if_neg hnew]
      exact h.run
  | resuming c =>
    obtain ⟨hst, hf, h⟩ := h
    refine ⟨hst, hf, ?_⟩
    simp only [Proc.tick, if_pos hst]
    exact h.run
  | counting c xticks =>
    obtain ⟨hst, hf, h⟩ := h
    refine ⟨hst, hf, ?_⟩
    simp only [Proc.tick, if_pos hst]
    exact h.run
  | entered c | resumed c | running c =>
    obtain ⟨hst, hf, h⟩ := h
    refine ⟨hst, hf, ?_⟩
    simp only [Proc.tick, if_pos hst]
    exact h.run
  | leaving c | stored c =>
    obtain ⟨hst, hused, hf, h, hrest⟩ := h
    refine ⟨hst, hused, hf, ?_⟩
    simp only [Proc.tick, if_neg hst]
    exact ⟨h.wait, hrest⟩

theorem fair_tick {ticks t : ℕ} {x : Proc C} (hb : x.Balanced ticks t) (h : x.Fair ticks) :
    x.tick.Fair (ticks + 1) := by
  obtain ⟨htotal, helapsed, hwithin⟩ := h
  obtain ⟨state, fresh, total, last, cnt, place, history⟩ := x
  -- a tick in the state `RUNNING` is not one of waiting, and one between the reads is in it
  cases place with
  | off | chosen c | stamped c =>
    have hst := hb.1
    dsimp only at *
    simp only [Proc.tick, hst, if_true, if_false]
    split_ifs <;> exact ⟨htotal, by dsimp only; omega, by dsimp only; omega⟩
  | entered c | resuming c | counting c xticks | resumed c | running c | leaving c | stored c =>
    have hst := hb.1
    dsimp only at *
    simp only [Proc.tick, hst, if_true, if_false]
    exact ⟨htotal, by dsimp only; omega, by dsimp only; omega⟩

/-! ## A step of a processor -/

variable [DecidableEq C] {c : C} {ticks t : ℕ} {x y : Proc C} {a : Act}

section Switch

variable {h : History} {last xticks : ℕ}

theorem History.Leading.stamp (hl : h.Leading) (ticks : ℕ) : h.InSlice ticks ticks := by
  unfold History.Leading History.AtRest at hl
  unfold History.InSlice
  omega

theorem History.Owed.stamp (ho : h.Owed ticks last) (hr : h.AtRest) :
    h.Resuming ticks ticks last := by
  unfold History.AtRest at hr
  unfold History.Resuming
  exact ⟨ho, by omega, hr.2⟩

theorem History.Resuming.read (hr : h.Resuming ticks t last) : h.Counting ticks t last ticks := by
  unfold History.Resuming History.Owed at hr
  unfold History.Counting
  omega

theorem History.Counting.count (hc : h.Counting ticks t last xticks) :
    { h with exact := h.exact + (xticks - last) : History }.InSlice ticks t := by
  unfold History.Counting at hc
  unfold History.InSlice
  dsimp only
  omega

theorem History.InSlice.leave (hi : h.InSlice ticks t) :
    { h with resumes := h.resumes + h.resume, resume := 0, late := 0 : History }.Owed ticks t := by
  unfold History.InSlice at hi
  unfold History.Owed
  dsimp only
  omega

end Switch

/-- The start time of the slice after a step. -/
def startAfter (ticks t : ℕ) (a : Act) : ℕ := if a = .stamp then ticks else t

theorem leave_eq {st : ProcState} (h : x.leave c st = some y) : x.place = .running c ∧
    y = { x with
      state := st
      place := .leaving c
      history := { x.history with
        resumes := x.history.resumes + x.history.resume, resume := 0, late := 0 } } := by
  unfold Proc.leave at h
  split_ifs at h with hp
  exact ⟨hp, (Option.some.inj h).symm⟩

theorem count_eq (h : x.move c ticks t .count = some y) : ∃ xticks, x.place = .counting c xticks ∧
    y = { x with
      totalTime := int32 (x.totalTime + ((xticks : ℤ) - x.lastStartTime) % 2 ^ 32)
      lastStartTime := 0
      place := .resumed c
      history := { x.history with exact := x.history.exact + (xticks - x.lastStartTime) } } := by
  unfold Proc.move at h
  cases hp : x.place with
  | counting d xticks =>
    rw [hp] at h
    dsimp only at h
    split_ifs at h with hd
    subst hd
    exact ⟨xticks, rfl, (Option.some.inj h).symm⟩
  | _ =>
    rw [hp] at h
    cases h

theorem balanced_leave {st : ProcState} (hst : st ≠ .running) (hst' : st ≠ .unused)
    (hb : x.Balanced ticks t) (h : x.leave c st = some y) : y.Balanced ticks t := by
  obtain ⟨hp, rfl⟩ := leave_eq h
  unfold Proc.Balanced at hb
  rw [hp] at hb
  obtain ⟨-, hf, hslice⟩ := hb
  exact ⟨hst, hst', hf, hslice.leave, rfl, rfl⟩

theorem balanced_move (hb : x.Balanced ticks t) (h : x.move c ticks t a = some y) :
    y.Balanced ticks (startAfter ticks t a) := by
  cases a with
  | stamp =>
    simp only [Proc.move] at h
    split_ifs at h with hp
    cases h
    unfold Proc.Balanced at hb
    rw [hp] at hb
    refine ⟨hb.1, ?_⟩
    dsimp only
    split_ifs with hfresh
    · rw [if_pos hfresh] at hb
      exact hb.2.1.stamp ticks
    · rw [if_neg hfresh] at hb
      exact hb.2.1.stamp hb.2.2
  | swtch =>
    simp only [Proc.move] at h
    split_ifs at h with hp hfresh
    · cases h
      unfold Proc.Balanced at hb
      rw [hp] at hb
      dsimp only at hb
      rw [if_pos hfresh] at hb
      exact ⟨hb.1, rfl, hb.2⟩
    · cases h
      unfold Proc.Balanced at hb
      rw [hp] at hb
      dsimp only at hb
      rw [if_neg hfresh] at hb
      exact ⟨hb.1, rfl, hb.2⟩
  | read =>
    simp only [Proc.move] at h
    split_ifs at h with hp
    cases h
    unfold Proc.Balanced at hb
    rw [hp] at hb
    exact ⟨hb.1, hb.2.1, hb.2.2.read⟩
  | count =>
    obtain ⟨xticks, hp, rfl⟩ := count_eq h
    unfold Proc.Balanced at hb
    rw [hp] at hb
    exact ⟨hb.1, hb.2.1, hb.2.2.count⟩
  | release =>
    simp only [Proc.move] at h
    split_ifs at h with hp
    cases h
    unfold Proc.Balanced at hb
    rcases hp with hp | hp <;> rw [hp] at hb <;> exact hb
  | yield => exact balanced_leave (by decide) (by decide) hb h
  | sleep => exact balanced_leave (by decide) (by decide) hb h
  | exit => exact balanced_leave (by decide) (by decide) hb h
  | store =>
    simp only [Proc.move] at h
    split_ifs at h with hp
    cases h
    unfold Proc.Balanced at hb
    rw [hp] at hb
    exact hb
  | drop =>
    simp only [Proc.move] at h
    split_ifs at h with hp
    cases h
    unfold Proc.Balanced at hb
    rw [hp] at hb
    obtain ⟨hst, hused, hfresh, howed, hrest⟩ := hb
    refine ⟨hst, ?_⟩
    dsimp only
    rw [if_neg (by simp [hused, hfresh])]
    exact ⟨howed, hrest⟩

theorem fair_leave {st : ProcState} (hf : x.Fair ticks) (h : x.leave c st = some y) :
    y.Fair ticks := by
  obtain ⟨hp, rfl⟩ := leave_eq h
  exact ⟨hf.total, hf.elapsed, hf.within⟩

theorem int32_add_emod (e d : ℤ) : int32 (int32 e + d % 2 ^ 32) = int32 (e + d) := by
  unfold int32
  rw [Int.bmod_add_bmod]
  exact Int.add_emod_bmod d (2 ^ 32)

/-- The sum is the one without the bounds of an `int`, modulo `2^32`. -/
theorem fair_move (hb : x.Balanced ticks t) (hf : x.Fair ticks)
    (h : x.move c ticks t a = some y) : y.Fair ticks := by
  cases a with
  | stamp | swtch | read | release | store | drop =>
    simp only [Proc.move] at h
    split_ifs at h
    all_goals
      cases h
      exact ⟨hf.total, hf.elapsed, hf.within⟩
  | yield => exact fair_leave hf h
  | sleep => exact fair_leave hf h
  | exit => exact fair_leave hf h
  | count =>
    obtain ⟨xticks, hp, rfl⟩ := count_eq h
    unfold Proc.Balanced at hb
    rw [hp] at hb
    refine ⟨?_, hf.elapsed, hf.within⟩
    have hlast : x.lastStartTime ≤ xticks := hb.2.2.1
    dsimp only
    rw [hf.total, int32_add_emod, Nat.cast_add, Nat.cast_sub hlast]

/-- A step of a processor is one of its process, which stays on it unless it is dropped. -/
theorem move_place (h : x.move c ticks t a = some y) :
    x.place.cpu? = some c ∧ (y.place.cpu? = some c ∧ a ≠ .drop ∨ y.place = .off ∧ a = .drop) := by
  cases a with
  | count =>
    obtain ⟨xticks, hp, rfl⟩ := count_eq h
    exact ⟨by rw [hp]; rfl, Or.inl ⟨rfl, by decide⟩⟩
  | yield | sleep | exit =>
    obtain ⟨hp, rfl⟩ := leave_eq h
    exact ⟨by rw [hp]; rfl, Or.inl ⟨rfl, by decide⟩⟩
  | stamp | read | store =>
    simp only [Proc.move] at h
    split_ifs at h with hp
    cases h
    exact ⟨by rw [hp]; rfl, Or.inl ⟨rfl, by decide⟩⟩
  | swtch =>
    simp only [Proc.move] at h
    split_ifs at h with hp hfresh <;> cases h <;>
      exact ⟨by rw [hp]; rfl, Or.inl ⟨rfl, by decide⟩⟩
  | release =>
    simp only [Proc.move] at h
    split_ifs at h with hp
    cases h
    refine ⟨?_, Or.inl ⟨rfl, by decide⟩⟩
    rcases hp with hp | hp <;> rw [hp] <;> rfl
  | drop =>
    simp only [Proc.move] at h
    split_ifs at h with hp
    cases h
    exact ⟨by rw [hp]; rfl, Or.inr ⟨rfl, rfl⟩⟩

/-! ## Runs -/

variable {N : ℕ} {s s' : State N C}

/-- What the scheduler of its processor read, for a process that is on one. -/
def State.startOf (s : State N C) (p : Fin N) : ℕ :=
  match (s.proc p).place.cpu? with
  | some c => (s.cpu c).xticksStart
  | none => 0

structure Inv (s : State N C) : Prop where
  link : ∀ p c, (s.proc p).place.cpu? = some c → (s.cpu c).proc = some p
  balanced : ∀ p, (s.proc p).Balanced s.ticks (s.startOf p)
  fair : ∀ p, (s.proc p).Fair s.ticks

omit [DecidableEq C] in
theorem cpu?_eq_none_iff {place : Place C} : place.cpu? = none ↔ place = .off := by
  cases place <;> simp [Place.cpu?]

omit [DecidableEq C] in
theorem balanced_off {t t' : ℕ} (hp : x.place = .off) (h : x.Balanced ticks t) :
    x.Balanced ticks t' := by
  unfold Proc.Balanced at *
  rw [hp] at *
  exact h

omit [DecidableEq C] in
/-- The balance off the processors depends on the state only for a new process. -/
theorem balanced_state {st : ProcState} (hp : x.place = .off) (h : x.Balanced ticks t)
    (hst : st ≠ .running) (hold : x.state ≠ .unused) (hnew : st ≠ .unused) :
    { x with state := st }.Balanced ticks t := by
  unfold Proc.Balanced at *
  rw [hp] at *
  refine ⟨hst, ?_⟩
  simpa only [hold, hnew, false_or] using h.2

omit [DecidableEq C] in
theorem balanced_unused (hp : x.place = .off) (hst : x.state = .unused)
    (h : x.Balanced ticks t) : x.history = {} ∧ x.lastStartTime = 0 := by
  unfold Proc.Balanced at h
  rw [hp] at h
  dsimp only at h
  rw [if_pos (Or.inl hst)] at h
  exact h.2

omit [DecidableEq C] in
theorem balanced_chosen {t' : ℕ} (hp : x.place = .off) (hst : x.state = .runnable)
    (h : x.Balanced ticks t) :
    { x with state := .running, place := .chosen c }.Balanced ticks t' := by
  unfold Proc.Balanced at h
  rw [hp, hst] at h
  refine ⟨rfl, ?_⟩
  dsimp only at h ⊢
  by_cases hfresh : x.fresh = true
  · rw [if_pos (Or.inr hfresh)] at h
    rw [if_pos hfresh, h.2.1]
    exact ⟨⟨rfl, rfl, rfl, rfl, rfl, rfl⟩, h.2.2⟩
  · rw [if_neg (by simp [hfresh])] at h
    rw [if_neg hfresh]
    exact h.2

omit [DecidableEq C] in
theorem startOf_of_cpu {p : Fin N} (h : (s.proc p).place.cpu? = some c) :
    s.startOf p = (s.cpu c).xticksStart := by
  unfold State.startOf
  rw [h]

omit [DecidableEq C] in
/-- A step that changes the process `p`, and no processor that another process is on. -/
theorem Inv.frame (h : Inv s) (p : Fin N) (hticks : s'.ticks = s.ticks)
    (hproc : ∀ q, q ≠ p → s'.proc q = s.proc q)
    (hcpu : ∀ q, q ≠ p → ∀ d, (s.proc q).place.cpu? = some d → s'.cpu d = s.cpu d)
    (hlink : ∀ d, (s'.proc p).place.cpu? = some d → (s'.cpu d).proc = some p)
    (hbal : (s'.proc p).Balanced s.ticks (s'.startOf p)) (hfair : (s'.proc p).Fair s.ticks) :
    Inv s' := by
  constructor
  · intro q d hq
    by_cases hqp : q = p
    · exact hqp ▸ hlink d (hqp ▸ hq)
    · rw [hproc q hqp] at hq
      rw [hcpu q hqp d hq, h.link q d hq]
  · intro q
    rw [hticks]
    by_cases hqp : q = p
    · exact hqp ▸ hbal
    · have hstart : s'.startOf q = s.startOf q := by
        unfold State.startOf
        rw [hproc q hqp]
        cases hd : (s.proc q).place.cpu? with
        | none => rfl
        | some d => exact congrArg Cpu.xticksStart (hcpu q hqp d hd)
      rw [hproc q hqp, hstart]
      exact h.balanced q
  · intro q
    rw [hticks]
    by_cases hqp : q = p
    · exact hqp ▸ hfair
    · rw [hproc q hqp]
      exact h.fair q

/-- A step of the processor `c` and the process `p`, where no other process is on `c`. -/
theorem Inv.set (h : Inv s) {p : Fin N} {y : Cpu N}
    (hother : ∀ q, q ≠ p → (s.proc q).place.cpu? ≠ some c)
    (hlink : x.place = .off ∨ x.place.cpu? = some c ∧ y.proc = some p)
    (hbal : x.Balanced s.ticks y.xticksStart) (hfair : x.Fair s.ticks) :
    Inv ((s.setProc p x).setCpu c y) := by
  have hself : ((s.setProc p x).setCpu c y).proc p = x := by
    simp [State.setProc, State.setCpu]
  have hcpu : ((s.setProc p x).setCpu c y).cpu c = y := by
    simp [State.setProc, State.setCpu]
  apply h.frame p
  · rfl
  · intro q hq
    simp [State.setProc, State.setCpu, hq]
  · intro q hq d hd
    have hdc : d ≠ c := fun hdc => hother q hq (hdc ▸ hd)
    simp [State.setProc, State.setCpu, hdc]
  · intro d hd
    rw [hself] at hd
    rcases hlink with hoff | ⟨hon, hproc⟩
    · rw [hoff] at hd
      cases hd
    · obtain rfl : c = d := Option.some.inj (hon.symm.trans hd)
      rw [hcpu, hproc]
  · rw [hself]
    rcases hlink with hoff | ⟨hon, -⟩
    · exact balanced_off hoff hbal
    · rw [startOf_of_cpu (by rwa [hself]), hcpu]
      exact hbal
  · rwa [hself]

theorem Inv.assign (h : Inv s) {p : Fin N} {u : ProcState → Bool} {f : Proc C → Proc C}
    (hs : s.assign p u f = some s')
    (hf : ∀ x : Proc C, x.place = .off → u x.state = true → x.Balanced s.ticks 0 →
      x.Fair s.ticks → (f x).place = .off ∧ (f x).Balanced s.ticks 0 ∧ (f x).Fair s.ticks) :
    Inv s' := by
  unfold State.assign at hs
  split_ifs at hs with hcond
  cases hs
  obtain ⟨hoff, hbal, hfair⟩ := hf (s.proc p) hcond.1 hcond.2
    (balanced_off hcond.1 (h.balanced p)) (h.fair p)
  have hself : (s.setProc p (f (s.proc p))).proc p = f (s.proc p) := by
    simp [State.setProc]
  apply h.frame p
  · rfl
  · intro q hq
    simp [State.setProc, hq]
  · intro q _ d _
    rfl
  · intro d hd
    rw [hself, hoff] at hd
    cases hd
  · rw [hself]
    exact balanced_off hoff hbal
  · rwa [hself]

/-- `scheduler` goes on to another slot. -/
theorem Inv.skip (h : Inv s) (c : C) (n : Fin N) : Inv (s.setCpu c { s.cpu c with p := n }) := by
  have hcpu : ∀ d, ((s.setCpu c { s.cpu c with p := n }).cpu d).proc = (s.cpu d).proc
      ∧ ((s.setCpu c { s.cpu c with p := n }).cpu d).xticksStart = (s.cpu d).xticksStart := by
    intro d
    by_cases hd : d = c
    · subst hd
      simp [State.setCpu]
    · simp [State.setCpu, hd]
  refine ⟨fun q d hq => (hcpu d).1.trans (h.link q d hq), fun q => ?_, h.fair⟩
  have hb := h.balanced q
  cases hd : (s.proc q).place.cpu? with
  | none => exact balanced_off (cpu?_eq_none_iff.mp hd) hb
  | some d =>
    have hd' : ((s.setCpu c { s.cpu c with p := n }).proc q).place.cpu? = some d := hd
    rw [startOf_of_cpu hd, ← (hcpu d).2] at hb
    rw [startOf_of_cpu hd']
    exact hb

variable [NeZero N]

theorem int32_zero : int32 0 = 0 := by decide

omit [DecidableEq C] in
theorem inv_boot : Inv (boot : State N C) where
  link := by
    intro p c h
    cases h
  balanced := fun p => ⟨ProcState.noConfusion, rfl, rfl⟩
  fair := fun p => ⟨int32_zero.symm, le_rfl, le_rfl⟩

omit [DecidableEq C] [NeZero N] in
/-- No process is on an idle processor, and only its own on a busy one. -/
theorem Inv.other (h : Inv s) {p : Fin N} (hc : ∀ q, (s.cpu c).proc = some q → q = p) (q : Fin N)
    (hq : q ≠ p) : (s.proc q).place.cpu? ≠ some c :=
  fun hon => hq (hc q (h.link q c hon))

theorem inv_step (h : Inv s) {e : Event N C} (hs : step s e = some s') : Inv s' := by
  cases e with
  | tick =>
    simp only [step] at hs
    split_ifs at hs
    cases hs
    exact ⟨h.link, fun p => balanced_tick (h.balanced p),
      fun p => fair_tick (h.balanced p) (h.fair p)⟩
  | scan c =>
    simp only [step] at hs
    split_ifs at hs with hidle hoff hrun hbusy
    · cases hs
      apply h.set (h.other fun q hq => by rw [hidle] at hq; cases hq)
      · exact Or.inr ⟨rfl, rfl⟩
      · exact balanced_chosen hoff hrun (h.balanced _)
      · exact ⟨(h.fair _).total, (h.fair _).elapsed, (h.fair _).within⟩
    · cases hs
      exact h.skip c _
    · cases hs
      exact h.skip c _
  | act c a =>
    obtain ⟨p, hp, hs⟩ := Option.bind_eq_some_iff.mp hs
    obtain ⟨x, hmove, rfl⟩ := Option.map_eq_some_iff.mp hs
    obtain ⟨hon, hplace⟩ := move_place hmove
    have hstart := startOf_of_cpu hon
    apply h.set (h.other fun q hq => Option.some.inj (hq.symm.trans hp))
    · rcases hplace with ⟨hon', ha⟩ | ⟨hoff, -⟩
      · right
        refine ⟨hon', ?_⟩
        cases a <;> first | exact hp | exact absurd rfl ha
      · exact Or.inl hoff
    · have hb := balanced_move (hstart ▸ h.balanced p) hmove
      cases a <;> exact hb
    · exact fair_move (hstart ▸ h.balanced p) (h.fair p) hmove
  | wakeup p =>
    simp only [step] at hs
    apply h.assign hs
    intro x hoff hst hb hf
    have hold : x.state = .sleeping := of_decide_eq_true hst
    exact ⟨hoff, balanced_state hoff hb (by decide) (by rw [hold]; decide) (by decide),
      hf.total, hf.elapsed, hf.within⟩
  | allocproc p =>
    simp only [step] at hs
    apply h.assign hs
    intro x hoff hst hb hf
    have hold : x.state = .unused := of_decide_eq_true hst
    obtain ⟨hhist, hlast⟩ := balanced_unused hoff hold hb
    refine ⟨hoff, ?_, ?_, Nat.zero_le _, le_rfl⟩
    · unfold Proc.Balanced
      rw [hoff]
      exact ⟨ProcState.noConfusion, rfl, hlast⟩
    · rw [hf.total, hhist]
  | start p =>
    simp only [step] at hs
    apply h.assign hs
    intro x hoff hst hb hf
    have hold : x.state = .used := of_decide_eq_true hst
    exact ⟨hoff, balanced_state hoff hb (by decide) (by rw [hold]; decide) (by decide),
      hf.total, hf.elapsed, hf.within⟩
  | freeproc p =>
    simp only [step] at hs
    apply h.assign hs
    intro x hoff hst hb hf
    refine ⟨hoff, ?_, int32_zero.symm, Nat.zero_le _, le_rfl⟩
    unfold Proc.Balanced
    rw [hoff]
    exact ⟨ProcState.noConfusion, rfl, rfl⟩

theorem Reachable.inv (h : Reachable s) : Inv s := by
  induction h with
  | boot => exact inv_boot
  | step e _ hs ih => exact inv_step ih hs

/-! ## The time of a process that resumes -/

theorem int32_le {e : ℤ} (h : 0 ≤ e) : int32 e ≤ e := by
  unfold int32
  rw [Int.bmod_def]
  split_ifs <;> omega

theorem int32_eq {e : ℤ} (h : 0 ≤ e) (hlt : e < 2 ^ 31) : int32 e = e := by
  unfold int32
  rw [Int.bmod_def]
  split_ifs <;> omega

/-- The ticks that the sum has too much are not more than those it leaves out. -/
def History.WaitedLess (h : History) : Prop := h.waiting + h.resumes ≤ h.lead + h.late

/-- **When a process resumes in `sched`**, its `totalTime` is at most the time it was running if,
and while the sums are in the range of an `int` only if, it waited less than the sum leaves out. -/
theorem totalTime_le_running_iff (h : Reachable s) {p : Fin N} {c : C}
    (hp : (s.proc p).place = .resumed c) :
    ((s.proc p).history.WaitedLess → (s.proc p).totalTime ≤ (s.proc p).history.running)
      ∧ (s.ticks < 2 ^ 30 → ((s.proc p).totalTime ≤ (s.proc p).history.running
        ↔ (s.proc p).history.WaitedLess)) := by
  obtain ⟨htotal, helapsed, hwithin⟩ := h.inv.fair p
  have hb := h.inv.balanced p
  unfold Proc.Balanced at hb
  rw [hp] at hb
  have hsum := hb.2.2.2
  rw [htotal]
  unfold History.WaitedLess
  constructor
  · intro hless
    have := int32_le (Int.natCast_nonneg (s.proc p).history.exact)
    omega
  · intro hticks
    rw [int32_eq (Int.natCast_nonneg _) (by omega)]
    omega

/-- Run a list of events. -/
def run (s : State N C) : List (Event N C) → Option (State N C)
  | [] => some s
  | e :: es => (step s e).bind fun s' => run s' es

theorem Reachable.run (h : Reachable s) {es : List (Event N C)} (hr : run s es = some s') :
    Reachable s' := by
  induction es generalizing s with
  | nil => exact Option.some.inj hr ▸ h
  | cons e es ih =>
    obtain ⟨s₁, hs, hr⟩ := Option.bind_eq_some_iff.mp hr
    exact ih (h.step e hs) hr

/-- The first slice of the process 0 on the processor 0, which ends with `a`. -/
def firstSlice (a : Act) : List (Event 64 (Fin 8)) :=
  [.allocproc 0, .start 0, .scan 0, .act 0 .stamp, .act 0 .swtch, .act 0 .release, .act 0 a,
    .act 0 .store, .act 0 .drop]

/-- The process 0 is chosen again and resumes. -/
def nextSlice : List (Event 64 (Fin 8)) :=
  List.replicate 64 (.scan 0) ++ [.act 0 .stamp, .act 0 .swtch, .act 0 .read, .act 0 .count]

/-- A process that yields and is chosen again before the next tick. -/
theorem totalTime_le_running_yield : ∃ s : State 64 (Fin 8), Reachable s
    ∧ (s.proc 0).place = .resumed 0 ∧ (s.proc 0).totalTime ≤ (s.proc 0).history.running := by
  have hrun : ((run boot (firstSlice .yield ++ nextSlice)).any fun s =>
      decide ((s.proc 0).place = .resumed 0 ∧ (s.proc 0).history = {})) = true := by
    decide +kernel
  cases hs : run boot (firstSlice .yield ++ nextSlice) with
  | none =>
    rw [hs] at hrun
    cases hrun
  | some s =>
    rw [hs] at hrun
    obtain ⟨hp, hh⟩ := of_decide_eq_true hrun
    have hreach := Reachable.boot.run hs
    refine ⟨s, hreach, hp, (totalTime_le_running_iff hreach hp).1 ?_⟩
    rw [hh]
    exact le_rfl

/-- A process that sleeps for five ticks has five ticks more of work time. -/
theorem totalTime_counts_sleep : ∃ s : State 64 (Fin 8), Reachable s
    ∧ (s.proc 0).place = .resumed 0 ∧ (s.proc 0).totalTime = 5
    ∧ (s.proc 0).history.running = 0 := by
  have hrun : ((run boot (firstSlice .sleep ++ List.replicate 5 .tick ++ [.wakeup 0]
      ++ nextSlice)).any fun s => decide ((s.proc 0).place = .resumed 0
        ∧ (s.proc 0).totalTime = 5 ∧ (s.proc 0).history.running = 0)) = true := by
    decide +kernel
  cases hs : run boot (firstSlice .sleep ++ List.replicate 5 .tick ++ [.wakeup 0] ++ nextSlice) with
  | none =>
    rw [hs] at hrun
    cases hrun
  | some s =>
    rw [hs] at hrun
    exact ⟨s, Reachable.boot.run hs, of_decide_eq_true hrun⟩

end Xv6.Work
