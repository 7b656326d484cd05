/-
# No parent sleeps over a dead child: whole runs

Every step keeps the invariant (`WaitInv.act`), so every interleaving does, and in each state in
which `wait_lock` is free nobody sleeps in `wait` over a zombie (`no_sleep_over_zombie`), as long
as `reparent` wakes the process to which it hands one.  It does not always: `lost_child` is a
run in which a process of a namespace gets a zombie from `reparent` and sleeps on.
-/
import Xv6.WaitSteps

namespace Xv6

open Function

variable {t t' : Threads} {p : ℕ}

/-! ## All steps -/

theorem WaitInv.call (h : WaitInv t) {c : Call} (hready : Ready t (.call p c))
    (hcall : startCall t p c = .ok t') : WaitInv t' := by
  obtain ⟨hp, hrun, huser⟩ := hready
  -- `fork` and `clone` differ in what they do to the nodes only
  have htakes : ∀ {r : Option ℕ} {k : Kernel} {supply : List ℕ},
      TakesSlot (t.kernel.refill supply) r k → TakesSlot t.kernel r k := fun hk =>
    ⟨hk.initproc, hk.inUse, hk.unused, hk.child⟩
  cases c with
  | fork supply =>
    obtain ⟨⟨r, k⟩, halloc, hcall⟩ := bind_eq_ok_iff.mp hcall
    have hk := htakes (forkAlloc_takesSlot halloc)
    cases r with
    | none =>
      cases hcall
      exact h.forkFails hk
    | some np =>
      cases hcall
      exact h.forkStarts hp hrun huser hk
  | clone supply =>
    obtain ⟨⟨r, k⟩, halloc, hcall⟩ := bind_eq_ok_iff.mp hcall
    have hk := htakes (cloneAlloc_takesSlot halloc)
    cases r with
    | none =>
      cases hcall
      exact h.forkFails hk
    | some np =>
      cases hcall
      exact h.forkStarts hp hrun huser hk
  | exit status =>
    unfold startCall at hcall
    split_ifs at hcall
    obtain ⟨k, hclose, hcall⟩ := bind_eq_ok_iff.mp hcall
    cases hcall
    exact h.exitStarts hp hrun huser (closeOpen_sameSlots hclose)
  | wait copyFails =>
    cases hcall
    apply h.offLock (by rw [huser]; rfl) rfl
    · apply h.pcs.run hp hrun (fun _ => rfl) rfl _ (Or.inl rfl)
      exact h.pcs.lockStep (by rw [huser]; rfl)
    · exact Calm.goto fun b hb => by cases hb
    · rfl
    · exact fun _ _ => rfl

theorem WaitInv.piece (h : WaitInv t) (hready : Ready t (.run p)) (hok : NoLostChild t (.run p))
    (hpiece : runPiece t p = .ok t') : WaitInv t' := by
  obtain ⟨hp, hst, hun⟩ := hready
  have hallowed := h.pcs.allowed p
  have hrun : t.pc p ≠ .dead → t.pc p ≠ .gone → (t.kernel.proc p).state = .running := by
    intro hd hg
    rcases hst with hrun | hdead | hgone
    · exact hrun
    · exact absurd hdead hd
    · exact absurd hgone hg
  have hlock : (t.pc p).holdsWait = true → t.waitLock = some p := (h.pcs.lock p).mp
  unfold runPiece at hpiece
  cases hc : t.pc p with
  | user =>
    rw [hc] at hun
    exact hun.elim
  | stopped =>
    rw [hc] at hun
    exact hun.elim
  | forked np =>
    rw [hc] at hpiece hrun
    cases hpiece
    exact h.forked hp (hrun (by simp) (by simp)) hc
  | linked np =>
    rw [hc] at hpiece hrun
    cases hpiece
    exact h.linked hp (hrun (by simp) (by simp)) hc
  | exiting st =>
    rw [hc] at hpiece hrun hun
    cases hpiece
    exact h.acquire hp (hrun (by simp) (by simp)) hun rfl
  | leaving st =>
    rw [hc] at hpiece hrun hlock
    obtain ⟨k, hk, hpiece⟩ := bind_eq_ok_iff.mp hpiece
    cases hpiece
    apply h.beforeHanding hp (hrun (by simp) (by simp)) (hlock rfl) _ (leaveNamespaces_sameSlots hk) rfl
    rw [hc]
    exact fun q hq => hq
  | choosing st =>
    rw [hc] at hpiece hrun hlock
    obtain ⟨⟨newInit, k⟩, hk, hpiece⟩ := bind_eq_ok_iff.mp hpiece
    cases hpiece
    apply h.beforeHanding hp (hrun (by simp) (by simp)) (hlock rfl) _ (chooseInit_sameSlots hk) rfl
    rw [hc]
    exact fun q hq => hq
  | handing st newInit pp =>
    rw [hc] at hpiece hrun hlock
    have hrun := hrun (by simp) (by simp)
    simp only at hpiece
    split_ifs at hpiece with hpp hchild
    · cases hpiece
      exact h.hand hp hrun (hlock rfl) hc hchild (hok st newInit pp hc hpp)
    · cases hpiece
      exact h.notChild hp hrun (hlock rfl) hc
    · cases hpiece
      exact h.handed hp hrun (hlock rfl) hc
  | wakingInit st newInit pp i =>
    rw [hc] at hpiece hrun hlock hun
    have hrun := hrun (by simp) (by simp)
    simp only at hpiece
    split_ifs at hpiece with hi
    · cases hpiece
      exact h.wakingInit hp hrun (hlock rfl) hc hun
    · cases hpiece
      exact h.wokenInit hp hrun (hlock rfl) hc hi
  | wakingParent st chan i =>
    rw [hc] at hpiece hrun hlock hun
    have hrun := hrun (by simp) (by simp)
    simp only at hpiece
    split_ifs at hpiece with hi
    · cases hpiece
      exact h.wakingParent hp hrun (hlock rfl) hc hun
    · cases hpiece
      exact h.wokenParent hp hrun (hlock rfl) hc hi
  | dying st =>
    rw [hc] at hpiece hrun hlock
    cases hpiece
    exact h.dying hp (hrun (by simp) (by simp)) (hlock rfl) hc
  | dead =>
    rw [hc] at hpiece hlock hallowed
    cases hpiece
    have hz : (t.kernel.proc p).state = .zombie := by
      cases hs : (t.kernel.proc p).state <;> rw [hs] at hallowed <;> first | rfl | cases hallowed
    apply h.unlock (hlock rfl)
    · rw [hc]
      exact fun q hq => hq
    · apply h.pcs.drop hp (hlock rfl)
      · rw [hz]
        decide
      · rw [hz]
        rfl
      · rfl
      · rfl
    · exact Calm.goto fun b hb => by cases hb
    · rfl
  | gone =>
    rw [hc] at hpiece hallowed
    cases hpiece
    have hz : (t.kernel.proc p).state = .zombie := by
      cases hs : (t.kernel.proc p).state <;> rw [hs] at hallowed <;> first | rfl | cases hallowed
    apply h.offLock (by rw [hc]; rfl) rfl
    · apply h.pcs.move hp (fun _ _ => rfl)
      · rw [hz]
        decide
      · rw [hz]
        rfl
      · exact h.pcs.lockStep (by rw [hc]; rfl)
      · exact Or.inl rfl
    · exact Calm.goto fun b hb => by cases hb
    · rfl
    · exact fun _ _ => rfl
  | waiting b =>
    rw [hc] at hpiece hrun hun
    cases hpiece
    exact h.acquire hp (hrun (by simp) (by simp)) hun rfl
  | scanning b pp havekids =>
    rw [hc] at hpiece hrun hlock hun
    have hrun := hrun (by simp) (by simp)
    have hdone : ∀ q, ¬ WakesAt t p q (t.pc p) := by
      rw [hc]
      exact fun q hq => hq
    have hscanned : ∀ z, z < pp → ¬ ZombieOf t z p := fun z hz =>
      h.wakes.scanned p z (by rw [hc]; exact hz)
    have hchan : ∀ (b havekids : Bool) pp st ch i, Pc.scanning b pp havekids ≠ .wakingParent st ch i :=
      fun b havekids pp st ch i hst => by cases hst
    simp only at hpiece
    split_ifs at hpiece with hpp hchild hzombie hb
    · cases hpiece
      exact h.returns hp hrun (hlock rfl) hdone
    · obtain ⟨k, hk, hpiece⟩ := bind_eq_ok_iff.mp hpiece
      cases hpiece
      exact h.reap hp hrun (hlock rfl) hdone hzombie (hun hchild) hk
    · cases hpiece
      apply h.scan hp hrun (hlock rfl) hdone rfl rfl (hchan _ _ _) (fun q hq => hq)
      intro z hz hzp
      rcases Nat.eq_or_lt_of_le (Nat.le_of_lt_succ hz) with rfl | hlt
      · exact hzombie hzp.1
      · exact hscanned z hlt hzp
    · cases hpiece
      apply h.scan hp hrun (hlock rfl) hdone rfl rfl (hchan _ _ _) (fun q hq => hq)
      intro z hz hzp
      rcases Nat.eq_or_lt_of_le (Nat.le_of_lt_succ hz) with rfl | hlt
      · exact hchild hzp.2
      · exact hscanned z hlt hzp
    · cases hpiece
      apply h.scan (c := .deciding b havekids) hp hrun (hlock rfl) hdone rfl rfl
        (fun st ch i hst => by cases hst) (fun q hq => hq)
      intro z _ hzp
      have hz : z < nproc := by
        by_contra hz
        have hu := (h.pcs.range z (not_lt.mp hz)).1
        rw [hzp.1] at hu
        cases hu
      exact hscanned z (lt_of_lt_of_le hz (not_lt.mp hpp)) hzp
  | deciding b havekids =>
    rw [hc] at hpiece hrun hlock
    have hrun := hrun (by simp) (by simp)
    have hdone : ∀ q, ¬ WakesAt t p q (t.pc p) := by
      rw [hc]
      exact fun q hq => hq
    simp only at hpiece
    split_ifs at hpiece with hif
    · cases hpiece
      exact h.returns hp hrun (hlock rfl) hdone
    · cases hpiece
      apply h.scan (c := .sleeping b) hp hrun (hlock rfl) hdone rfl rfl
        (fun st ch i hst => by cases hst) (fun q hq => hq)
      exact fun z _ => h.wakes.scanned p z (by rw [hc]; exact trivial)
  | sleeping b =>
    rw [hc] at hpiece hrun hlock
    cases hpiece
    exact h.commit hp (hrun (by simp) (by simp)) (hlock rfl) hc
  | committed b =>
    rw [hc] at hpiece hrun
    cases hpiece
    exact h.fallAsleep hp (hrun (by simp) (by simp)) hc
  | asleep b =>
    rw [hc] at hpiece hrun
    cases hpiece
    exact h.wakeUp hp (hrun (by simp) (by simp)) hc

/-- The scheduler gives the processor to `p`, or takes it away. -/
theorem WaitInv.schedule (h : WaitInv t) {s : ProcState} (hp : p < nproc)
    (hused : (t.kernel.proc p).state ≠ .used) (hc : (t.pc p).allows s = true)
    (hs : s ≠ .sleeping ∧ s ≠ .zombie) :
    WaitInv { t with kernel := t.kernel.updProc p fun q => { q with state := s } } := by
  have hcases := updProc_cases t.kernel p (fun x => { x with state := s })
  refine ⟨h.pcs.setState fun q => ?_, h.wakes.quiet h.pcs (Calm.of_slots (fun q => ?_) fun _ _ hb => hb)
    rfl rfl (fun q _ => ⟨rfl, ?_⟩) fun _ hq => hq⟩
  · rcases hcases q with ⟨rfl, hq⟩ | ⟨-, hq⟩ <;> rw [hq]
    · exact Or.inr ⟨hp, hc, h.pcs.child_ne hused⟩
    · exact Or.inl rfl
  · rcases hcases q with ⟨rfl, hq⟩ | ⟨-, hq⟩
    · exact Or.inr (by rw [hq]; exact hs)
    · exact Or.inl (by rw [hq]; exact ⟨rfl, rfl, rfl⟩)
  · rcases hcases q with ⟨rfl, hq⟩ | ⟨-, hq⟩ <;> rw [hq]

theorem WaitInv.killed (h : WaitInv t) (pid : ℤ) :
    WaitInv { t with kernel := (kill t.kernel pid).2 } := by
  cases htarget : killTarget t.kernel pid with
  | none =>
    unfold kill
    rw [htarget]
    exact h
  | some i =>
    unfold kill
    rw [htarget]
    set f : Proc → Proc := fun x =>
      { x with killed := true, state := if x.state = .sleeping then .runnable else x.state } with hf
    show WaitInv { t with kernel := t.kernel.updProc i f }
    have hstate : ∀ q, ((t.kernel.updProc i f).proc q).chan = (t.kernel.proc q).chan
        ∧ ((t.kernel.updProc i f).proc q).parent = (t.kernel.proc q).parent
        ∧ (((t.kernel.updProc i f).proc q).state = (t.kernel.proc q).state
          ∨ ((t.kernel.proc q).state = .sleeping ∧ ((t.kernel.updProc i f).proc q).state = .runnable)) := by
      intro q
      rcases updProc_cases t.kernel i f q with ⟨rfl, hq⟩ | ⟨-, hq⟩
      · rw [hq]
        refine ⟨rfl, rfl, ?_⟩
        by_cases hs : (t.kernel.proc q).state = .sleeping
        · exact Or.inr ⟨hs, if_pos hs⟩
        · exact Or.inl (if_neg hs)
      · rw [hq]
        exact ⟨rfl, rfl, Or.inl rfl⟩
    refine ⟨h.pcs.wake fun q => (hstate q).2.2, h.wakes.quiet h.pcs
      (Calm.of_slots (fun q => ?_) fun _ _ hb => hb) rfl rfl (fun q _ => ⟨rfl, (hstate q).2.1⟩)
      fun _ hq => hq⟩
    · obtain ⟨hchan, hpar, hs | ⟨-, hs⟩⟩ := hstate q
      · exact Or.inl ⟨hs, hchan, hpar⟩
      · right
        show ((t.kernel.updProc i f).proc q).state ≠ _ ∧ ((t.kernel.updProc i f).proc q).state ≠ _
        rw [hs]
        decide

theorem WaitInv.act {a : Act} (h : WaitInv t) (hready : Ready t a) (hok : NoLostChild t a)
    (hact : act t a = .ok t') : WaitInv t' := by
  cases a with
  | call p c => exact h.call hready hact
  | run p => exact h.piece hready hok hact
  | dispatch p =>
    cases hact
    obtain ⟨hp, hs, -⟩ := hready
    have hallowed := h.pcs.allowed p
    rw [hs] at hallowed
    apply h.schedule hp _ (Pc.allows_running hallowed) (by decide)
    rw [hs]
    decide
  | yield p =>
    cases hact
    obtain ⟨hp, hs, hint⟩ := hready
    apply h.schedule hp _ (Pc.allows_of_interruptible hint) (by decide)
    rw [hs]
    decide
  | kill pid =>
    cases hact
    exact h.killed pid

theorem WaitInv.start {k : Kernel} (h : Started k) : WaitInv ⟨k, fun _ => .user, none⟩ := by
  obtain ⟨tf, pt, hproc, -⟩ := started_spec h
  have hslot : ∀ q, (k.proc q).state = .unused ∨ ((k.proc q).state = .runnable ∧ q = 0) := by
    intro q
    rw [hproc]
    by_cases hq : q = 0
    · subst hq
      rw [update_self]
      exact Or.inr ⟨rfl, rfl⟩
    · rw [update_of_ne hq]
      exact Or.inl rfl
  have hpcs : PcInv ⟨k, fun _ => .user, none⟩ := by
    refine ⟨fun p => ?_, fun q => ?_, fun q hq => ?_, fun p np hnp => ?_, fun p p' np hnp => ?_⟩
    · constructor <;> intro hx <;> cases hx
    · show Pc.user.allows (k.proc q).state = true
      rcases hslot q with hs | ⟨hs, -⟩ <;> rw [hs] <;> rfl
    · rcases hslot q with hs | ⟨-, rfl⟩
      · exact ⟨hs, rfl⟩
      · exact absurd hq (by decide)
    · cases hnp
    · cases hnp
  refine ⟨hpcs, WakeInv.of_free hpcs rfl ?_⟩
  rintro q ⟨-, z, hz, -⟩
  change (k.proc z).state = .zombie at hz
  rcases hslot z with hs | ⟨hs, -⟩ <;> rw [hs] at hz <;> cases hz

theorem Interleaved.waitInv (h : Interleaved NoLostChild t) : WaitInv t := by
  induction h with
  | start hk => exact WaitInv.start hk
  | step _ hready hok hact ih => exact ih.act hready hok hact

/-- In every interleaving in which `reparent` hands no zombie to a sleeping process that it does not
wake, nobody sleeps in `wait` over a dead child once `wait_lock` is free. -/
theorem no_sleep_over_zombie {t : Threads} (h : Interleaved NoLostChild t) (hl : t.waitLock = none)
    {q z : ℕ} (hz : (t.kernel.proc z).state = .zombie) (hpar : (t.kernel.proc z).parent = some q) :
    ¬ ((t.kernel.proc q).state = .sleeping ∧ (t.kernel.proc q).chan = some q) := by
  intro hs
  exact h.waitInv.wakes.not_misses hl q ⟨Or.inl hs, z, hz, hpar⟩

/-! ## Two runs -/

/-- Take steps one after the other, as long as each is ready, passes the test and returns. -/
def runActs (test : Threads → Act → Bool) : List Act → Threads → Option Threads
  | [], t => some t
  | a :: l, t =>
    if Ready t a ∧ test t a = true then
      match act t a with
      | .ok t' => runActs test l t'
      | .error _ => none
    else none

theorem Interleaved.of_runActs {ok : Threads → Act → Prop} {test : Threads → Act → Bool}
    (htest : ∀ t a, test t a = true → ok t a) {l : List Act} (h : Interleaved ok t)
    (hrun : runActs test l t = some t') : Interleaved ok t' := by
  induction l generalizing t with
  | nil =>
    cases hrun
    exact h
  | cons a l ih =>
    rw [runActs] at hrun
    split_ifs at hrun with hready
    split at hrun
    · next t₁ hact => exact ih (h.step hready.1 (htest t a hready.2) hact) hrun
    · cases hrun

/-- A start of the system, with all processes outside of calls. -/
def bootThreads : Option Threads := bootRun.map fun x => ⟨x.2, fun _ => .user, none⟩

theorem interleaved_of_run {ok : Threads → Act → Prop} (test : Threads → Act → Bool)
    (htest : ∀ t a, test t a = true → ok t a) (l : List Act) (check : Threads → Bool)
    (h : (bootThreads.bind (runActs test l)).any check = true) :
    ∃ t, Interleaved ok t ∧ check t = true := by
  obtain ⟨t, ht, hcheck⟩ := (Option.any_eq_true _ _).mp h
  obtain ⟨t₀, hboot, hrun⟩ := Option.bind_eq_some_iff.mp ht
  obtain ⟨x, hx, rfl⟩ := Option.map_eq_some_iff.mp hboot
  exact ⟨t, Interleaved.of_runActs htest (Interleaved.start (bootRun_started hx).2) hrun, hcheck⟩

/-- A call of `p` and its next `n` pieces. -/
def callPieces (p : ℕ) (c : Call) (n : ℕ) : List Act := .call p c :: List.replicate n (.run p)

/-- `reparent` does not hand over a child in this step. -/
def handsNone (t : Threads) : Act → Bool
  | .run p =>
    match t.pc p with
    | .handing _ _ pp => (t.kernel.proc pp).parent ≠ some p
    | _ => true
  | _ => true

theorem noLostChild_of_handsNone (t : Threads) (a : Act) (h : handsNone t a = true) : NoLostChild t a := by
  cases a with
  | run p =>
    intro st newInit pp hpc _ hz
    simp only [handsNone, hpc] at h
    exact absurd hz.2 (of_decide_eq_true h)
  | _ => exact trivial

/-- A parent that was asleep in `wait` when its child exited is awake. -/
theorem no_sleep_over_zombie_waiting : ∃ t, Interleaved NoLostChild t ∧ t.waitLock = none
    ∧ (t.kernel.proc 1).state = .zombie ∧ (t.kernel.proc 1).parent = some 0
    ∧ ¬ ((t.kernel.proc 0).state = .sleeping ∧ (t.kernel.proc 0).chan = some 0) := by
  obtain ⟨t, hreach, hcheck⟩ := interleaved_of_run handsNone noLostChild_of_handsNone
    (List.flatten [[.dispatch 0], callPieces 0 (.fork (tenPages 1)) 2, callPieces 0 (.wait false) 69,
      [.dispatch 1], callPieces 1 (.exit 7) 136])
    (fun t => decide (t.waitLock = none ∧ (t.kernel.proc 1).state = .zombie
      ∧ (t.kernel.proc 1).parent = some 0)) (by decide +kernel)
  obtain ⟨hl, hz, hpar⟩ := of_decide_eq_true hcheck
  exact ⟨t, hreach, hl, hz, hpar, no_sleep_over_zombie hreach hl hz hpar⟩

/-- The process `1` is the first of a namespace, with a child `2`; `2` has a child `3`, and `3` a child
`4`.  `4` exits, `1` goes to sleep in `wait`, and `3` exits: `reparent` hands the zombie `4` to `1` and
wakes `initproc`.  So `1` sleeps over a dead child. -/
theorem lost_child : ∃ t, Interleaved (fun _ _ => True) t ∧ t.waitLock = none
    ∧ (t.kernel.proc 4).state = .zombie ∧ (t.kernel.proc 4).parent = some 1
    ∧ (t.kernel.proc 1).state = .sleeping ∧ (t.kernel.proc 1).chan = some 1 := by
  obtain ⟨t, hreach, hcheck⟩ := interleaved_of_run (fun _ _ => true) (fun _ _ _ => trivial)
    (List.flatten [[.dispatch 0], callPieces 0 (.clone (tenPages 1)) 2,
      [.dispatch 1], callPieces 1 (.fork (tenPages 2)) 2, [.dispatch 2], callPieces 2 (.fork (tenPages 3)) 2,
      [.dispatch 3], callPieces 3 (.fork (tenPages 4)) 2, [.dispatch 4], callPieces 4 (.exit 0) 136,
      callPieces 1 (.wait false) 69, callPieces 3 (.exit 0) 201])
    (fun t => decide (t.waitLock = none ∧ (t.kernel.proc 4).state = .zombie
      ∧ (t.kernel.proc 4).parent = some 1 ∧ (t.kernel.proc 1).state = .sleeping
      ∧ (t.kernel.proc 1).chan = some 1)) (by decide +kernel)
  exact ⟨t, hreach, of_decide_eq_true hcheck⟩

end Xv6
