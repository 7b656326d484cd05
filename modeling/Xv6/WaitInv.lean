/-
# No parent sleeps over a dead child

`wait_lock` is there so that a parent that goes to sleep in `wait` does not miss the exit of
a child.  `PcInv` says how the places of the processes, their states and the holder of the
lock fit together.  `WakeInv` is the point: whenever a process that sleeps in `wait` has a zombie
child, the holder of `wait_lock` is an exiting process that will still wake it up.  The
pieces are looked at in `WaitSteps`, whole runs in `WaitRuns`.
-/
import Xv6.WaitModel

namespace Xv6

open Function

variable {k k' s t : Kernel} {r : Option ℕ} {c : Pc} {t' : Threads} {i np p q : ℕ}

/-! ## What the pieces change -/

/-- Every slot has the same state, channel and parent. -/
structure SameSlots (k k' : Kernel) : Prop where
  initproc : k'.initproc = k.initproc
  slot : ∀ q, (k'.proc q).state = (k.proc q).state ∧ (k'.proc q).chan = (k.proc q).chan
    ∧ (k'.proc q).parent = (k.proc q).parent

theorem SameSlots.refl (k : Kernel) : SameSlots k k := ⟨rfl, fun _ => ⟨rfl, rfl, rfl⟩⟩

theorem SameSlots.trans {k'' : Kernel} (h : SameSlots k k') (h' : SameSlots k' k'') :
    SameSlots k k'' := by
  refine ⟨h'.initproc.trans h.initproc, fun q => ?_⟩
  obtain ⟨hs, hc, hp⟩ := h.slot q
  obtain ⟨hs', hc', hp'⟩ := h'.slot q
  exact ⟨hs'.trans hs, hc'.trans hc, hp'.trans hp⟩

theorem SameSlots.of_proc (hinit : k'.initproc = k.initproc) (h : k'.proc = k.proc) :
    SameSlots k k' := by
  refine ⟨hinit, fun q => ?_⟩
  rw [h]
  exact ⟨rfl, rfl, rfl⟩

/-- A change of a slot that leaves the three fields alone. -/
theorem SameSlots.updProc (k : Kernel) (i : ℕ) {f : Proc → Proc}
    (hf : ∀ x, (f x).state = x.state ∧ (f x).chan = x.chan ∧ (f x).parent = x.parent) :
    SameSlots k (k.updProc i f) := by
  refine ⟨rfl, fun q => ?_⟩
  by_cases hq : q = i
  · subst hq
    rw [show (k.updProc q f).proc q = f (k.proc q) from update_self _ _ _]
    exact hf _
  · rw [show (k.updProc i f).proc q = k.proc q from update_of_ne hq _ _]
    exact ⟨rfl, rfl, rfl⟩

theorem fileclose_sameSlots {f : ℕ} (h : fileclose s f = .ok t) : SameSlots s t := by
  unfold fileclose at h
  split_ifs at h
  · cases h
    exact SameSlots.of_proc rfl rfl
  · simp only at h
    split at h
    · cases h
      exact SameSlots.of_proc rfl rfl
    · cases h
      exact SameSlots.of_proc rfl rfl

theorem closeOpen_sameSlots (h : closeOpen s p = .ok t) : SameSlots s t := by
  unfold closeOpen at h
  obtain ⟨u, hloop, h⟩ := bind_eq_ok_iff.mp h
  obtain ⟨ip, -, h⟩ := bind_eq_ok_iff.mp h
  have hu : SameSlots s u := by
    refine foldlM_ok_induction (P := fun x => SameSlots s x) ?_ hloop (SameSlots.refl s)
    intro a fd a' hstep ha
    unfold closeFile at hstep
    split at hstep
    · cases hstep
      exact ha
    · obtain ⟨b, hclose, hstep⟩ := bind_eq_ok_iff.mp hstep
      cases hstep
      refine (ha.trans (fileclose_sameSlots hclose)).trans ?_
      exact SameSlots.updProc b p (fun _ => ⟨rfl, rfl, rfl⟩)
  cases h
  have hiput : SameSlots u (iput u ip) := SameSlots.of_proc rfl rfl
  exact (hu.trans hiput).trans (SameSlots.updProc _ p (fun _ => ⟨rfl, rfl, rfl⟩))

theorem leaveNamespaces_sameSlots (h : leaveNamespaces s p = .ok t) : SameSlots s t := by
  unfold leaveNamespaces at h
  obtain ⟨n, -, h⟩ := bind_eq_ok_iff.mp h
  obtain ⟨nodes, -, h⟩ := bind_eq_ok_iff.mp h
  obtain ⟨used, -, h⟩ := bind_eq_ok_iff.mp h
  cases h
  exact SameSlots.of_proc rfl rfl

theorem chooseInit_sameSlots (h : chooseInit s p = .ok (r, t)) : SameSlots s t := by
  unfold chooseInit at h
  obtain ⟨n, -, h⟩ := bind_eq_ok_iff.mp h
  obtain ⟨newInit, -, h⟩ := bind_eq_ok_iff.mp h
  cases h
  exact SameSlots.of_proc rfl rfl

/-- Nothing but the slot `i` changes in the process table. -/
structure OnlySlot (i : ℕ) (k k' : Kernel) : Prop where
  initproc : k'.initproc = k.initproc
  other : ∀ q, q ≠ i → k'.proc q = k.proc q

theorem OnlySlot.refl (i : ℕ) (k : Kernel) : OnlySlot i k k := ⟨rfl, fun _ _ => rfl⟩

theorem OnlySlot.trans {k'' : Kernel} (h : OnlySlot i k k') (h' : OnlySlot i k' k'') :
    OnlySlot i k k'' :=
  ⟨h'.initproc.trans h.initproc, fun q hq => (h'.other q hq).trans (h.other q hq)⟩

/-- A change of the slot, and of what is not in the process table. -/
theorem OnlySlot.updProc {k₀ : Kernel} (i : ℕ) (f : Proc → Proc) (hinit : k₀.initproc = k.initproc)
    (hproc : k₀.proc = k.proc) : OnlySlot i k (k₀.updProc i f) := by
  refine ⟨hinit, fun q hq => ?_⟩
  rw [← hproc]
  exact update_of_ne hq _ _

theorem OnlySlot.of_updProc {k₀ v : Kernel} {f : Proc → Proc} (h : OnlySlot i (k₀.updProc i f) v)
    (hinit : k₀.initproc = k.initproc) (hproc : k₀.proc = k.proc) : OnlySlot i k v :=
  (OnlySlot.updProc i f hinit hproc).trans h

theorem OnlySlot.of_proc (i : ℕ) (hinit : k'.initproc = k.initproc) (h : k'.proc = k.proc) :
    OnlySlot i k k' :=
  ⟨hinit, fun q _ => by rw [h]⟩

theorem freeproc_onlySlot (h : freeproc s i = .ok t) :
    OnlySlot i s t ∧ t.proc i = (s.proc i).cleared := by
  unfold freeproc at h
  obtain ⟨m₁, -, h⟩ := bind_eq_ok_iff.mp h
  obtain ⟨m₂, -, h⟩ := bind_eq_ok_iff.mp h
  cases h
  exact ⟨OnlySlot.updProc i _ rfl rfl, update_self _ _ _⟩

/-- The state of the slot after `allocproc` has found it. -/
theorem allocprocFound_onlySlot (h : allocprocFound s i = .ok (r, t)) :
    OnlySlot i s t ∧ ((r = none ∧ (t.proc i).state = .unused) ∨ (r = some i ∧ (t.proc i).state = .used)) := by
  unfold allocprocFound allocpid at h
  simp only at h
  set u := Kernel.updProc { s with nextpid := int32 (s.nextpid + 1) } i
    (fun p => { p with pid := s.nextpid, state := .used }) with hu
  have hsu : OnlySlot i s u := OnlySlot.updProc i _ rfl rfl
  have hui : (u.proc i).state = .used := by
    rw [hu]
    show (update s.proc i _ i).state = _
    rw [update_self]
  -- whatever follows changes the memory and this slot
  have hmem : ∀ (v : Kernel) (m : PagePool) (f : Proc → Proc), OnlySlot i s v →
      OnlySlot i s (Kernel.updProc { v with mem := m } i f) := fun v m f hv =>
    hv.trans (OnlySlot.updProc i f rfl rfl)
  cases hk : kalloc u.mem with
  | mk tf m₁ =>
    rw [hk] at h
    cases tf with
    | none =>
      obtain ⟨v, hfree, h⟩ := bind_eq_ok_iff.mp h
      cases h
      obtain ⟨hv, hvi⟩ := freeproc_onlySlot hfree
      refine ⟨(hmem u m₁ _ hsu).trans hv, Or.inl ⟨rfl, ?_⟩⟩
      rw [hvi]
      rfl
    | some tf =>
      obtain ⟨⟨pt, m₂⟩, -, h⟩ := bind_eq_ok_iff.mp h
      have hw := hmem u m₁ (fun p => { p with trapframe := some tf }) hsu
      cases pt with
      | none =>
        obtain ⟨v, hfree, h⟩ := bind_eq_ok_iff.mp h
        cases h
        obtain ⟨hv, hvi⟩ := freeproc_onlySlot hfree
        refine ⟨(hmem _ m₂ _ hw).trans hv, Or.inl ⟨rfl, ?_⟩⟩
        rw [hvi]
        rfl
      | some pt =>
        cases h
        refine ⟨hmem _ m₂ _ hw, Or.inr ⟨rfl, ?_⟩⟩
        simp only [Kernel.updProc, update_self]
        exact hui

/-- What setting up a child changes: nothing but a slot that was unused, and it is in use
exactly if there is a child. -/
structure TakesSlot (k : Kernel) (r : Option ℕ) (k' : Kernel) : Prop where
  initproc : k'.initproc = k.initproc
  inUse : ∀ q, (k.proc q).state ≠ .unused → k'.proc q = k.proc q
  unused : ∀ q, (k.proc q).state = .unused → r ≠ some q → (k'.proc q).state = .unused
  child : ∀ np, r = some np → np < nproc ∧ (k.proc np).state = .unused ∧ (k'.proc np).state = .used

theorem TakesSlot.of_none (h : OnlySlot i k k') (hi : (k.proc i).state = .unused)
    (hi' : (k'.proc i).state = .unused) : TakesSlot k none k' := by
  refine ⟨h.initproc, fun q hq => h.other q ?_, fun q hq _ => ?_, fun np hnp => by cases hnp⟩
  · rintro rfl
    exact hq hi
  · by_cases hqi : q = i
    · rw [hqi]
      exact hi'
    · rw [h.other q hqi]
      exact hq

theorem TakesSlot.of_some (h : OnlySlot i k k') (hlt : i < nproc) (hi : (k.proc i).state = .unused)
    (hi' : (k'.proc i).state = .used) : TakesSlot k (some i) k' := by
  refine ⟨h.initproc, fun q hq => h.other q ?_, fun q hq hne => ?_, fun np hnp => ?_⟩
  · rintro rfl
    exact hq hi
  · rw [h.other q (fun heq => hne (congrArg some heq.symm))]
    exact hq
  · cases hnp
    exact ⟨hlt, hi, hi'⟩

/-- The slot keeps its state while the open files are copied. -/
theorem copyOpen_onlySlot (h : copyOpen s p np = .ok t) :
    OnlySlot np s t ∧ (t.proc np).state = (s.proc np).state := by
  unfold copyOpen at h
  obtain ⟨_, -, h⟩ := bind_eq_ok_iff.mp h
  obtain ⟨_, -, h⟩ := bind_eq_ok_iff.mp h
  obtain ⟨u, hloop, h⟩ := bind_eq_ok_iff.mp h
  obtain ⟨ip, -, h⟩ := bind_eq_ok_iff.mp h
  have hu : OnlySlot np s u ∧ (u.proc np).state = (s.proc np).state := by
    refine foldlM_ok_induction
      (P := fun x => OnlySlot np s x ∧ (x.proc np).state = (s.proc np).state) ?_ hloop
      ⟨OnlySlot.refl np s, rfl⟩
    rintro a fd a' hstep ⟨ha, hst⟩
    unfold dupFile at hstep
    split at hstep
    · cases hstep
      exact ⟨ha, hst⟩
    · next f _ =>
      obtain ⟨b, hdup, hstep⟩ := bind_eq_ok_iff.mp hstep
      cases hstep
      have hb : b.initproc = a.initproc ∧ b.proc = a.proc := by
        unfold filedup at hdup
        split_ifs at hdup
        cases hdup
        exact ⟨rfl, rfl⟩
      refine ⟨(ha.trans (OnlySlot.of_proc np hb.1 hb.2)).trans (OnlySlot.updProc np _ rfl rfl), ?_⟩
      show (update b.proc np _ np).state = _
      rw [update_self]
      show (b.proc np).state = _
      rw [hb.2, hst]
  cases h
  refine ⟨hu.1.trans (OnlySlot.updProc np _ rfl rfl), ?_⟩
  show (update u.proc np _ np).state = _
  rw [update_self]
  exact hu.2

theorem forkCopy_takesSlot (h : forkCopy s p = .ok (r, t)) : TakesSlot s r t := by
  unfold forkCopy at h
  obtain ⟨⟨slot, u⟩, halloc, h⟩ := bind_eq_ok_iff.mp h
  rcases allocproc_cases s with ⟨hnone, -⟩ | ⟨i, hi, hunused, hfound⟩
  · rw [hnone] at halloc
    cases halloc
    cases h
    exact ⟨rfl, fun _ _ => rfl, fun _ hq _ => hq, fun np hnp => by cases hnp⟩
  · rw [hfound] at halloc
    obtain ⟨honly, hcases⟩ := allocprocFound_onlySlot halloc
    rcases hcases with ⟨rfl, hst⟩ | ⟨rfl, hst⟩
    · cases h
      exact TakesSlot.of_none honly hunused hst
    · obtain ⟨old, -, h⟩ := bind_eq_ok_iff.mp h
      obtain ⟨new, -, h⟩ := bind_eq_ok_iff.mp h
      obtain ⟨⟨ok, new₁, m⟩, -, h⟩ := bind_eq_ok_iff.mp h
      cases ok with
      | false =>
        obtain ⟨v, hfree, h⟩ := bind_eq_ok_iff.mp h
        cases h
        obtain ⟨hv, hvi⟩ := freeproc_onlySlot hfree
        refine TakesSlot.of_none (honly.trans (hv.of_updProc rfl rfl))
          hunused ?_
        rw [hvi]
        rfl
      | true =>
        obtain ⟨v, hopen, h⟩ := bind_eq_ok_iff.mp h
        cases h
        obtain ⟨hv, hvi⟩ := copyOpen_onlySlot hopen
        refine TakesSlot.of_some (honly.trans (hv.of_updProc rfl rfl)) hi
          hunused ?_
        rw [hvi]
        show (update u.proc i _ i).state = _
        rw [update_self]
        exact hst

/-- Giving the child its node and its pids changes only its slot. -/
theorem TakesSlot.onlySlot {u : Kernel} (h : TakesSlot k (some np) u) (hut : OnlySlot np u t)
    (hst : (t.proc np).state = (u.proc np).state) : TakesSlot k (some np) t := by
  obtain ⟨hlt, hunused, hused⟩ := h.child np rfl
  refine ⟨hut.initproc.trans h.initproc, fun q hq => ?_, fun q hq hne => ?_, fun x hx => ?_⟩
  · have hqn : q ≠ np := by
      rintro rfl
      exact hq hunused
    rw [hut.other q hqn, h.inUse q hq]
  · rw [hut.other q (fun heq => hne (congrArg some heq.symm))]
    exact h.unused q hq hne
  · cases hx
    exact ⟨hlt, hunused, hst.trans hused⟩

theorem forkEnter_onlySlot (h : forkEnter s np = .ok t) :
    OnlySlot np s t ∧ (t.proc np).state = (s.proc np).state := by
  unfold forkEnter at h
  obtain ⟨n, -, h⟩ := bind_eq_ok_iff.mp h
  obtain ⟨⟨nodes, pids⟩, -, h⟩ := bind_eq_ok_iff.mp h
  cases h
  refine ⟨OnlySlot.updProc np _ rfl rfl, ?_⟩
  show (update s.proc np _ np).state = _
  rw [update_self]

theorem forkAlloc_takesSlot (h : forkAlloc s p = .ok (r, t)) : TakesSlot s r t := by
  unfold forkAlloc at h
  obtain ⟨⟨slot, u⟩, hcopy, h⟩ := bind_eq_ok_iff.mp h
  have htake := forkCopy_takesSlot hcopy
  cases slot with
  | none =>
    cases h
    exact htake
  | some np =>
    obtain ⟨v, henter, h⟩ := bind_eq_ok_iff.mp h
    cases h
    obtain ⟨hv, hst⟩ := forkEnter_onlySlot henter
    refine htake.onlySlot (hv.of_updProc rfl rfl) (hst.trans ?_)
    show (update u.proc np _ np).state = _
    rw [update_self]

theorem cloneAlloc_takesSlot (h : cloneAlloc s p = .ok (r, t)) : TakesSlot s r t := by
  unfold cloneAlloc at h
  obtain ⟨⟨slot, u⟩, hcopy, h⟩ := bind_eq_ok_iff.mp h
  have htake := forkCopy_takesSlot hcopy
  cases slot with
  | none =>
    cases h
    exact htake
  | some np =>
    simp only at h
    obtain ⟨n, -, h⟩ := bind_eq_ok_iff.mp h
    obtain ⟨hd, -, h⟩ := bind_eq_ok_iff.mp h
    obtain ⟨v, henter, h⟩ := bind_eq_ok_iff.mp h
    cases h
    obtain ⟨hv, hst⟩ := forkEnter_onlySlot henter
    -- the pool of nodes is no part of the process table
    have hpool : (namespaceMalloc u).2.initproc = u.initproc ∧ (namespaceMalloc u).2.proc = u.proc := by
      rcases namespaceMalloc_cases u with ⟨-, hm⟩ | ⟨i, -, -, hm⟩
      · rw [hm]
        exact ⟨rfl, rfl⟩
      · rw [hm]
        exact ⟨rfl, rfl⟩
    refine htake.onlySlot (hv.of_updProc hpool.1 hpool.2) (hst.trans ?_)
    show (update (namespaceMalloc u).2.proc np _ np).state = _
    rw [update_self, hpool.2]

/-! ## Places and states -/

namespace Pc

/-- The states that a process can have at a place. -/
def allows : Pc → ProcState → Bool
  | .user, .sleeping | .user, .zombie => false
  | .user, _ => true
  | .stopped, .zombie | .stopped, .unused | .dead, .zombie | .gone, .zombie => true
  | .stopped, _ | .dead, _ | .gone, _ => false
  | .asleep _, .sleeping | .asleep _, .runnable | .asleep _, .running => true
  | .asleep _, _ => false
  | .forked _, .runnable | .linked _, .runnable | .exiting _, .runnable | .waiting _, .runnable => true
  | _, .running => true
  | _, _ => false

/-- The child that a process in `fork` or `clone` has yet to make runnable. -/
def child : Pc → Option ℕ
  | .forked np | .linked np => some np
  | _ => none

theorem allows_running (h : c.allows .runnable = true) : c.allows .running = true := by
  cases c <;> first | rfl | cases h

theorem allows_runnable (h : c.allows .sleeping = true) : c.allows .runnable = true := by
  cases c <;> first | rfl | cases h

theorem allows_of_interruptible (h : c.interruptible = true) : c.allows .runnable = true := by
  cases c <;> first | rfl | cases h

theorem eq_user_of_used (h : c.allows .used = true) : c = .user := by
  cases c <;> first | rfl | cases h

theorem child_of_holdsWait (h : c.holdsWait = true) : c.child = none := by
  cases c <;> first | rfl | cases h

theorem ne_committed (h : c.holdsWait = true) (b : Bool) : c ≠ .committed b := by
  rintro rfl
  cases h

/-- A zombie whose lock is free has stopped. -/
theorem eq_stopped_of_zombie (h : c.allows .zombie = true) (hfree : c.ownLocked = false) :
    c = .stopped := by
  cases c <;> first | rfl | (cases h; done) | cases hfree

end Pc

/-- Places, states and locks fit together. -/
structure PcInv (t : Threads) : Prop where
  lock : ∀ p, (t.pc p).holdsWait = true ↔ t.waitLock = some p
  allowed : ∀ q, (t.pc q).allows (t.kernel.proc q).state = true
  range : ∀ q, nproc ≤ q → (t.kernel.proc q).state = .unused ∧ t.pc q = .user
  child : ∀ p np, (t.pc p).child = some np → (t.kernel.proc np).state = .used
  parent : ∀ p p' np, (t.pc p).child = some np → (t.pc p').child = some np → p = p'

theorem PcInv.child_ne {t : Threads} (h : PcInv t) (hp : (t.kernel.proc p).state ≠ .used) (q : ℕ) :
    (t.pc q).child ≠ some p := fun hq => hp (h.child q p hq)

theorem PcInv.lt_nproc {t : Threads} (h : PcInv t) (hq : (t.kernel.proc q).state ≠ .unused) :
    q < nproc := by
  by_contra hge
  exact hq (h.range q (not_lt.mp hge)).1

/-- States change as they may where the processes are. -/
theorem PcInv.setState {t : Threads} (h : PcInv t)
    (hk : ∀ q, (k.proc q).state = (t.kernel.proc q).state ∨ (q < nproc
      ∧ (t.pc q).allows (k.proc q).state = true ∧ ∀ p, (t.pc p).child ≠ some q)) :
    PcInv { t with kernel := k } := by
  refine ⟨h.lock, fun q => ?_, fun q hq => ⟨?_, (h.range q hq).2⟩, fun p np hnp => ?_, h.parent⟩
  · rcases hk q with heq | ⟨-, hc, -⟩
    · show (t.pc q).allows (k.proc q).state = true
      rw [heq]
      exact h.allowed q
    · exact hc
  · rcases hk q with heq | ⟨hlt, -⟩
    · exact heq.trans (h.range q hq).1
    · exact absurd hlt (not_lt.mpr hq)
  · rcases hk np with heq | ⟨-, -, hfree⟩
    · exact heq.trans (h.child p np hnp)
    · exact absurd hnp (hfree p)

theorem PcInv.wake {t : Threads} (h : PcInv t)
    (hk : ∀ q, (k.proc q).state = (t.kernel.proc q).state
      ∨ ((t.kernel.proc q).state = .sleeping ∧ (k.proc q).state = .runnable)) :
    PcInv { t with kernel := k } := by
  refine h.setState fun q => (hk q).imp_right fun ⟨hs, hs'⟩ => ?_
  refine ⟨h.lt_nproc (by rw [hs]; decide), ?_, h.child_ne (by rw [hs]; decide)⟩
  have hallowed := h.allowed q
  rw [hs] at hallowed
  rw [hs']
  exact Pc.allows_runnable hallowed

/-- The holder of `wait_lock` before and after a step of `p`, which has the lock afterwards exactly
if `b`. -/
def LockStep (p : ℕ) (b : Bool) (l l' : Option ℕ) : Prop :=
  (b = true ↔ l' = some p) ∧ ∀ q, q ≠ p → (l' = some q ↔ l = some q)

theorem LockStep.acquire (p : ℕ) : LockStep p true none (some p) := by
  refine ⟨iff_of_true rfl rfl, fun q hq => iff_of_false ?_ (by simp)⟩
  exact fun h => hq (Option.some.inj h).symm

theorem LockStep.release (p : ℕ) : LockStep p false (some p) none := by
  refine ⟨by simp, fun q hq => iff_of_false (by simp) ?_⟩
  exact fun h => hq (Option.some.inj h).symm

theorem PcInv.lockStep {t : Threads} {b : Bool} (h : PcInv t) (hb : (t.pc p).holdsWait = b) :
    LockStep p b t.waitLock t.waitLock := by
  subst hb
  exact ⟨h.lock p, fun _ _ => Iff.rfl⟩

/-- The process `p` moves on; its state may change, and it may take or release `wait_lock`.  Nobody
is about to make `p` runnable, nor a child of `p` other than `p`. -/
theorem PcInv.moveTo {t : Threads} (h : PcInv t) (hp : p < nproc) {l : Option ℕ}
    (hk : ∀ q, q ≠ p → (k.proc q).state = (t.kernel.proc q).state)
    (hfree : ∀ q, (t.pc q).child ≠ some p) (hc : c.allows (k.proc p).state = true)
    (hl : LockStep p c.holdsWait t.waitLock l)
    (hchild : ∀ x, c.child = some x →
      (k.proc x).state = .used ∧ ∀ q, q ≠ p → (t.pc q).child ≠ some x) :
    PcInv ⟨k, update t.pc p c, l⟩ := by
  have hpc : ∀ q, q ≠ p → update t.pc p c q = t.pc q := fun q hq => update_of_ne hq _ _
  have hself : update t.pc p c p = c := update_self _ _ _
  constructor
  · intro q
    show (update t.pc p c q).holdsWait = true ↔ l = some q
    by_cases hqp : q = p
    · rw [hqp, hself]
      exact hl.1
    · rw [hpc q hqp, h.lock q, hl.2 q hqp]
  · intro q
    show (update t.pc p c q).allows (k.proc q).state = true
    by_cases hqp : q = p
    · rw [hqp, hself]
      exact hc
    · rw [hpc q hqp, hk q hqp]
      exact h.allowed q
  · intro q hq
    have hqp : q ≠ p := fun heq => absurd hp (not_lt.mpr (heq ▸ hq))
    show (k.proc q).state = .unused ∧ update t.pc p c q = .user
    rw [hpc q hqp, hk q hqp]
    exact h.range q hq
  · intro q x hx
    change (update t.pc p c q).child = some x at hx
    by_cases hqp : q = p
    · rw [hqp, hself] at hx
      exact (hchild x hx).1
    · rw [hpc q hqp] at hx
      have hxp : x ≠ p := by
        rintro rfl
        exact hfree q hx
      exact (hk x hxp).trans (h.child q x hx)
  · intro q q' x hq hq'
    change (update t.pc p c q).child = some x at hq
    change (update t.pc p c q').child = some x at hq'
    by_cases hqp : q = p
    · by_cases hqp' : q' = p
      · rw [hqp, hqp']
      · rw [hqp, hself] at hq
        rw [hpc q' hqp'] at hq'
        exact absurd hq' ((hchild x hq).2 q' hqp')
    · rw [hpc q hqp] at hq
      by_cases hqp' : q' = p
      · rw [hqp', hself] at hq'
        exact absurd hq ((hchild x hq').2 q hqp)
      · rw [hpc q' hqp'] at hq'
        exact h.parent q q' x hq hq'

/-- A process that is not being set up moves on, and no new child is. -/
theorem PcInv.move {t : Threads} (h : PcInv t) (hp : p < nproc) {l : Option ℕ}
    (hk : ∀ q, q ≠ p → (k.proc q).state = (t.kernel.proc q).state)
    (hused : (t.kernel.proc p).state ≠ .used) (hc : c.allows (k.proc p).state = true)
    (hl : LockStep p c.holdsWait t.waitLock l)
    (hchild : c.child = none ∨ c.child = (t.pc p).child) : PcInv ⟨k, update t.pc p c, l⟩ := by
  refine h.moveTo hp hk (h.child_ne hused) hc hl fun x hx => ?_
  have hold : (t.pc p).child = some x := by
    rcases hchild with hnone | hsame
    · rw [hnone] at hx
      cases hx
    · rw [← hsame]
      exact hx
  refine ⟨?_, fun q hqp hq => hqp (h.parent q p x hq hold)⟩
  rw [hk x fun heq => h.child_ne hused p (heq ▸ hold)]
  exact h.child p x hold

theorem PcInv.run {t : Threads} (h : PcInv t) (hp : p < nproc) {l : Option ℕ}
    (hrun : (t.kernel.proc p).state = .running)
    (hk : ∀ q, (k.proc q).state = (t.kernel.proc q).state) (hc : c.allows .running = true)
    (hl : LockStep p c.holdsWait t.waitLock l)
    (hchild : c.child = none ∨ c.child = (t.pc p).child) : PcInv ⟨k, update t.pc p c, l⟩ := by
  apply h.move hp (fun q _ => hk q) _ _ hl hchild
  · rw [hrun]
    decide
  · rw [hk p, hrun]
    exact hc

/-- A new child: its slot was unused, and `p` has yet to make it runnable. -/
theorem PcInv.fork {t : Threads} (h : PcInv t) (hp : p < nproc)
    (hrun : (t.kernel.proc p).state = .running) (huser : t.pc p = .user)
    (hk : TakesSlot t.kernel (some np) k) :
    PcInv ⟨k, update (update t.pc np .user) p (.forked np), t.waitLock⟩ := by
  obtain ⟨hnp, hunused, hused⟩ := hk.child np rfl
  have hne : p ≠ np := by
    rintro rfl
    rw [hrun] at hunused
    cases hunused
  have hidle : (t.pc np).holdsWait = false := by
    have hallowed := h.allowed np
    rw [hunused] at hallowed
    cases hc : t.pc np <;> rw [hc] at hallowed <;> first | rfl | cases hallowed
  have hfresh := h.child_ne (p := np) (by rw [hunused]; decide)
  have hother : ∀ q, q ≠ np → (k.proc q).state = (t.kernel.proc q).state := by
    intro q hq
    by_cases hu : (t.kernel.proc q).state = .unused
    · rw [hk.unused q hu (fun heq => hq (Option.some.inj heq).symm), hu]
    · rw [hk.inUse q hu]
  -- the slot is taken first, and then `p` moves on
  have hmid : PcInv ⟨k, update t.pc np .user, t.waitLock⟩ := by
    apply h.moveTo hnp hother hfresh
    · rw [hused]
      rfl
    · exact h.lockStep hidle
    · exact fun x hx => by cases hx
  have hpc : update t.pc np .user p = .user := by
    rw [update_of_ne hne, huser]
  apply hmid.moveTo hp (fun _ _ => rfl)
  · apply hmid.child_ne
    show (k.proc p).state ≠ .used
    rw [hother p hne, hrun]
    decide
  · rw [hother p hne, hrun]
    rfl
  · exact hmid.lockStep (by show (update t.pc np .user p).holdsWait = _; rw [hpc]; rfl)
  · intro x hx
    cases hx
    refine ⟨hused, fun q _ hq => ?_⟩
    change (update t.pc np .user q).child = some np at hq
    by_cases hqn : q = np
    · rw [hqn, update_self] at hq
      cases hq
    · rw [update_of_ne hqn] at hq
      exact hfresh q hq

/-- The child becomes runnable, and the call returns. -/
theorem PcInv.release {t : Threads} (h : PcInv t) (hp : p < nproc)
    (hrun : (t.kernel.proc p).state = .running) (hpc : t.pc p = .linked np)
    (hnp : (k.proc np).state = .runnable)
    (hk : ∀ q, q ≠ np → (k.proc q).state = (t.kernel.proc q).state) :
    PcInv ⟨k, update t.pc p .user, t.waitLock⟩ := by
  have hchild : (t.pc p).child = some np := by
    rw [hpc]
    rfl
  have hused : (t.kernel.proc np).state = .used := h.child p np hchild
  have hne : np ≠ p := by
    rintro rfl
    rw [hrun] at hused
    cases hused
  -- `p` moves on first, so that the child is nobody's
  have hmid : PcInv ⟨t.kernel, update t.pc p .user, t.waitLock⟩ := by
    apply h.run hp hrun (fun _ => rfl) rfl _ (Or.inl rfl)
    exact h.lockStep (by rw [hpc]; rfl)
  refine hmid.setState fun q => ?_
  by_cases hq : q = np
  · right
    subst hq
    refine ⟨h.lt_nproc (by rw [hused]; decide), ?_, fun x hx => ?_⟩
    · have hallowed := h.allowed q
      rw [hused] at hallowed
      show (update t.pc p .user q).allows _ = true
      rw [update_of_ne hne, Pc.eq_user_of_used hallowed, hnp]
      rfl
    · change (update t.pc p .user x).child = some q at hx
      by_cases hxp : x = p
      · rw [hxp, update_self] at hx
        cases hx
      · rw [update_of_ne hxp] at hx
        exact hxp (h.parent x p q hx hchild)
  · exact Or.inl (hk q hq)

/-! ## Sleepers and zombies -/

/-- The process sleeps in `wait`, or nothing will keep it from that. -/
def Asleep (t : Threads) (q : ℕ) : Prop :=
  ((t.kernel.proc q).state = .sleeping ∧ (t.kernel.proc q).chan = some q) ∨ ∃ c, t.pc q = .committed c

/-- The process `z` is a zombie that its parent `q` has not waited for. -/
def ZombieOf (t : Threads) (z q : ℕ) : Prop :=
  (t.kernel.proc z).state = .zombie ∧ (t.kernel.proc z).parent = some q

/-- The process sleeps over a dead child. -/
def Misses (t : Threads) (q : ℕ) : Prop := Asleep t q ∧ ∃ z, ZombieOf t z q

/-- The process `p`, at this place, has `q` still to wake. -/
def WakesAt (t : Threads) (p q : ℕ) : Pc → Prop
  | .handing .. => (t.kernel.proc p).parent = some q
  | .wakingInit _ _ _ i => (t.kernel.initproc = some q ∧ i ≤ q) ∨ (t.kernel.proc p).parent = some q
  | .wakingParent _ chan i => chan = some q ∧ i ≤ q
  | _ => False

/-- `wakeup(p->parent)` is past the slot `q`. -/
def Pc.passed : Pc → ℕ → Prop
  | .wakingParent _ _ i, q => q < i
  | .dying _, _ => True
  | _, _ => False

/-- The scan of `wait` is past the slot `z`. -/
def Pc.scanned : Pc → ℕ → Prop
  | .scanning _ pp _, z => z < pp
  | .deciding .., _ | .sleeping _, _ => True
  | _, _ => False

theorem Pc.passed.holdsWait (h : c.passed q) : c.holdsWait = true := by
  cases c <;> first | rfl | cases h

theorem Pc.scanned.holdsWait (h : c.scanned q) : c.holdsWait = true := by
  cases c <;> first | rfl | cases h

/-- A process that sleeps over a dead child will be woken by the holder of `wait_lock`. -/
structure WakeInv (t : Threads) : Prop where
  chan : ∀ p st c i, t.pc p = .wakingParent st c i → c = (t.kernel.proc p).parent
  passed : ∀ p q, (t.pc p).passed q → (t.kernel.proc p).parent = some q → ¬ Asleep t q
  scanned : ∀ q z, (t.pc q).scanned z → ¬ ZombieOf t z q
  woken : ∀ q, Misses t q → ∃ p, t.waitLock = some p ∧ WakesAt t p q (t.pc p)

theorem WakeInv.not_misses {t : Threads} (h : WakeInv t) (hl : t.waitLock = none) (q : ℕ) :
    ¬ Misses t q := by
  intro hq
  obtain ⟨p, hp, -⟩ := h.woken q hq
  rw [hl] at hp
  cases hp

theorem WakeInv.wakes {t : Threads} (h : WakeInv t) (hl : t.waitLock = some p) (hq : Misses t q) :
    WakesAt t p q (t.pc p) := by
  obtain ⟨p', hp', hw⟩ := h.woken q hq
  rw [hl] at hp'
  cases hp'
  exact hw

/-- Without a holder it is enough that nobody sleeps over a dead child. -/
theorem WakeInv.of_free {t : Threads} (h : PcInv t) (hl : t.waitLock = none)
    (hq : ∀ q, ¬ Misses t q) : WakeInv t := by
  have hnone : ∀ p, (t.pc p).holdsWait ≠ true := by
    intro p hp
    rw [h.lock p, hl] at hp
    cases hp
  refine ⟨fun p st c i hp => ?_, fun p q hp => ?_, fun q z hp => ?_, fun q hm => absurd hm (hq q)⟩
  · exact absurd (by rw [hp]; rfl) (hnone p)
  · exact absurd hp.holdsWait (hnone p)
  · exact absurd hp.holdsWait (hnone q)

/-- With a holder, only its place matters. -/
theorem WakeInv.of_holder {pc : ℕ → Pc} {l : Option ℕ} (h : PcInv ⟨k, update pc p c, l⟩)
    (hl : l = some p) (hchan : ∀ st ch i, c = .wakingParent st ch i → ch = (k.proc p).parent)
    (hpassed : ∀ q, c.passed q → (k.proc p).parent = some q → ¬ Asleep ⟨k, update pc p c, l⟩ q)
    (hscanned : ∀ z, c.scanned z → ¬ ZombieOf ⟨k, update pc p c, l⟩ z p)
    (hwoken : ∀ q, Misses ⟨k, update pc p c, l⟩ q → WakesAt ⟨k, update pc p c, l⟩ p q c) :
    WakeInv ⟨k, update pc p c, l⟩ := by
  subst hl
  have hpc : update pc p c p = c := update_self _ _ _
  have honly : ∀ q, (update pc p c q).holdsWait = true → q = p := fun q hq =>
    (Option.some.inj ((h.lock q).mp hq)).symm
  refine ⟨fun q st ch i hq => ?_, fun q x hq => ?_, fun q z hq => ?_, fun q hm => ⟨p, rfl, ?_⟩⟩
  · obtain rfl := honly q (by rw [show update pc p c q = _ from hq]; rfl)
    exact hchan st ch i (hpc.symm.trans hq)
  · obtain rfl := honly q hq.holdsWait
    rw [show Threads.pc _ q = c from hpc] at hq
    exact hpassed x hq
  · obtain rfl := honly q hq.holdsWait
    rw [show Threads.pc _ q = c from hpc] at hq
    exact hscanned z hq
  · rw [show Threads.pc _ p = c from hpc]
    exact hwoken q hm

/-- A step after which nobody sleeps and no child is dead that did not, or was not, before. -/
structure Calm (t t' : Threads) : Prop where
  asleep : ∀ q, Asleep t' q → Asleep t q
  zombie : ∀ z q, ZombieOf t' z q → ZombieOf t z q

theorem Calm.misses {t : Threads} (h : Calm t t') (hq : Misses t' q) : Misses t q := by
  obtain ⟨ha, z, hz⟩ := hq
  exact ⟨h.asleep q ha, z, h.zombie z q hz⟩

/-- Each slot keeps the three fields or is neither asleep nor dead afterwards; no process
commits itself to sleep. -/
theorem Calm.of_slots {t : Threads}
    (hk : ∀ q, ((t'.kernel.proc q).state = (t.kernel.proc q).state
        ∧ (t'.kernel.proc q).chan = (t.kernel.proc q).chan
        ∧ (t'.kernel.proc q).parent = (t.kernel.proc q).parent)
      ∨ ((t'.kernel.proc q).state ≠ .sleeping ∧ (t'.kernel.proc q).state ≠ .zombie))
    (hpc : ∀ q c, t'.pc q = .committed c → t.pc q = .committed c) : Calm t t' := by
  refine ⟨fun q hq => ?_, fun z q hz => ?_⟩
  · rcases hq with ⟨hs, hc⟩ | ⟨c, hc⟩
    · rcases hk q with ⟨hs', hc', -⟩ | ⟨hs', -⟩
      · exact Or.inl ⟨hs'.symm.trans hs, hc'.symm.trans hc⟩
      · exact absurd hs hs'
    · exact Or.inr ⟨c, hpc q c hc⟩
  · obtain ⟨hs, hp⟩ := hz
    rcases hk z with ⟨hs', -, hp'⟩ | ⟨-, hs'⟩
    · exact ⟨hs'.symm.trans hs, hp'.symm.trans hp⟩
    · exact absurd hs hs'

/-- A process that moves on to another place does not commit itself to sleep. -/
theorem committed_of_update {pc : ℕ → Pc} (hc : ∀ b, c ≠ .committed b) (q : ℕ) (b : Bool)
    (h : update pc p c q = .committed b) : pc q = .committed b := by
  by_cases hq : q = p
  · rw [hq, update_self] at h
    exact absurd h (hc b)
  · rw [update_of_ne hq] at h
    exact h

/-- A calm step of a process without `wait_lock`. -/
theorem WakeInv.quiet {t : Threads} (h : WakeInv t) (hpcs : PcInv t) (hcalm : Calm t t')
    (hl : t'.waitLock = t.waitLock) (hinit : t'.kernel.initproc = t.kernel.initproc)
    (hhold : ∀ p, (t.pc p).holdsWait = true →
      t'.pc p = t.pc p ∧ (t'.kernel.proc p).parent = (t.kernel.proc p).parent)
    (hnew : ∀ p, (t'.pc p).holdsWait = true → (t.pc p).holdsWait = true) : WakeInv t' := by
  have hsame : ∀ p, (t'.pc p).holdsWait = true →
      t'.pc p = t.pc p ∧ (t'.kernel.proc p).parent = (t.kernel.proc p).parent := fun p hp =>
    hhold p (hnew p hp)
  refine ⟨fun p st c i hp => ?_, fun p q hp hq ha => ?_, fun q z hq hz => ?_, fun q hm => ?_⟩
  · obtain ⟨hpc, hpar⟩ := hsame p (by rw [hp]; rfl)
    rw [hpar]
    exact h.chan p st c i (hpc ▸ hp)
  · obtain ⟨hpc, hpar⟩ := hsame p hp.holdsWait
    exact h.passed p q (hpc ▸ hp) (hpar ▸ hq) (hcalm.asleep q ha)
  · obtain ⟨hpc, -⟩ := hsame q hq.holdsWait
    exact h.scanned q z (hpc ▸ hq) (hcalm.zombie z q hz)
  · obtain ⟨p, hlp, hw⟩ := h.woken q (hcalm.misses hm)
    obtain ⟨hpc, hpar⟩ := hhold p ((hpcs.lock p).mpr hlp)
    refine ⟨p, hl.trans hlp, ?_⟩
    rw [hpc]
    cases hc : t.pc p <;> rw [hc] at hw <;> first | exact hw.elim | skip
    · show (t'.kernel.proc p).parent = some q
      rw [hpar]
      exact hw
    · show (t'.kernel.initproc = some q ∧ _) ∨ (t'.kernel.proc p).parent = some q
      rw [hinit, hpar]
      exact hw
    · exact hw

end Xv6
