/-
# The pieces of `fork`, `exit` and `wait` keep the wake-up invariant

One lemma for each kind of piece.  The pieces without `wait_lock` are calm: nobody falls asleep
and nobody dies.  Under `wait_lock` the place of the holder says what is still to be done: `exit`
moves from `handing` to `dying` as it wakes, `wait` from `scanning` to `committed` as it finds no
zombie.  The only piece that can go wrong is the turn of `reparent` that hands a
zombie to `new_init`: it wakes `initproc`, whoever `new_init` is (`NoLostChild`).
-/
import Xv6.WaitInv

namespace Xv6

open Function

variable {b : Bool} {k : Kernel} {chan newInit : Option ℕ} {c : Pc} {t : Threads} {i np p pp q : ℕ}
  {st : ℤ}

/-- The invariant of all interleavings. -/
structure WaitInv (t : Threads) : Prop where
  pcs : PcInv t
  wakes : WakeInv t

/-- `reparent` hands a zombie to a process that sleeps in `wait` only if that process is `initproc`,
or the parent of the exiting process. -/
def NoLostChild (t : Threads) : Act → Prop
  | .run p => ∀ status newInit pp, t.pc p = .handing status newInit pp → pp < nproc →
      ZombieOf t pp p → ∀ q ∈ newInit,
        t.kernel.initproc = some q ∨ (t.kernel.proc p).parent = some q ∨ ¬ Asleep t q
  | _ => True

/-! ## The locks -/

/-- A process that runs is not asleep. -/
theorem not_asleep_of_running (hrun : (t.kernel.proc p).state = .running)
    (hpc : ∀ b, t.pc p ≠ .committed b) : ¬ Asleep t p := by
  rintro (⟨hs, -⟩ | ⟨b, hb⟩)
  · rw [hrun] at hs
    cases hs
  · exact hpc b hb

/-- A slot out of range is not asleep. -/
theorem PcInv.lt_of_asleep (h : PcInv t) (ha : Asleep t q) : q < nproc := by
  rcases ha with ⟨hs, -⟩ | ⟨b, hb⟩
  · exact h.lt_nproc (by rw [hs]; decide)
  · by_contra hq
    rw [(h.range q (not_lt.mp hq)).2] at hb
    cases hb

theorem Calm.goto {l : Option ℕ} (hc : ∀ b, c ≠ .committed b) :
    Calm t ⟨t.kernel, update t.pc p c, l⟩ :=
  Calm.of_slots (fun _ => Or.inl ⟨rfl, rfl, rfl⟩) (committed_of_update hc)

/-- A place under `wait_lock` at which nobody has been woken or looked at yet. -/
def Pc.begins : Pc → Bool
  | .leaving _ | .choosing _ | .handing .. | .wakingInit .. | .scanning _ 0 _ => true
  | _ => false

theorem Pc.begins_spec (h : c.begins = true) : c.allows .running = true ∧ c.holdsWait = true
    ∧ (∀ st ch i, c ≠ .wakingParent st ch i) ∧ (∀ q, ¬ c.passed q) ∧ ∀ z, ¬ c.scanned z := by
  cases c with
  | scanning b pp havekids =>
    cases pp with
    | zero => exact ⟨rfl, rfl, by simp, fun _ hq => hq, fun z => Nat.not_lt_zero z⟩
    | succ pp => cases h
  | leaving | choosing | handing | wakingInit =>
    exact ⟨rfl, rfl, by simp, fun _ hq => hq, fun _ hz => hz⟩
  | _ => cases h

/-- The holder of `wait_lock` is at a place at which nobody has been woken or looked at. -/
theorem WaitInv.of_begins {pc : ℕ → Pc} {l : Option ℕ} (hpcs : PcInv ⟨k, update pc p c, l⟩)
    (hl : l = some p) (hb : c.begins = true)
    (hwoken : ∀ q, Misses ⟨k, update pc p c, l⟩ q → WakesAt ⟨k, update pc p c, l⟩ p q c) :
    WaitInv ⟨k, update pc p c, l⟩ := by
  obtain ⟨-, -, hchan, hpassed, hscanned⟩ := Pc.begins_spec hb
  refine ⟨hpcs, WakeInv.of_holder hpcs hl ?_ ?_ ?_ hwoken⟩
  · exact fun st ch i hst => absurd hst (hchan st ch i)
  · exact fun q hq => absurd hq (hpassed q)
  · exact fun z hz => absurd hz (hscanned z)

theorem PcInv.hold (h : PcInv t) (hp : p < nproc) (hrun : (t.kernel.proc p).state = .running)
    (hl : t.waitLock = some p) (hk : ∀ q, (k.proc q).state = (t.kernel.proc q).state)
    (hc : c.allows .running = true) (hw : c.holdsWait = true) :
    PcInv ⟨k, update t.pc p c, t.waitLock⟩ := by
  apply h.run hp hrun hk hc _ (Or.inl (Pc.child_of_holdsWait hw))
  exact h.lockStep (((h.lock p).mpr hl).trans hw.symm)

/-- Taking `wait_lock`: it was free, so nobody sleeps over a dead child. -/
theorem WaitInv.acquire (h : WaitInv t) (hp : p < nproc) (hrun : (t.kernel.proc p).state = .running)
    (hfree : t.waitLock = none) (hb : c.begins = true) :
    WaitInv ⟨t.kernel, update t.pc p c, some p⟩ := by
  obtain ⟨hc, hw, -⟩ := Pc.begins_spec hb
  have hpcs : PcInv ⟨t.kernel, update t.pc p c, some p⟩ := by
    apply h.pcs.run hp hrun (fun _ => rfl) hc _ (Or.inl (Pc.child_of_holdsWait hw))
    rw [hw, hfree]
    exact LockStep.acquire p
  refine WaitInv.of_begins hpcs rfl hb fun q hm => ?_
  exact absurd ((Calm.goto (Pc.ne_committed hw)).misses hm) (h.wakes.not_misses hfree q)

/-- Releasing `wait_lock` in a place where nobody is left to be woken. -/
theorem WaitInv.unlock {t' : Threads} (h : WaitInv t) (hl : t.waitLock = some p)
    (hdone : ∀ q, ¬ WakesAt t p q (t.pc p)) (hpcs : PcInv t') (hcalm : Calm t t')
    (hl' : t'.waitLock = none) : WaitInv t' :=
  ⟨hpcs, WakeInv.of_free hpcs hl' fun q hm => hdone q (h.wakes.wakes hl (hcalm.misses hm))⟩

/-- The holder of `wait_lock` goes on: whom it had to wake, it still has to. -/
theorem WaitInv.advance (h : WaitInv t) (hl : t.waitLock = some p)
    (hpcs : PcInv ⟨k, update t.pc p c, t.waitLock⟩)
    (hcalm : Calm t ⟨k, update t.pc p c, t.waitLock⟩)
    (hchan : ∀ st ch i, c = .wakingParent st ch i → ch = (k.proc p).parent)
    (hpassed : ∀ q, c.passed q → (k.proc p).parent = some q →
      ¬ Asleep ⟨k, update t.pc p c, t.waitLock⟩ q)
    (hscanned : ∀ z, c.scanned z → ¬ ZombieOf ⟨k, update t.pc p c, t.waitLock⟩ z p)
    (hwakes : ∀ q, Asleep ⟨k, update t.pc p c, t.waitLock⟩ q → WakesAt t p q (t.pc p) →
      WakesAt ⟨k, update t.pc p c, t.waitLock⟩ p q c) :
    WaitInv ⟨k, update t.pc p c, t.waitLock⟩ :=
  ⟨hpcs, WakeInv.of_holder hpcs hl hchan hpassed hscanned fun q hm =>
    hwakes q hm.1 (h.wakes.wakes hl (hcalm.misses hm))⟩

/-- A process without `wait_lock` goes on. -/
theorem WaitInv.offLock (h : WaitInv t) (hold : (t.pc p).holdsWait = false)
    (hc : c.holdsWait = false) (hpcs : PcInv ⟨k, update t.pc p c, t.waitLock⟩)
    (hcalm : Calm t ⟨k, update t.pc p c, t.waitLock⟩) (hinit : k.initproc = t.kernel.initproc)
    (hpar : ∀ q, (t.pc q).holdsWait = true → (k.proc q).parent = (t.kernel.proc q).parent) :
    WaitInv ⟨k, update t.pc p c, t.waitLock⟩ := by
  refine ⟨hpcs, h.wakes.quiet h.pcs hcalm rfl hinit ?_ ?_⟩
  · intro q hq
    have hqp : q ≠ p := by
      rintro rfl
      rw [hold] at hq
      cases hq
    exact ⟨update_of_ne hqp _ _, hpar q hq⟩
  · intro q hq
    change (update t.pc p c q).holdsWait = true at hq
    by_cases hqp : q = p
    · rw [hqp, update_self, hc] at hq
      cases hq
    · rw [update_of_ne hqp] at hq
      exact hq

theorem updProc_cases (k : Kernel) (i : ℕ) (f : Proc → Proc) (q : ℕ) :
    (q = i ∧ (k.updProc i f).proc q = f (k.proc i)) ∨ (q ≠ i ∧ (k.updProc i f).proc q = k.proc q) := by
  by_cases hq : q = i
  · left
    subst hq
    exact ⟨rfl, update_self _ _ _⟩
  · exact Or.inr ⟨hq, update_of_ne hq _ _⟩

theorem updProc_self (k : Kernel) (i : ℕ) (f : Proc → Proc) : (k.updProc i f).proc i = f (k.proc i) :=
  update_self _ _ _

theorem updProc_of_ne (k : Kernel) (f : Proc → Proc) (hq : q ≠ i) :
    (k.updProc i f).proc q = k.proc q :=
  update_of_ne hq _ _

/-! ## `fork` and `clone` -/

/-- No holder of `wait_lock` has a slot that is unused or being set up. -/
theorem PcInv.state_of_holdsWait (h : PcInv t) (hq : (t.pc q).holdsWait = true) :
    (t.kernel.proc q).state = .running ∨ (t.kernel.proc q).state = .zombie := by
  have hallowed := h.allowed q
  cases hs : (t.kernel.proc q).state <;> rw [hs] at hallowed <;>
    first | exact Or.inl rfl | exact Or.inr rfl | skip
  all_goals
    cases hc : t.pc q <;> rw [hc] at hallowed hq <;> first | cases hq; done | cases hallowed

/-- Slots that a call may take are neither asleep nor dead afterwards. -/
theorem TakesSlot.slots {k' : Kernel} {r : Option ℕ} (h : TakesSlot k r k') (q : ℕ) :
    ((k'.proc q).state = (k.proc q).state ∧ (k'.proc q).chan = (k.proc q).chan
        ∧ (k'.proc q).parent = (k.proc q).parent)
      ∨ ((k'.proc q).state ≠ .sleeping ∧ (k'.proc q).state ≠ .zombie) := by
  by_cases hu : (k.proc q).state = .unused
  · right
    by_cases hr : r = some q
    · obtain ⟨-, -, hused⟩ := h.child q hr
      rw [hused]
      decide
    · rw [h.unused q hu hr]
      decide
  · left
    rw [h.inUse q hu]
    exact ⟨rfl, rfl, rfl⟩

theorem WaitInv.forkFails (h : WaitInv t) (hk : TakesSlot t.kernel none k) :
    WaitInv { t with kernel := k } := by
  have hpar : ∀ q, (t.pc q).holdsWait = true → (k.proc q).parent = (t.kernel.proc q).parent := by
    intro q hq
    rw [hk.inUse q]
    rcases h.pcs.state_of_holdsWait hq with hs | hs <;> rw [hs] <;> decide
  refine ⟨h.pcs.setState fun q => Or.inl ?_,
    h.wakes.quiet h.pcs (Calm.of_slots hk.slots fun _ _ hc => hc) rfl hk.initproc
      (fun q hq => ⟨rfl, hpar q hq⟩) (fun _ hq => hq)⟩
  by_cases hu : (t.kernel.proc q).state = .unused
  · rw [hk.unused q hu (by simp), hu]
  · rw [hk.inUse q hu]

/-! ### A running process -/

section Running

variable (h : WaitInv t) (hp : p < nproc) (hrun : (t.kernel.proc p).state = .running)
include h hp hrun

theorem WaitInv.forkStarts (huser : t.pc p = .user) (hk : TakesSlot t.kernel (some np) k) :
    WaitInv ⟨k, update (update t.pc np .user) p (.forked np), t.waitLock⟩ := by
  set pc := update (update t.pc np .user) p (.forked np) with hpc
  obtain ⟨-, hunused, -⟩ := hk.child np rfl
  have hsame : ∀ q, (t.pc q).holdsWait = true →
      pc q = t.pc q ∧ (k.proc q).parent = (t.kernel.proc q).parent := by
    intro q hq
    have hst := h.pcs.state_of_holdsWait hq
    have hqp : q ≠ p := by
      rintro rfl
      rw [huser] at hq
      cases hq
    have hqn : q ≠ np := by
      rintro rfl
      rw [hunused] at hst
      rcases hst with hs | hs <;> cases hs
    refine ⟨?_, ?_⟩
    · rw [hpc, update_of_ne hqp, update_of_ne hqn]
    · rw [hk.inUse q]
      rcases hst with hs | hs <;> rw [hs] <;> decide
  refine ⟨h.pcs.fork hp hrun huser hk, h.wakes.quiet h.pcs (Calm.of_slots hk.slots ?_) rfl hk.initproc
    hsame ?_⟩
  · intro q c hc
    have hc := committed_of_update (fun b hb => by cases hb) q c hc
    exact committed_of_update (fun b hb => by cases hb) q c hc
  · intro q hq
    change (pc q).holdsWait = true at hq
    show (t.pc q).holdsWait = true
    by_cases hqp : q = p
    · rw [hqp, show pc p = .forked np from update_self _ _ _] at hq
      cases hq
    · by_cases hqn : q = np
      · rw [hqn] at hq hqp
        rw [show pc np = .user by rw [hpc, update_of_ne hqp, update_self]] at hq
        cases hq
      · rw [show pc q = t.pc q by rw [hpc, update_of_ne hqp, update_of_ne hqn]] at hq
        exact hq

/-- The child gets its parent. -/
theorem WaitInv.forked (hpc : t.pc p = .forked np) :
    WaitInv ⟨t.kernel.updProc np fun q => { q with parent := some p },
      update t.pc p (.linked np), t.waitLock⟩ := by
  have hused : (t.kernel.proc np).state = .used := h.pcs.child p np (by rw [hpc]; rfl)
  have hstate : ∀ q, ((t.kernel.updProc np fun x => { x with parent := some p }).proc q).state
      = (t.kernel.proc q).state := by
    intro q
    rcases updProc_cases t.kernel np (fun x => { x with parent := some p }) q with ⟨rfl, hq⟩ | ⟨-, hq⟩ <;>
      rw [hq]
  apply h.offLock (by rw [hpc]; rfl) rfl
  · apply h.pcs.run hp hrun hstate rfl (h.pcs.lockStep (by rw [hpc]; rfl))
    rw [hpc]
    exact Or.inr rfl
  · refine Calm.of_slots (fun q => ?_) (committed_of_update fun b hb => by cases hb)
    rcases updProc_cases t.kernel np (fun x => { x with parent := some p }) q with ⟨rfl, hq⟩ | ⟨-, hq⟩
    · right
      rw [hstate, hused]
      decide
    · exact Or.inl (by rw [hq]; exact ⟨rfl, rfl, rfl⟩)
  · rfl
  · intro q hq
    rw [updProc_of_ne]
    rintro rfl
    rcases h.pcs.state_of_holdsWait hq with hs | hs <;> rw [hused] at hs <;> cases hs

theorem WaitInv.linked (hpc : t.pc p = .linked np) :
    WaitInv ⟨t.kernel.updProc np fun q => { q with state := .runnable },
      update t.pc p .user, t.waitLock⟩ := by
  apply h.offLock (by rw [hpc]; rfl) rfl
  · apply h.pcs.release hp hrun hpc
    · rw [updProc_self]
    · intro q hq
      rw [updProc_of_ne _ _ hq]
  · refine Calm.of_slots (fun q => ?_) (committed_of_update fun b hb => by cases hb)
    rcases updProc_cases t.kernel np (fun x => { x with state := .runnable }) q with ⟨rfl, hq⟩ | ⟨-, hq⟩
    · exact Or.inr (by rw [hq]; exact ⟨by simp, by simp⟩)
    · exact Or.inl (by rw [hq]; exact ⟨rfl, rfl, rfl⟩)
  · rfl
  · intro q _
    rcases updProc_cases t.kernel np (fun x => { x with state := .runnable }) q with ⟨rfl, hq⟩ | ⟨-, hq⟩ <;>
      rw [hq]

/-! ## `exit` -/

/-- The first pieces of `exit` change nothing that `wait` looks at. -/
theorem WaitInv.exitStarts (huser : t.pc p = .user) (hk : SameSlots t.kernel k) :
    WaitInv ⟨k, update t.pc p (.exiting st), t.waitLock⟩ := by
  apply h.offLock (by rw [huser]; rfl) rfl
  · apply h.pcs.run hp hrun (fun q => (hk.slot q).1) rfl _ (Or.inl rfl)
    exact h.pcs.lockStep (by rw [huser]; rfl)
  · exact Calm.of_slots (fun q => Or.inl (hk.slot q)) (committed_of_update fun b hb => by cases hb)
  · exact hk.initproc
  · exact fun q _ => (hk.slot q).2.2

end Running

theorem wakeOne_cases (k : Kernel) (me : ℕ) (chan : Option ℕ) (i q : ℕ) :
    (wakeOne k me chan i).proc q = k.proc q
      ∨ (q = i ∧ (k.proc q).state = .sleeping
        ∧ (wakeOne k me chan i).proc q = { k.proc q with state := .runnable }) := by
  unfold wakeOne
  split_ifs with hif
  · rcases updProc_cases k i (fun x => { x with state := .runnable }) q with ⟨rfl, hq⟩ | ⟨-, hq⟩
    · exact Or.inr ⟨rfl, hif.2.1, hq⟩
    · exact Or.inl hq
  · exact Or.inl rfl

theorem wakeOne_initproc (k : Kernel) (me : ℕ) (chan : Option ℕ) (i : ℕ) :
    (wakeOne k me chan i).initproc = k.initproc := by
  unfold wakeOne
  split_ifs <;> rfl

theorem wakeOne_parent (k : Kernel) (me : ℕ) (chan : Option ℕ) (i q : ℕ) :
    ((wakeOne k me chan i).proc q).parent = (k.proc q).parent := by
  rcases wakeOne_cases k me chan i q with hq | ⟨-, -, hq⟩ <;> rw [hq]

theorem Calm.wakeOne (hc : ∀ b, c ≠ .committed b) :
    Calm t ⟨wakeOne t.kernel p chan i, update t.pc p c, t.waitLock⟩ := by
  refine Calm.of_slots (fun q => ?_) (committed_of_update hc)
  rcases wakeOne_cases t.kernel p chan i q with hq | ⟨-, -, hq⟩
  · exact Or.inl (by rw [hq]; exact ⟨rfl, rfl, rfl⟩)
  · exact Or.inr (by rw [hq]; exact ⟨by simp, by simp⟩)

/-- The process whose turn it is in `wakeup` is awake afterwards. -/
theorem not_asleep_wakeOne (hself : ¬ Asleep t p) (hfree : q ≠ p → t.LockFree q)
    (hc : ∀ b, c ≠ .committed b) :
    ¬ Asleep ⟨wakeOne t.kernel p (some q) q, update t.pc p c, t.waitLock⟩ q := by
  intro ha
  have hat : Asleep t q := (Calm.wakeOne hc).asleep q ha
  have hqp : q ≠ p := by
    rintro rfl
    exact hself hat
  rcases hat with ⟨hs, hch⟩ | ⟨b, hb⟩
  · rcases ha with ⟨hs', -⟩ | ⟨b, hb⟩
    · change ((Xv6.wakeOne t.kernel p (some q) q).proc q).state = .sleeping at hs'
      unfold Xv6.wakeOne at hs'
      rw [if_pos ⟨hqp, hs, hch⟩, updProc_self] at hs'
      cases hs'
    · have hb' := committed_of_update hc q b hb
      have hlocked := hfree hqp
      unfold Threads.LockFree at hlocked
      rw [hb'] at hlocked
      cases hlocked
  · have hlocked := hfree hqp
    unfold Threads.LockFree at hlocked
    rw [hb] at hlocked
    cases hlocked

/-- Leaving a place under `wait_lock` for one without it; the state of `p` stays. -/
theorem PcInv.drop (h : PcInv t) (hp : p < nproc) (hl : t.waitLock = some p)
    (hused : (t.kernel.proc p).state ≠ .used) (hc : c.allows (t.kernel.proc p).state = true)
    (hw : c.holdsWait = false) (hchild : c.child = none) :
    PcInv ⟨t.kernel, update t.pc p c, none⟩ := by
  apply h.move hp (fun _ _ => rfl) hused hc _ (Or.inl hchild)
  rw [hw, hl]
  exact LockStep.release p

/-! ### The holder of `wait_lock` -/

section Holder

variable (h : WaitInv t) (hp : p < nproc) (hrun : (t.kernel.proc p).state = .running)
  (hl : t.waitLock = some p)
include h hp hrun hl

/-- The pieces before `reparent` hands over the children. -/
theorem WaitInv.beforeHanding (hdone : ∀ q, ¬ WakesAt t p q (t.pc p))
    (hk : SameSlots t.kernel k) (hb : c.begins = true) : WaitInv ⟨k, update t.pc p c, t.waitLock⟩ := by
  obtain ⟨hc, hw, -⟩ := Pc.begins_spec hb
  have hcalm : Calm t ⟨k, update t.pc p c, t.waitLock⟩ :=
    Calm.of_slots (fun q => Or.inl (hk.slot q)) (committed_of_update (Pc.ne_committed hw))
  apply WaitInv.of_begins (h.pcs.hold hp hrun hl (fun q => (hk.slot q).1) hc hw) hl hb
  exact fun q hm => absurd (h.wakes.wakes hl (hcalm.misses hm)) (hdone q)

/-- A turn of `reparent` for a child: `NoLostChild` is about this piece. -/
theorem WaitInv.hand (hpc : t.pc p = .handing st newInit pp)
    (hchild : (t.kernel.proc pp).parent = some p)
    (hok : ZombieOf t pp p → ∀ q ∈ newInit,
      t.kernel.initproc = some q ∨ (t.kernel.proc p).parent = some q ∨ ¬ Asleep t q) :
    WaitInv ⟨t.kernel.updProc pp fun q => { q with parent := newInit },
      update t.pc p (.wakingInit st newInit pp 0), t.waitLock⟩ := by
  set k := t.kernel.updProc pp fun q => { q with parent := newInit } with hk
  have hstate : ∀ q, (k.proc q).state = (t.kernel.proc q).state
      ∧ (k.proc q).chan = (t.kernel.proc q).chan := by
    intro q
    rcases updProc_cases t.kernel pp (fun x => { x with parent := newInit }) q with ⟨rfl, hq⟩ | ⟨-, hq⟩ <;>
      rw [hk, hq] <;> exact ⟨rfl, rfl⟩
  have hself : ¬ Asleep t p := not_asleep_of_running hrun fun b hb => by rw [hpc] at hb; cases hb
  have hasleep : ∀ q, Asleep ⟨k, update t.pc p (.wakingInit st newInit pp 0), t.waitLock⟩ q →
      Asleep t q := by
    rintro q (⟨hs, hc⟩ | ⟨b, hb⟩)
    · exact Or.inl ⟨(hstate q).1.symm.trans hs, (hstate q).2.symm.trans hc⟩
    · exact Or.inr ⟨b, committed_of_update (fun b hb => by cases hb) q b hb⟩
  apply WaitInv.of_begins (h.pcs.hold hp hrun hl (fun q => (hstate q).1) rfl rfl) hl rfl
  · rintro q ⟨ha, z, hz, hzq⟩
    have haq := hasleep q ha
    have hqp : q ≠ p := by
      rintro rfl
      exact hself haq
    have hzt : (t.kernel.proc z).state = .zombie := (hstate z).1.symm.trans hz
    by_cases hzpp : z = pp
    · -- the child is the zombie: it now belongs to `new_init`
      subst hzpp
      have hnew : newInit = some q := by
        change (k.proc z).parent = some q at hzq
        rw [hk, updProc_self] at hzq
        exact hzq
      have hzp : z ≠ p := by
        rintro rfl
        rw [hrun] at hzt
        cases hzt
      rcases hok ⟨hzt, hchild⟩ q hnew with hinit | hpar | hna
      · exact Or.inl ⟨hinit, Nat.zero_le q⟩
      · refine Or.inr ?_
        show (k.proc p).parent = some q
        rw [hk, updProc_of_ne _ _ hzp.symm]
        exact hpar
      · exact absurd haq hna
    · have hzq' : (t.kernel.proc z).parent = some q := by
        change (k.proc z).parent = some q at hzq
        rw [hk, updProc_of_ne _ _ hzpp] at hzq
        exact hzq
      have hw := h.wakes.wakes hl ⟨haq, z, hzt, hzq'⟩
      rw [hpc] at hw
      refine Or.inr ?_
      show (k.proc p).parent = some q
      -- a process that is its own parent does not sleep now
      have hppp : p ≠ pp := by
        rintro rfl
        exact hqp (Option.some.inj ((show (t.kernel.proc p).parent = some q from hw).symm.trans hchild))
      rw [hk, updProc_of_ne _ _ hppp]
      exact hw

/-- Places while a turn of `wakeup` is made. -/
theorem WaitInv.pcs_wakeOne (hc : c.allows .running = true) (hw : c.holdsWait = true) :
    PcInv ⟨wakeOne t.kernel p chan i, update t.pc p c, t.waitLock⟩ := by
  have hmid : PcInv { t with kernel := wakeOne t.kernel p chan i } := by
    refine h.pcs.wake fun q => ?_
    rcases wakeOne_cases t.kernel p chan i q with hq | ⟨-, hs, hq⟩
    · exact Or.inl (by rw [hq])
    · exact Or.inr ⟨hs, by rw [hq]⟩
  refine hmid.hold hp ?_ hl (fun _ => rfl) hc hw
  show ((wakeOne t.kernel p chan i).proc p).state = .running
  rcases wakeOne_cases t.kernel p chan i p with hq | ⟨-, hs, -⟩
  · rw [hq, hrun]
  · rw [hrun] at hs
    cases hs

theorem WaitInv.wakingInit (hpc : t.pc p = .wakingInit st newInit pp i)
    (hfree : i ≠ p → t.LockFree i) :
    WaitInv ⟨wakeOne t.kernel p t.kernel.initproc i,
      update t.pc p (.wakingInit st newInit pp (i + 1)), t.waitLock⟩ := by
  have hself : ¬ Asleep t p := not_asleep_of_running hrun fun b hb => by rw [hpc] at hb; cases hb
  have hc : ∀ b, Pc.wakingInit st newInit pp (i + 1) ≠ .committed b := fun b hb => by cases hb
  apply WaitInv.of_begins (h.pcs_wakeOne hp hrun hl rfl rfl) hl rfl
  · intro q hm
    have ha := hm.1
    have hw := h.wakes.wakes hl ((Calm.wakeOne hc).misses hm)
    rw [hpc] at hw
    rcases hw with ⟨hinit, hi⟩ | hpar
    · refine Or.inl ⟨(wakeOne_initproc _ _ _ _).trans hinit, ?_⟩
      rcases Nat.eq_or_lt_of_le hi with rfl | hlt
      · rw [hinit] at ha
        exact absurd ha (not_asleep_wakeOne hself hfree hc)
      · exact hlt
    · exact Or.inr ((wakeOne_parent _ _ _ _ _).trans hpar)

theorem WaitInv.wokenInit (hpc : t.pc p = .wakingInit st newInit pp i) (hi : ¬ i < nproc) :
    WaitInv ⟨t.kernel, update t.pc p (.handing st newInit (pp + 1)), t.waitLock⟩ := by
  have hcalm : Calm t ⟨t.kernel, update t.pc p (.handing st newInit (pp + 1)), t.waitLock⟩ :=
    Calm.goto fun b hb => by cases hb
  apply WaitInv.of_begins (h.pcs.hold hp hrun hl (fun _ => rfl) rfl rfl) hl rfl
  · intro q hm
    have hw := h.wakes.wakes hl (hcalm.misses hm)
    rw [hpc] at hw
    rcases hw with ⟨-, hiq⟩ | hpar
    · have hlt := h.pcs.lt_of_asleep (hcalm.asleep q hm.1)
      omega
    · exact hpar

theorem WaitInv.notChild (hpc : t.pc p = .handing st newInit pp) :
    WaitInv ⟨t.kernel, update t.pc p (.handing st newInit (pp + 1)), t.waitLock⟩ := by
  apply WaitInv.of_begins (h.pcs.hold hp hrun hl (fun _ => rfl) rfl rfl) hl rfl
  intro q hm
  have hw := h.wakes.wakes hl ((Calm.goto (Pc.ne_committed rfl)).misses hm)
  rw [hpc] at hw
  exact hw

theorem WaitInv.handed (hpc : t.pc p = .handing st newInit pp) :
    WaitInv ⟨t.kernel, update t.pc p (.wakingParent st (t.kernel.proc p).parent 0),
      t.waitLock⟩ := by
  apply h.advance hl (h.pcs.hold hp hrun hl (fun _ => rfl) rfl rfl) (Calm.goto fun b hb => by cases hb)
  · intro st' ch i hst
    obtain ⟨-, rfl, -⟩ := Pc.wakingParent.inj hst
    rfl
  · exact fun q hq => absurd hq (Nat.not_lt_zero q)
  · exact fun z hz => hz.elim
  · intro q _ hw
    rw [hpc] at hw
    exact ⟨hw, Nat.zero_le q⟩

theorem WaitInv.wakingParent (hpc : t.pc p = .wakingParent st chan i)
    (hfree : i ≠ p → t.LockFree i) :
    WaitInv ⟨wakeOne t.kernel p chan i, update t.pc p (.wakingParent st chan (i + 1)),
      t.waitLock⟩ := by
  have hchan : chan = (t.kernel.proc p).parent := h.wakes.chan p st chan i hpc
  have hself : ¬ Asleep t p := not_asleep_of_running hrun fun b hb => by rw [hpc] at hb; cases hb
  have hc : ∀ b, Pc.wakingParent st chan (i + 1) ≠ .committed b := fun b hb => by cases hb
  apply h.advance hl (h.pcs_wakeOne hp hrun hl rfl rfl) (Calm.wakeOne hc)
  · intro st' ch i' hst
    obtain ⟨-, rfl, -⟩ := Pc.wakingParent.inj hst
    exact hchan.trans (wakeOne_parent _ _ _ _ _).symm
  · intro q hq hpar ha
    rw [wakeOne_parent] at hpar
    rcases Nat.eq_or_lt_of_le (Nat.le_of_lt_succ hq) with rfl | hlt
    · rw [hchan, hpar] at ha
      exact not_asleep_wakeOne hself hfree (fun b hb => by cases hb) ha
    · exact h.wakes.passed p q (by rw [hpc]; exact hlt) hpar ((Calm.wakeOne hc).asleep q ha)
  · exact fun z hz => hz.elim
  · intro q ha hw
    rw [hpc] at hw
    obtain ⟨hcq, hi⟩ := hw
    refine ⟨hcq, ?_⟩
    rcases Nat.eq_or_lt_of_le hi with rfl | hlt
    · rw [hcq] at ha
      exact absurd ha (not_asleep_wakeOne hself hfree (fun b hb => by cases hb))
    · exact hlt

theorem WaitInv.wokenParent (hpc : t.pc p = .wakingParent st chan i) (hi : ¬ i < nproc) :
    WaitInv ⟨t.kernel, update t.pc p (.dying st), t.waitLock⟩ := by
  have hcalm : Calm t ⟨t.kernel, update t.pc p (.dying st), t.waitLock⟩ :=
    Calm.goto fun b hb => by cases hb
  apply h.advance hl (h.pcs.hold hp hrun hl (fun _ => rfl) rfl rfl) hcalm
  · intro st' ch i' hst
    cases hst
  · intro q _ hpar ha
    have hat := hcalm.asleep q ha
    have hlt := h.pcs.lt_of_asleep hat
    exact h.wakes.passed p q (by rw [hpc]; exact lt_of_lt_of_le hlt (not_lt.mp hi)) hpar hat
  · exact fun z hz => hz.elim
  · intro q ha hw
    have hlt := h.pcs.lt_of_asleep (hcalm.asleep q ha)
    rw [hpc] at hw
    have hiq : i ≤ q := hw.2
    omega

/-- The process dies after its parent has been woken. -/
theorem WaitInv.dying (hpc : t.pc p = .dying st) :
    WaitInv ⟨t.kernel.updProc p fun q => { q with xstate := st, state := .zombie },
      update t.pc p .dead, t.waitLock⟩ := by
  set k := t.kernel.updProc p fun q => { q with xstate := st, state := .zombie } with hk
  have hself : k.proc p = { t.kernel.proc p with xstate := st, state := .zombie } := updProc_self _ _ _
  have hother : ∀ q, q ≠ p → k.proc q = t.kernel.proc q := fun q hq => updProc_of_ne _ _ hq
  have hpcs : PcInv ⟨k, update t.pc p .dead, t.waitLock⟩ := by
    apply h.pcs.move hp (fun q hq => by rw [hother q hq])
    · rw [hrun]
      decide
    · rw [hself]
      rfl
    · exact h.pcs.lockStep ((h.pcs.lock p).mpr hl)
    · exact Or.inl rfl
  have hasleep : ∀ q, Asleep ⟨k, update t.pc p .dead, t.waitLock⟩ q → Asleep t q := by
    rintro q (⟨hs, hc⟩ | ⟨b, hb⟩)
    · by_cases hqp : q = p
      · change (k.proc q).state = .sleeping at hs
        rw [hqp, hself] at hs
        cases hs
      · exact Or.inl ⟨hother q hqp ▸ hs, hother q hqp ▸ hc⟩
    · exact Or.inr ⟨b, committed_of_update (fun b hb => by cases hb) q b hb⟩
  refine ⟨hpcs, WakeInv.of_holder hpcs hl ?_ ?_ ?_ ?_⟩
  · intro st' ch i hst
    cases hst
  · exact fun q hq => hq.elim
  · exact fun z hz => hz.elim
  · rintro q ⟨ha, z, hz, hzq⟩
    exfalso
    change (k.proc z).state = .zombie at hz
    change (k.proc z).parent = some q at hzq
    by_cases hzp : z = p
    · rw [hzp, hself] at hzq
      exact h.wakes.passed p q (by rw [hpc]; exact trivial) hzq (hasleep q ha)
    · rw [hother z hzp] at hz hzq
      have hw := h.wakes.wakes hl ⟨hasleep q ha, z, hz, hzq⟩
      rw [hpc] at hw
      exact hw

/-! ## `wait` -/

theorem WaitInv.scan (hdone : ∀ q, ¬ WakesAt t p q (t.pc p)) (hc : c.allows .running = true)
    (hw : c.holdsWait = true) (hchan : ∀ st ch i, c ≠ .wakingParent st ch i)
    (hpassed : ∀ q, ¬ c.passed q) (hscanned : ∀ z, c.scanned z → ¬ ZombieOf t z p) :
    WaitInv ⟨t.kernel, update t.pc p c, t.waitLock⟩ := by
  apply h.advance hl (h.pcs.hold hp hrun hl (fun _ => rfl) hc hw) (Calm.goto (Pc.ne_committed hw))
  · exact fun st ch i hst => absurd hst (hchan st ch i)
  · exact fun q hq => absurd hq (hpassed q)
  · exact hscanned
  · exact fun q _ hq => absurd hq (hdone q)

theorem WaitInv.returns (hdone : ∀ q, ¬ WakesAt t p q (t.pc p)) :
    WaitInv ⟨t.kernel, update t.pc p .user, none⟩ := by
  apply h.unlock hl hdone _ (Calm.goto fun b hb => by cases hb) rfl
  apply h.pcs.drop hp hl _ _ rfl rfl
  · rw [hrun]
    decide
  · rw [hrun]
    rfl

theorem WaitInv.reap (hdone : ∀ q, ¬ WakesAt t p q (t.pc p))
    (hz : (t.kernel.proc pp).state = .zombie) (hfree : t.LockFree pp)
    (hk : freeproc t.kernel pp = .ok k) : WaitInv ⟨k, update t.pc p .user, none⟩ := by
  obtain ⟨honly, hpp⟩ := freeproc_onlySlot hk
  have hne : p ≠ pp := by
    rintro rfl
    rw [hrun] at hz
    cases hz
  have hunused : (k.proc pp).state = .unused := by
    rw [hpp]
    rfl
  have hstopped : t.pc pp = .stopped := by
    have hallowed := h.pcs.allowed pp
    rw [hz] at hallowed
    exact Pc.eq_stopped_of_zombie hallowed hfree
  have hmid : PcInv { t with kernel := k } := by
    refine h.pcs.setState fun q => ?_
    by_cases hq : q = pp
    · rw [hq]
      refine Or.inr ⟨h.pcs.lt_nproc (by rw [hz]; decide), ?_, h.pcs.child_ne (by rw [hz]; decide)⟩
      rw [hstopped, hunused]
      rfl
    · exact Or.inl (by rw [honly.other q hq])
  have hrun' : (k.proc p).state = .running := by
    rw [honly.other p hne]
    exact hrun
  have hpcs : PcInv ⟨k, update t.pc p .user, none⟩ := by
    apply hmid.drop hp hl
    · show (k.proc p).state ≠ .used
      rw [hrun']
      decide
    · show Pc.user.allows (k.proc p).state = true
      rw [hrun']
      rfl
    · rfl
    · rfl
  apply h.unlock hl hdone hpcs _ rfl
  refine Calm.of_slots (fun q => ?_) (committed_of_update fun b hb => by cases hb)
  by_cases hq : q = pp
  · right
    rw [hq, hunused]
    decide
  · left
    show (k.proc q).state = _ ∧ (k.proc q).chan = _ ∧ (k.proc q).parent = _
    rw [honly.other q hq]
    exact ⟨rfl, rfl, rfl⟩

/-- `sleep` releases `wait_lock` after it has taken the lock of the process. -/
theorem WaitInv.commit (hpc : t.pc p = .sleeping b) :
    WaitInv ⟨t.kernel, update t.pc p (.committed b), none⟩ := by
  have hpcs : PcInv ⟨t.kernel, update t.pc p (.committed b), none⟩ := by
    apply h.pcs.drop hp hl
    · rw [hrun]
      decide
    · rw [hrun]
      rfl
    · rfl
    · rfl
  refine ⟨hpcs, WakeInv.of_free hpcs rfl ?_⟩
  rintro q ⟨ha, z, hz⟩
  by_cases hqp : q = p
  · rw [hqp] at hz
    exact h.wakes.scanned p z (by rw [hpc]; exact trivial) hz
  · have hat : Asleep t q := by
      rcases ha with hs | ⟨b', hb'⟩
      · exact Or.inl hs
      · change update t.pc p (.committed b) q = _ at hb'
        rw [update_of_ne hqp] at hb'
        exact Or.inr ⟨b', hb'⟩
    have hw := h.wakes.wakes hl ⟨hat, z, hz⟩
    rw [hpc] at hw
    exact hw

end Holder

theorem WaitInv.fallAsleep (h : WaitInv t) (hp : p < nproc)
    (hrun : (t.kernel.proc p).state = .running) (hpc : t.pc p = .committed b) :
    WaitInv ⟨t.kernel.updProc p fun q => { q with chan := some p, state := .sleeping },
      update t.pc p (.asleep b), t.waitLock⟩ := by
  set k := t.kernel.updProc p fun q => { q with chan := some p, state := .sleeping } with hk
  have hself : k.proc p = { t.kernel.proc p with chan := some p, state := .sleeping } := updProc_self _ _ _
  have hother : ∀ q, q ≠ p → k.proc q = t.kernel.proc q := fun q hq => updProc_of_ne _ _ hq
  apply h.offLock (by rw [hpc]; rfl) rfl
  · apply h.pcs.move hp (fun q hq => by rw [hother q hq])
    · rw [hrun]
      decide
    · rw [hself]
      rfl
    · exact h.pcs.lockStep (by rw [hpc]; rfl)
    · exact Or.inl rfl
  · refine ⟨fun q ha => ?_, fun z q hz => ?_⟩
    · by_cases hqp : q = p
      · rw [hqp]
        exact Or.inr ⟨b, hpc⟩
      · rcases ha with ⟨hs, hc⟩ | ⟨b', hb'⟩
        · exact Or.inl ⟨hother q hqp ▸ hs, hother q hqp ▸ hc⟩
        · exact Or.inr ⟨b', committed_of_update (fun b hb => by cases hb) q b' hb'⟩
    · obtain ⟨hs, hpar⟩ := hz
      change (k.proc z).state = .zombie at hs
      by_cases hzp : z = p
      · rw [hzp, hself] at hs
        cases hs
      · exact ⟨hother z hzp ▸ hs, hother z hzp ▸ hpar⟩
  · rfl
  · intro q _
    by_cases hqp : q = p
    · rw [hqp, hself]
    · rw [hother q hqp]

theorem WaitInv.wakeUp (h : WaitInv t) (hp : p < nproc) (hrun : (t.kernel.proc p).state = .running)
    (hpc : t.pc p = .asleep b) :
    WaitInv ⟨t.kernel.updProc p fun q => { q with chan := none },
      update t.pc p (.waiting b), t.waitLock⟩ := by
  set k := t.kernel.updProc p fun q => { q with chan := none } with hk
  have hself : k.proc p = { t.kernel.proc p with chan := none } := updProc_self _ _ _
  have hother : ∀ q, q ≠ p → k.proc q = t.kernel.proc q := fun q hq => updProc_of_ne _ _ hq
  apply h.offLock (by rw [hpc]; rfl) rfl
  · apply h.pcs.move hp (fun q hq => by rw [hother q hq])
    · rw [hrun]
      decide
    · rw [hself, hrun]
      rfl
    · exact h.pcs.lockStep (by rw [hpc]; rfl)
    · exact Or.inl rfl
  · refine Calm.of_slots (fun q => ?_) (committed_of_update fun b hb => by cases hb)
    by_cases hqp : q = p
    · right
      show (k.proc q).state ≠ .sleeping ∧ (k.proc q).state ≠ .zombie
      rw [hqp, hself, hrun]
      decide
    · left
      show (k.proc q).state = _ ∧ (k.proc q).chan = _ ∧ (k.proc q).parent = _
      rw [hother q hqp]
      exact ⟨rfl, rfl, rfl⟩
  · rfl
  · intro q _
    by_cases hqp : q = p
    · rw [hqp, hself]
    · rw [hother q hqp]

end Xv6
