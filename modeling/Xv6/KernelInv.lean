/-
# Every run keeps the namespaces in order

`step_spec` says what an event does in a state that meets the invariant `KInv`, and
`Stepped.inv` that the invariant still holds after it.  With the state that `userinit`
leaves this gives `Reach.inv`: the invariant holds in every reachable state, whatever
the processes do and wherever an allocation fails.  `namespace_accounting` reads off
what it says about the namespace nodes.
-/
import Xv6.ProcExit

namespace Xv6

open Function HeadChain

variable {e : Event} {s t : Kernel} {ok : Kernel → Event → Prop} {r : Option ℕ} {np p : ℕ}

/-! ## What an event can do -/

/-- What an event can do when it does not go wrong. -/
inductive Stepped (s : Kernel) : Event → Option ℕ → Kernel → Prop
  | fork {p : ℕ} {supply : List ℕ} {r : Option ℕ} {t : Kernel}
      (h : Created (s.refill supply) p false r t) : Stepped s (.fork p supply) r t
  | clone {p : ℕ} {supply : List ℕ} {r : Option ℕ} {t : Kernel}
      (h : Created (s.refill supply) p true r t) : Stepped s (.clone p supply) r t
  | exit {p : ℕ} {status : ℤ} {t : Kernel} (h : Exited s p status t) :
      Stepped s (.exit p status) none t
  | wait {p : ℕ} {copyFails : Bool} {r : WaitResult} {t : Kernel} (h : Waited s p r t) :
      Stepped s (.wait p copyFails) none t
  | files {e : Event} {t : Kernel} (hneeds : e.needs = .running) (hfiles : FilesExact t)
      (honly : FilesOnly e.proc s t) : Stepped s e none t
  | dispatch {p : ℕ} : Stepped s (.dispatch p) none
      (s.updProc p fun q => { q with state := .running, chan := none })
  | yield {p : ℕ} : Stepped s (.yield p) none (s.updProc p fun q => { q with state := .runnable })

/-- **Every enabled event**: it does what `Stepped` says, unless init exits or `clone` finds no
room for a namespace. -/
theorem step_spec (h : KInv s) (he : Enabled s e) :
    (∃ r t, step s e = .ok (r, t) ∧ Stepped s e r t)
      ∨ (∃ p status, e = .exit p status ∧ s.initproc = some p
        ∧ step s e = .error (.panic "init exiting"))
      ∨ ∃ p supply, e = .clone p supply ∧ ¬ CloneRoom s p
        ∧ (step s e = .error .nullDeref ∨ step s e = .error .outOfBounds) := by
  obtain ⟨hp, hstate⟩ := he
  cases e with
  | fork p supply =>
    obtain ⟨r, t, hrun, hcreated⟩ := fork_spec (h.refill supply) hp hstate
    exact Or.inl ⟨r, t, hrun, Stepped.fork hcreated⟩
  | clone p supply =>
    obtain ⟨r, u, -, hcopy, hnone, hsome⟩ := clone_spec (h.refill supply) hp hstate
    cases r with
    | none => exact Or.inl ⟨none, u, hnone rfl, Stepped.clone (Created.fail hcopy)⟩
    | some np =>
      by_cases hroom : CloneRoom (s.refill supply) p
      · obtain ⟨t, hrun, hcreated⟩ := (hsome np rfl).1 hroom
        exact Or.inl ⟨some np, t, hrun, Stepped.clone hcreated⟩
      · exact Or.inr (Or.inr ⟨p, supply, rfl, hroom, (hsome np rfl).2 hroom⟩)
  | exit p status =>
    by_cases hinit : s.initproc = some p
    · refine Or.inr (Or.inl ⟨p, status, rfl, hinit, ?_⟩)
      simp [step, exit, hinit]
    · obtain ⟨t, hrun, hexit⟩ := exit_spec h hp hstate hinit status
      exact Or.inl ⟨none, t, bind_eq_ok_iff.mpr ⟨t, hrun, rfl⟩, Stepped.exit hexit⟩
  | wait p copyFails =>
    obtain ⟨r, t, hrun, hwait⟩ := wait_spec h.slots p copyFails
    exact Or.inl ⟨none, t, bind_eq_ok_iff.mpr ⟨(r, t), hrun, rfl⟩, Stepped.wait hwait⟩
  | sysOpen p ip =>
    obtain ⟨t, hrun, hfiles, honly⟩ := sysOpen_spec hp ip h.files
    exact Or.inl ⟨none, t, bind_eq_ok_iff.mpr ⟨t, hrun, rfl⟩, Stepped.files rfl hfiles honly⟩
  | sysDup p fd =>
    obtain ⟨t, hrun, hfiles, honly⟩ := sysDup_spec hp fd h.files
    exact Or.inl ⟨none, t, bind_eq_ok_iff.mpr ⟨t, hrun, rfl⟩, Stepped.files rfl hfiles honly⟩
  | sysClose p fd =>
    obtain ⟨t, hrun, hfiles, honly⟩ := sysClose_spec hp fd h.files
    exact Or.inl ⟨none, t, bind_eq_ok_iff.mpr ⟨t, hrun, rfl⟩, Stepped.files rfl hfiles honly⟩
  | dispatch p => exact Or.inl ⟨none, _, rfl, Stepped.dispatch⟩
  | yield p => exact Or.inl ⟨none, _, rfl, Stepped.yield⟩

/-- An event that returned did what `Stepped` says. -/
theorem stepped_of_ok (h : KInv s) (he : Enabled s e) (hstep : step s e = .ok (r, t)) :
    Stepped s e r t := by
  rcases step_spec h he with ⟨r', t', hrun, hst⟩ | ⟨p, status, -, -, herr⟩ | ⟨p, supply, -, -, herr⟩
  · rw [hstep] at hrun
    cases hrun
    exact hst
  · rw [hstep] at herr
    cases herr
  · rw [hstep] at herr
    rcases herr with herr | herr <;> cases herr

/-! ## Preservation -/

/-- A live process stays live, in another state or on another channel. -/
theorem KInv.setState (h : KInv s) (hp : (s.proc p).Live) {st : ProcState}
    (hst : st ≠ .unused ∧ st ≠ .zombie) (chan : Proc → Option ℕ) :
    KInv (s.updProc p fun q => { q with state := st, chan := chan q }) := by
  set t := s.updProc p fun q => { q with state := st, chan := chan q } with ht
  have htp : t.proc p = { s.proc p with state := st, chan := chan (s.proc p) } :=
    update_self _ _ _
  have hother : ∀ q, q ≠ p → t.proc q = s.proc q := fun q hq => update_of_ne hq _ _
  have hlive : ∀ q, liveNode t q = liveNode s q := by
    intro q
    by_cases hq : q = p
    · subst hq
      rw [liveNode_of_live hp, liveNode_of_live (by rw [htp]; exact hst), htp]
    · unfold liveNode
      rw [hother q hq]
  refine ⟨fun q => ?_, h.files.congr (fun q => ?_) (fun _ => rfl), ?_, fun q hq => ?_⟩
  · by_cases hq : q = p
    · subst hq
      rw [htp]
      exact ⟨fun hu => absurd hu hst.1, fun _ => (h.slots q).space hp.1, fun hn => absurd hst hn,
        fun _ => (h.slots q).dir hp⟩
    · rw [hother q hq]
      exact h.slots q
  · by_cases hq : q = p
    · subst hq
      rw [htp]
    · rw [hother q hq]
  · rw [funext hlive]
    exact h.ns
  · by_cases hqp : q = p
    · subst hqp
      rw [htp]
      exact h.noded q hp
    · rw [hother q hqp] at hq ⊢
      exact h.noded q hq

/-- Descriptors do not matter to the rest. -/
theorem KInv.filesOnly (h : KInv s) (hp : (s.proc p).Live) (hfiles : FilesExact t)
    (honly : FilesOnly p s t) : KInv t := by
  have hmem : t.mem = s.mem := by rw [honly.rest]
  have hstate : ∀ q, (t.proc q).state = (s.proc q).state ∧ (t.proc q).node = (s.proc q).node := by
    intro q
    by_cases hq : q = p
    · subst hq
      rw [honly.self]
      exact ⟨rfl, rfl⟩
    · rw [honly.other q hq]
      exact ⟨rfl, rfl⟩
  have hlive : ∀ q, (t.proc q).Live ↔ (s.proc q).Live := by
    intro q
    unfold Proc.Live
    rw [(hstate q).1]
  refine ⟨fun q => ?_, hfiles, ?_, fun q hq => ?_⟩
  · rw [hmem]
    by_cases hq : q = p
    · subst hq
      rw [honly.self]
      exact ⟨fun hu => absurd hu hp.1, (h.slots q).space, fun hn => absurd hp hn, (h.slots q).dir⟩
    · rw [honly.other q hq]
      exact h.slots q
  · have hplace : liveNode t = liveNode s := by
      funext q
      unfold liveNode
      rw [(hstate q).2]
      exact if_congr (hlive q) rfl rfl
    have hnodes : t.nodes = s.nodes := by rw [honly.rest]
    have hused : t.used = s.used := by rw [honly.rest]
    rw [hplace, hnodes, hused]
    exact h.ns
  · rw [(hstate q).2]
    exact h.noded q ((hlive q).mp hq)

theorem Created.inv (h : KInv s) (hp : (s.proc p).Live) {fresh : Bool}
    (hcreated : Created s p fresh r t) : KInv t := by
  cases hcreated with
  | fail hcopy =>
    cases hcopy with
    | noSlot => exact h
    | noMemory _ _ hkend _ =>
      exact ⟨fun q => (h.slots q).of_kend hkend, h.files.congr (fun _ => rfl) (fun _ => rfl), h.ns,
        h.noded⟩
  | @child np n nodes used l pids u hcopy hplace hchain hpids =>
    obtain ⟨-, -, -, hkend, hother⟩ := hcopy.frame
    obtain ⟨hnp, hunused, -, ⟨tf, pt, hu⟩, hslot, hfiles⟩ := hcopy.child_slot
    have hlive : (u.proc np).Live := by
      rw [hu]
      exact ⟨by simp [Proc.copyOf], by simp [Proc.copyOf]⟩
    set t := u.enrolled p np n nodes used l pids with ht
    have htnp : t.proc np = { u.proc np with
        node := some n, namespacePids := pids, parent := some p, state := .runnable } :=
      update_self _ _ _
    have htq : ∀ q, q ≠ np → t.proc q = s.proc q := by
      intro q hq
      rw [show t.proc q = u.proc q from update_of_ne hq _ _]
      exact hother q (fun heq => hq (Option.some.inj heq).symm)
    have htlive : (t.proc np).Live := by
      rw [htnp]
      exact ⟨by simp, by simp⟩
    have hplace' : liveNode t = update (liveNode s) np (some n) := by
      funext q
      by_cases hq : q = np
      · subst hq
        rw [liveNode_of_live htlive, htnp, update_self]
      · rw [update_of_ne hq]
        unfold liveNode
        rw [htq q hq]
    have hnone : liveNode s np = none := liveNode_of_not_live (not_live_of_unused hunused)
    refine ⟨fun q => ?_, hfiles.congr (fun q => ?_) (fun _ => rfl), ?_, fun q hq => ?_⟩
    · show SlotOk u.mem (t.proc q)
      by_cases hq : q = np
      · rw [hq, htnp]
        have hready : ({ u.proc np with
            node := some n, namespacePids := pids, parent := some p, state := .runnable } : Proc).Live :=
          ⟨by simp, by simp⟩
        exact ⟨fun hc => absurd hc hready.1, fun _ => hslot.space hlive.1,
          fun hn => absurd hready hn, fun _ => hslot.dir hlive⟩
      · rw [htq q hq]
        exact (h.slots q).of_kend hkend
    · by_cases hq : q = np
      · subst hq
        rw [htnp]
      · exact congrArg Proc.ofile (update_of_ne hq _ _)
    · show NsInv (enteredNodes nodes l) used (liveNode t)
      rw [hplace']
      obtain ⟨n', hn', -, -, hused'⟩ := h.exists_node hp
      cases hplace with
      | same hn =>
        rw [hn'] at hn
        cases hn
        exact h.ns.enter hnp hnone hused' hchain.mem_iff
      | fresh hn _ hi hfree hroom =>
        rw [hn'] at hn
        cases hn
        exact h.ns.enter_new hnp hnone hi hfree hused' rfl rfl rfl hroom hchain.mem_iff
    · by_cases hqn : q = np
      · subst hqn
        exact ⟨n, by rw [htnp]⟩
      · rw [htq q hqn] at hq ⊢
        exact h.noded q hq

theorem Exited.inv (h : KInv s) (hp : (s.proc p).Live) {status : ℤ} (he : Exited s p status t) :
    KInv t := by
  obtain ⟨n, l, hnode, hchain, hnodes, hused⟩ := he.ns
  have hdead : ¬ (t.proc p).Live := by
    rw [he.self]
    exact fun hl => hl.2 rfl
  have hplace : liveNode t = update (liveNode s) p none := by
    funext q
    by_cases hq : q = p
    · subst hq
      rw [liveNode_of_not_live hdead, update_self]
    · rw [update_of_ne hq]
      unfold liveNode
      rw [if_congr (he.other q hq).live_iff rfl rfl, (he.other q hq).eq]
  refine ⟨fun q => ?_, he.files, ?_, fun q hq => ?_⟩
  · rw [he.mem]
    by_cases hq : q = p
    · subst hq
      rw [he.self]
      exact ⟨fun hc => absurd hc (by simp), fun _ => (h.slots q).space hp.1,
        fun _ => ⟨fun _ => rfl, rfl⟩, fun hl => absurd rfl hl.2⟩
    · exact (h.slots q).stirred (he.other q hq)
  · rw [hplace]
    have hlive : liveNode s p = some n := (liveNode_of_live hp).trans hnode
    refine (h.ns.leave hlive hchain.mem_iff hused).congr (fun x => ?_)
    rw [hnodes x]
    exact ⟨rfl, rfl, rfl⟩
  · have hqp : q ≠ p := by
      rintro rfl
      exact hdead hq
    rw [(he.other q hqp).eq]
    exact h.noded q ((he.other q hqp).live_iff.mp hq)

theorem Waited.inv (h : KInv s) (hp : (s.proc p).Live) {r : WaitResult} (hw : Waited s p r t) :
    KInv t := by
  cases hw with
  | fail => exact h
  | sleep => exact h.setState hp ⟨by decide, by decide⟩ (fun _ => some p)
  | @reap pp m hpp hparent hzombie hkend =>
    set t := { s with mem := m }.updProc pp Proc.cleared with ht
    have htp : t.proc pp = (s.proc pp).cleared := update_self _ _ _
    have hother : ∀ q, q ≠ pp → t.proc q = s.proc q := fun q hq => update_of_ne hq _ _
    have hdead : ¬ (s.proc pp).Live := fun hl => hl.2 hzombie
    have hfree : ¬ (t.proc pp).Live := by
      rw [htp]
      exact fun hl => hl.1 rfl
    have hplace : liveNode t = liveNode s := by
      funext q
      by_cases hq : q = pp
      · subst hq
        rw [liveNode_of_not_live hfree, liveNode_of_not_live hdead]
      · unfold liveNode
        rw [hother q hq]
    refine ⟨fun q => ?_, h.files.congr (fun q => ?_) (fun _ => rfl), ?_, fun q hq => ?_⟩
    · show SlotOk m (t.proc q)
      by_cases hq : q = pp
      · subst hq
        rw [htp]
        exact ⟨fun _ => rfl, fun hc => absurd rfl hc, fun _ => (h.slots q).closed hdead,
          fun hl => absurd rfl hl.1⟩
      · rw [hother q hq]
        exact (h.slots q).of_kend hkend
    · by_cases hq : q = pp
      · subst hq
        rw [htp]
        rfl
      · rw [hother q hq]
    · show NsInv s.nodes s.used (liveNode t)
      rw [hplace]
      exact h.ns
    · have hqp : q ≠ pp := by
        rintro rfl
        exact hfree hq
      rw [hother q hqp] at hq ⊢
      exact h.noded q hq

/-- **The step lemma.** -/
theorem Stepped.inv (h : KInv s) (he : Enabled s e) (hst : Stepped s e r t) : KInv t := by
  obtain ⟨-, hstate⟩ := he
  cases hst with
  | @fork p supply _ _ hc => exact Created.inv (h.refill supply) (live_of_running hstate) hc
  | @clone p supply _ _ hc => exact Created.inv (h.refill supply) (live_of_running hstate) hc
  | exit hx => exact hx.inv h (live_of_running hstate)
  | wait hw => exact hw.inv h (live_of_running hstate)
  | files hneeds hfiles honly =>
    rw [hneeds] at hstate
    exact h.filesOnly (live_of_running hstate) hfiles honly
  | @dispatch p =>
    have hlive : (s.proc p).Live := by
      have hs : (s.proc p).state = .runnable := hstate
      unfold Proc.Live
      rw [hs]
      exact ⟨by decide, by decide⟩
    exact h.setState hlive ⟨by decide, by decide⟩ (fun _ => none)
  | yield => exact h.setState (live_of_running hstate) ⟨by decide, by decide⟩ (fun q => q.chan)

/-! ## What an event means for the namespaces -/

/-- No process has been created: the nodes keep their place and their last pid, every slot keeps
its node and its pids, and a slot that is in use was in use before. -/
structure NoBirth (s t : Kernel) : Prop where
  nodes : ∀ x, (t.nodes x).head = (s.nodes x).head ∧ (t.nodes x).depth = (s.nodes x).depth
    ∧ (t.nodes x).lastPid = (s.nodes x).lastPid
  used : ∀ x, t.used x = true → s.used x = true
  place : ∀ q, (t.proc q).node = (s.proc q).node
    ∧ (t.proc q).namespacePids = (s.proc q).namespacePids
  slot : ∀ q, (t.proc q).state ≠ .unused →
    (s.proc q).state ≠ .unused ∧ (t.proc q).pid = (s.proc q).pid

/-- The process `np` has been created by `p`. -/
structure Birth (s : Kernel) (p : ℕ) (fresh : Bool) (np : ℕ) (t : Kernel) : Prop where
  lt : np < nproc
  unused : (s.proc np).state = .unused
  other : ∀ q, q ≠ np → t.proc q = s.proc q
  state : (t.proc np).state = .runnable
  pid : (t.proc np).pid = s.nextpid
  nextpid : t.nextpid = int32 (s.nextpid + 1)
  place : ∃ n nodes l, NewPlace s p np fresh n nodes t.used ∧ Chain (heads nodes) (some n) l
    ∧ t.nodes = enteredNodes nodes l ∧ (t.proc np).node = some n
    ∧ ∀ x ∈ l, (t.proc np).namespacePids (nodes x).depth = (nodes x).lastPid

theorem NoBirth.refl (s : Kernel) : NoBirth s s :=
  ⟨fun _ => ⟨rfl, rfl, rfl⟩, fun _ hx => hx, fun _ => ⟨rfl, rfl⟩, fun _ hq => ⟨hq, rfl⟩⟩

theorem NoBirth.of_refill {supply : List ℕ} (h : NoBirth (s.refill supply) t) : NoBirth s t :=
  ⟨h.nodes, h.used, h.place, h.slot⟩

/-- Only one slot changes, and no unused slot is taken. -/
theorem NoBirth.of_slot (hnodes : t.nodes = s.nodes) (hused : t.used = s.used)
    (hother : ∀ q, q ≠ p → t.proc q = s.proc q) (hnode : (t.proc p).node = (s.proc p).node)
    (hpids : (t.proc p).namespacePids = (s.proc p).namespacePids)
    (hslot : (t.proc p).state ≠ .unused →
      (s.proc p).state ≠ .unused ∧ (t.proc p).pid = (s.proc p).pid) :
    NoBirth s t where
  nodes := fun x => by rw [hnodes]; exact ⟨rfl, rfl, rfl⟩
  used := fun x hx => hused ▸ hx
  place := fun q => by
    by_cases hq : q = p
    · rw [hq]
      exact ⟨hnode, hpids⟩
    · rw [hother q hq]
      exact ⟨rfl, rfl⟩
  slot := fun q hstate => by
    by_cases hq : q = p
    · rw [hq] at hstate ⊢
      exact hslot hstate
    · rw [hother q hq] at hstate ⊢
      exact ⟨hstate, rfl⟩

theorem NoBirth.updProc {f : Proc → Proc} (m : PagePool)
    (hnode : (f (s.proc p)).node = (s.proc p).node)
    (hpids : (f (s.proc p)).namespacePids = (s.proc p).namespacePids)
    (hslot : (f (s.proc p)).state ≠ .unused →
      (s.proc p).state ≠ .unused ∧ (f (s.proc p)).pid = (s.proc p).pid) :
    NoBirth s (Kernel.updProc { s with mem := m } p f) := by
  have hself : (Kernel.updProc { s with mem := m } p f).proc p = f (s.proc p) :=
    update_self _ _ _
  refine NoBirth.of_slot rfl rfl (fun q hq => update_of_ne hq _ _) ?_ ?_ ?_
  · rw [hself, hnode]
  · rw [hself, hpids]
  · rw [hself]
    exact hslot

theorem Copied.noBirth (h : Copied s p none t) : NoBirth s t := by
  obtain ⟨hnodes, hused, -, -, hproc⟩ := h.frame
  refine ⟨fun x => by rw [hnodes]; exact ⟨rfl, rfl, rfl⟩, fun x hx => hused ▸ hx, fun q => ?_,
    fun q hq => ?_⟩
  · rw [hproc q (by simp)]
    exact ⟨rfl, rfl⟩
  · rw [hproc q (by simp)] at hq ⊢
    exact ⟨hq, rfl⟩

theorem Exited.noBirth {status : ℤ} (hp : (s.proc p).state ≠ .unused) (h : Exited s p status t) :
    NoBirth s t := by
  obtain ⟨a, l, -, -, hnodes, hused⟩ := h.ns
  refine ⟨fun x => ?_, fun x hx => ((hused x).mp hx).1, fun q => ?_, fun q hq => ?_⟩
  · rw [hnodes x]
    unfold leftNodes
    split_ifs <;> exact ⟨rfl, rfl, rfl⟩
  · by_cases hqp : q = p
    · rw [hqp, h.self]
      exact ⟨rfl, rfl⟩
    · rw [(h.other q hqp).eq]
      exact ⟨rfl, rfl⟩
  · by_cases hqp : q = p
    · subst hqp
      rw [h.self]
      exact ⟨hp, rfl⟩
    · have hstir := h.other q hqp
      refine ⟨fun hu => hq ?_, by rw [hstir.eq]⟩
      rw [hstir.state_of_ne (by rw [hu]; decide), hu]

/-- An event that creates no process. -/
theorem Stepped.noBirth (he : Enabled s e) (h : Stepped s e none t) : NoBirth s t := by
  have hstate := he.2
  cases h with
  | fork hc =>
    cases hc with
    | fail hcopy => exact hcopy.noBirth.of_refill
  | clone hc =>
    cases hc with
    | fail hcopy => exact hcopy.noBirth.of_refill
  | exit hx => exact hx.noBirth (live_of_running hstate).1
  | wait hw =>
    cases hw with
    | fail => exact NoBirth.refl s
    | reap => exact NoBirth.updProc _ rfl rfl (fun hq => absurd rfl hq)
    | sleep => exact NoBirth.updProc s.mem rfl rfl (fun _ => ⟨(live_of_running hstate).1, rfl⟩)
  | files hneeds hfiles honly =>
    refine NoBirth.of_slot (by rw [honly.rest]) (by rw [honly.rest]) honly.other ?_ ?_ ?_
    · rw [honly.self]
    · rw [honly.self]
    · rw [honly.self]
      exact fun hq => ⟨hq, rfl⟩
  | @dispatch p =>
    have hrunnable : (s.proc p).state = .runnable := hstate
    exact NoBirth.updProc s.mem rfl rfl (fun _ => ⟨by rw [hrunnable]; decide, rfl⟩)
  | yield => exact NoBirth.updProc s.mem rfl rfl (fun _ => ⟨(live_of_running hstate).1, rfl⟩)

theorem Created.birth {fresh : Bool} (h : Created s p fresh (some np) t) :
    Birth s p fresh np t := by
  cases h with
  | @child _ n nodes used l pids u hcopy hplace hchain hpids =>
    obtain ⟨-, -, -, -, hother⟩ := hcopy.frame
    obtain ⟨hnp, hunused, hnext, ⟨tf, pt, hslot⟩, -⟩ := hcopy.child_slot
    have hself : (u.enrolled p np n nodes used l pids).proc np = { u.proc np with
        node := some n, namespacePids := pids, parent := some p, state := .runnable } :=
      update_self _ _ _
    refine ⟨hnp, hunused, fun q hq => ?_, by rw [hself], ?_, hnext,
      n, nodes, l, hplace, hchain, rfl, by rw [hself], by rw [hself]; exact hpids⟩
    · exact (update_of_ne hq _ _).trans
        (hother q (fun heq => hq (Option.some.inj heq).symm))
    · rw [hself]
      show (u.proc np).pid = s.nextpid
      rw [hslot]
      rfl

/-- An event that creates a process is a `fork` or a `clone`. -/
theorem Stepped.birth (h : Stepped s e (some np) t) :
    ∃ supply fresh, (e = if fresh then .clone e.proc supply else .fork e.proc supply)
      ∧ Birth (s.refill supply) e.proc fresh np t := by
  cases h with
  | @fork p supply _ _ hc => exact ⟨supply, false, rfl, hc.birth⟩
  | @clone p supply _ _ hc => exact ⟨supply, true, rfl, hc.birth⟩

theorem Stepped.live_of_birth (he : Enabled s e) (h : Stepped s e (some np) t) :
    (s.proc e.proc).Live := by
  obtain ⟨supply, fresh, hevent, -⟩ := h.birth
  refine live_of_running (he.2.trans ?_)
  rw [hevent]
  cases fresh <;> rfl

/-! ## The first process -/

/-- The slot of the first process after `userinit`. -/
def firstProc (tf : ℕ) (pt : PageTable) : Proc :=
  { pid := 1, state := .runnable, trapframe := some tf, pagetable := some pt, sz := pgSize,
    cwd := some rootIno, node := some 0, namespacePids := update (fun _ => 0) 0 1 }

/-- The root of the namespaces after `userinit`. -/
def rootNode : NamespaceNode :=
  { cntProc := 1, head := none, init := some 0, lastPid := 2, depth := 0 }

/-- **What `userinit` leaves.** -/
theorem started_spec (h : Started s) :
    ∃ tf pt, s.proc = update (fun _ => {}) 0 (firstProc tf pt)
      ∧ s.nodes = update (fun _ => {}) 0 rootNode
      ∧ s.used = update (fun _ => false) 0 true
      ∧ s.initproc = some 0 ∧ s.nextpid = 2 ∧ s.file = (fun _ => {})
      ∧ s.mem.IsPage tf ∧ UserSpace s.mem ∅ pt 1 := by
  obtain ⟨⟨kend, trampoline, outstanding, supply, hinit⟩, p, pt, pte, hp, hpt, hlook⟩ := h
  set b := bootState kend trampoline outstanding supply with hb
  have halloc : allocproc b = allocprocFound b 0 := rfl
  have hmalloc : ∀ k : Kernel, k.used = (fun _ => false) →
      namespaceMalloc k = (some 0, { k with used := update k.used 0 true }) := by
    intro k hk
    unfold namespaceMalloc
    rw [hk]
    rfl
  unfold userinit at hinit
  rw [halloc] at hinit
  rcases allocprocFound_spec (s := b) (i := 0) rfl with
    ⟨m, hfound, -⟩ | ⟨m, tf, pt₁, hfound, htf, -, hspace⟩
  · rw [hfound] at hinit
    cases hinit
  rw [hfound] at hinit
  simp only [ok_bind, deref_some, update_self, Proc.fresh] at hinit
  rcases uvmfirst_spec (hspace _ rfl) with hfault | ⟨pt₂, m₂, hfirst, hkend₂, hmapped⟩
  · rw [hfault] at hinit
    cases hinit
  rw [hfirst] at hinit
  simp only [ok_bind] at hinit
  rw [hmalloc _ rfl] at hinit
  simp only [deref_some, ok_bind] at hinit
  have hs := (Except.ok.inj hinit).symm
  have hproc : s.proc = update (fun _ => {}) 0 (firstProc tf pt₂) := by
    rw [hs]
    simp only [Kernel.updProc, idup, update_self, update_idem]
    rfl
  have hinitproc : s.initproc = some 0 := by
    rw [hs]
    rfl
  have hmem : s.mem = m₂ := by
    rw [hs]
    rfl
  -- the page that the run has mapped is the first page of this process
  obtain rfl : p = 0 := (Option.some.inj (hinitproc.symm.trans hp)).symm
  rw [hproc, update_self] at hpt
  obtain rfl : pt₂ = pt := Option.some.inj hpt
  refine ⟨tf, pt₂, hproc, ?_, ?_, hinitproc, ?_, ?_, ?_, ?_⟩
  · rw [hs]
    rfl
  · rw [hs]
    rfl
  · rw [hs]
    rfl
  · rw [hs]
    rfl
  · rw [hmem]
    exact isPage_of_kend htf hkend₂
  · rw [hmem]
    exact (hmapped pte hlook).user

theorem Started.inv (h : Started s) : KInv s := by
  obtain ⟨tf, pt, hproc, hnodes, hused, -, -, hfile, htf, hspace⟩ := started_spec h
  have h0 : s.proc 0 = firstProc tf pt := by rw [hproc, update_self]
  have hother : ∀ q, q ≠ 0 → s.proc q = {} := fun q hq => by rw [hproc, update_of_ne hq]
  have hlive : (s.proc 0).Live := by
    rw [h0]
    exact ⟨by simp [firstProc], by simp [firstProc]⟩
  have hdead : ∀ q, q ≠ 0 → ¬ (s.proc q).Live := fun q hq => by
    rw [hother q hq]
    exact not_live_of_unused rfl
  have hplace : liveNode s = update (fun _ => none) 0 (some 0) := by
    funext q
    by_cases hq : q = 0
    · rw [hq, liveNode_of_live hlive, h0, update_self]
      rfl
    · rw [liveNode_of_not_live (hdead q hq), update_of_ne hq]
  have hempty : ∀ (nodes : ℕ → NamespaceNode) (x : ℕ), members nodes (fun _ => none) x = 0 := by
    intro nodes x
    by_contra hpos
    obtain ⟨b, -, a, hb, -⟩ := population_pos_iff.mp (Nat.pos_of_ne_zero hpos)
    cases hb
  refine ⟨fun q => ?_, fun f => ?_, ⟨?_, fun i hi h0' => ?_⟩, fun q hq => ?_⟩
  · by_cases hq : q = 0
    · rw [hq, h0]
      rw [← show pageCount pgSize = 1 by decide] at hspace
      exact ⟨fun hc => absurd hc (by simp [firstProc]), fun _ => ⟨pt, tf, rfl, rfl, htf, hspace⟩,
        fun hn => absurd (h0 ▸ hlive) hn, fun _ => ⟨rootIno, rfl⟩⟩
    · rw [hother q hq]
      exact ⟨fun _ => rfl, fun hc => absurd rfl hc, fun _ => ⟨fun _ => rfl, rfl⟩,
        fun hl => absurd rfl hl.1⟩
  · rw [hfile]
    symm
    rw [Nat.cast_eq_zero]
    unfold fdCount openFile
    rw [Finset.card_eq_zero, Finset.filter_eq_empty_iff]
    rintro ⟨q, fd⟩ -
    by_cases hq : q = 0
    · simp only [hq, h0]
      simp [firstProc]
    · simp only [hother q hq]
      simp
  · -- the tree is a single node with a single member
    rw [hplace, hnodes, hused]
    have hroot : update (fun _ => ({} : NamespaceNode)) 0 rootNode 0 = rootNode :=
      update_self _ _ _
    have hused0 : ∀ i, update (fun _ => false) 0 true i = true → i = 0 := by
      intro i hi
      by_contra hne
      rw [update_of_ne hne] at hi
      cases hi
    refine ⟨?_, fun i hi h0' => absurd (hused0 i hi) h0', fun i hi => ?_, fun i hi => ?_,
      fun i hi => ?_, fun i hi => ?_, fun q n hq => ?_⟩
    · rw [hroot]
      exact ⟨update_self _ _ _, rfl, rfl⟩
    · rw [hused0 i hi]
      decide
    · rw [hused0 i hi, hroot]
      decide
    · rw [hused0 i hi, hroot]
      have hzero := hempty (update (fun _ => {}) 0 rootNode) 0
      unfold members at hzero ⊢
      rw [population_join (Finset.mem_range.mpr (by decide)) rfl, if_pos (Above.refl 0), hzero]
      rfl
    · have hne : i ≠ 0 := by
        rintro rfl
        rw [update_self] at hi
        cases hi
      rw [update_of_ne hne]
    · by_cases hq0 : q = 0
      · subst hq0
        rw [update_self] at hq
        cases hq
        exact ⟨by decide, update_self _ _ _⟩
      · rw [update_of_ne hq0] at hq
        cases hq
  · rw [hused] at hi
    rw [update_of_ne h0'] at hi
    cases hi
  · by_cases hq0 : q = 0
    · exact ⟨0, by rw [hq0, h0]; rfl⟩
    · exact absurd hq (hdead q hq0)

/-! ## Runs -/

/-- **The run lemma**: the invariant holds in every reachable state. -/
theorem Reach.inv {n : ℕ} (h : Reach ok n s) : KInv s := by
  induction h with
  | start hs => exact hs.inv
  | step _ he _ hstep ih => exact (stepped_of_ok ih he hstep).inv ih he

/-- Run events one after the other, as long as each is enabled, passes the test and returns. -/
def runEvents (test : Kernel → Event → Bool) : List Event → ℕ × Kernel → Option (ℕ × Kernel)
  | [], x => some x
  | e :: l, (n, s) =>
    if Enabled s e ∧ test s e = true then
      match step s e with
      | .ok (child, t) => runEvents test l (n + created child, t)
      | .error _ => none
    else none

theorem Reach.of_runEvents {test : Kernel → Event → Bool} (htest : ∀ s e, test s e = true → ok s e)
    {l : List Event} {x y : ℕ × Kernel} (h : Reach ok x.1 x.2) (hrun : runEvents test l x
      = some y) :
    Reach ok y.1 y.2 := by
  induction l generalizing x with
  | nil =>
    cases hrun
    exact h
  | cons e l ih =>
    obtain ⟨n, s⟩ := x
    rw [runEvents] at hrun
    split_ifs at hrun with he
    split at hrun
    · next child t hstep => exact ih (h.step he.1 (htest s e he.2) hstep) hrun
    · cases hrun

/-- Ten pages of memory, the `k`-th ten. -/
def tenPages (k : ℕ) : List ℕ := (List.range 10).map fun i => kernBase + (1024 + 10 * k + i) * pgSize

/-- A start of the system. -/
def bootRun : Option (ℕ × Kernel) :=
  match userinit (bootState kernBase 0 ∅ (tenPages 0)) with
  | .ok s => some (1, s)
  | .error _ => none

theorem bootRun_started {x : ℕ × Kernel} (h : bootRun = some x) : x.1 = 1 ∧ Started x.2 := by
  have hcheck : bootRun.any (fun x => (x.2.initproc.bind fun p =>
      (x.2.proc p).pagetable.bind fun pt => pt.lookup 0).isSome) = true := by decide +kernel
  obtain ⟨y, hy, hmapped⟩ := (Option.any_eq_true _ _).mp hcheck
  rw [h] at hy
  cases hy
  obtain ⟨pte, hpte⟩ := Option.isSome_iff_exists.mp hmapped
  obtain ⟨p, hp, hpt⟩ := Option.bind_eq_some_iff.mp hpte
  obtain ⟨pt, hpt, hlook⟩ := Option.bind_eq_some_iff.mp hpt
  unfold bootRun at h
  split at h
  · next s hinit =>
    cases h
    exact ⟨rfl, ⟨kernBase, 0, ∅, tenPages 0, hinit⟩, p, pt, pte, hp, hpt, hlook⟩
  · cases h

theorem reach_of_run (test : Kernel → Event → Bool) (htest : ∀ s e, test s e = true → ok s e)
    (l : List Event) (check : ℕ × Kernel → Bool)
    (h : (bootRun.bind (runEvents test l)).any check = true) :
    ∃ n s, Reach ok n s ∧ check (n, s) = true := by
  obtain ⟨y, hy, hcheck⟩ := (Option.any_eq_true _ _).mp h
  obtain ⟨x, hx, hrun⟩ := Option.bind_eq_some_iff.mp hy
  obtain ⟨hone, hstart⟩ := bootRun_started hx
  refine ⟨y.1, y.2, Reach.of_runEvents htest ?_ hrun, hcheck⟩
  rw [hone]
  exact Reach.start hstart

open Classical in
/-- **Namespace accounting.**  In every reachable state a node is used iff it is the root or
its count is positive, the head of a used node other than the root is used and one less
deep, the count of a used node is the number of processes that have been created and have
not exited and whose head chain it is on, and so a live process has no freed node on
its chain.  Node `0` is the root: it is the one that `userinit` allocates. -/
theorem namespace_accounting {n : ℕ} {s : Kernel} (h : Reach (fun _ _ => True) n s) :
    (∀ i, i < nnmnd → (s.used i = true ↔ i = 0 ∨ 0 < (s.nodes i).cntProc))
      ∧ ((s.nodes 0).head = none ∧ (s.nodes 0).depth = 0)
      ∧ (∀ i, s.used i = true → i ≠ 0 → ∃ hd, (s.nodes i).head = some hd ∧ s.used hd = true
        ∧ (s.nodes i).depth = (s.nodes hd).depth + 1)
      ∧ (∀ i, s.used i = true → (s.nodes i).cntProc = ((Finset.range nproc).filter fun q =>
          (s.proc q).Live ∧ ∃ a, (s.proc q).node = some a ∧ Above (heads s.nodes) a i).card)
      ∧ ∀ q, (s.proc q).Live → ∃ a, (s.proc q).node = some a
        ∧ ∀ x, Above (heads s.nodes) a x → s.used x = true := by
  have hinv := h.inv
  refine ⟨fun i hi => ⟨fun hu => ?_, ?_⟩, hinv.ns.root.2, hinv.ns.inner, fun i hi => ?_, fun q hq => ?_⟩
  · by_cases h0 : i = 0
    · exact Or.inl h0
    · exact Or.inr (hinv.ns.busy i hu h0)
  · rintro (rfl | hpos)
    · exact hinv.ns.root.1
    · by_contra hu
      rw [hinv.ns.idle i (Bool.eq_false_iff.mpr hu)] at hpos
      exact lt_irrefl 0 hpos
  · rw [hinv.ns.count i hi]
    unfold members population liveNode
    refine congrArg Nat.cast (congrArg Finset.card (Finset.filter_congr (fun q _ => ?_)))
    constructor
    · rintro ⟨a, ha, habove⟩
      split_ifs at ha with hl
      exact ⟨hl, a, ha, habove⟩
    · rintro ⟨hl, a, ha, habove⟩
      exact ⟨a, by rw [if_pos hl, ha], habove⟩
  · obtain ⟨a, ha, -, -, hused⟩ := hinv.exists_node hq
    exact ⟨a, ha, fun x hx => hinv.ns.above_used hused hx⟩

/-- After a `clone` of the first process, node `1` is used and its head is the root. -/
theorem namespace_accounting_clone :
    ∃ n s, Reach (fun _ _ => True) n s ∧ s.used 1 = true
      ∧ ∃ hd, (s.nodes 1).head = some hd ∧ s.used hd = true
        ∧ (s.nodes 1).depth = (s.nodes hd).depth + 1 := by
  obtain ⟨n, s, hreach, hused⟩ := reach_of_run (fun _ _ => true) (fun _ _ _ => trivial)
    [.dispatch 0, .clone 0 (tenPages 1)] (fun x => x.2.used 1) (by decide +kernel)
  exact ⟨n, s, hreach, hused, (namespace_accounting hreach).2.2.1 1 hused (by decide)⟩

end Xv6
