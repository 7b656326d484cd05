/-
# Global pids and pids in the root namespace

`allocproc` takes the global pid from `nextpid`, and `fork` and `clone` take the pid in
the root namespace from `last_pid` of the root, which they reach only when all
memory has been allocated.  The two counters stay together as long as every call that
finds a slot also gets its memory (`Served`); then the two pids of every process agree
(`root_pids_agree`).  After a call that has failed for lack of memory they do not
(`root_pids_differ`).
-/
import Xv6.NamespacePids
import Xv6.ForkCost

namespace Xv6

open Function HeadChain

variable {s t : Kernel} {n p : ℕ} {k : ℕ → ℕ}

/-! ## Calls that get their memory -/

/-- The answers of the allocator for a call of `fork` or `clone`. -/
def Event.pages : Event → Option (List ℕ)
  | .fork _ supply | .clone _ supply => some supply
  | _ => none

/-- If the event is a `fork` or a `clone` and there is a slot, the allocator serves all the
pages that the call asks for. -/
def Served (s : Kernel) (e : Event) : Prop :=
  ∀ supply ∈ e.pages, (∃ i < nproc, (s.proc i).state = .unused) →
    (takePages (forkPages (pageCount (s.proc e.proc).sz)) (s.refill supply).mem).isSome = true

instance (s : Kernel) (e : Event) : Decidable (Served s e) :=
  inferInstanceAs (Decidable (∀ _ ∈ e.pages, _))

theorem fork_none (h : fork s p = .ok (none, t)) : forkCopy s p = .ok (none, t) := by
  unfold fork at h
  obtain ⟨⟨np, u⟩, hcopy, h⟩ := bind_eq_ok_iff.mp h
  cases np with
  | none => exact hcopy.trans h
  | some np =>
    obtain ⟨v, -, h⟩ := bind_eq_ok_iff.mp h
    cases h

theorem clone_none (h : clone s p = .ok (none, t)) : forkCopy s p = .ok (none, t) := by
  unfold clone at h
  obtain ⟨⟨np, u⟩, hcopy, h⟩ := bind_eq_ok_iff.mp h
  cases np with
  | none => exact hcopy.trans h
  | some np =>
    obtain ⟨n, -, h⟩ := bind_eq_ok_iff.mp h
    obtain ⟨hd, -, h⟩ := bind_eq_ok_iff.mp h
    obtain ⟨v, -, h⟩ := bind_eq_ok_iff.mp h
    cases h

/-- A call that is served and has no child found no slot, so it took no pid. -/
theorem Copied.nextpid_of_served (h : Copied s p none t) (hrun : forkCopy s p = .ok (none, t))
    (hserved : (∃ i < nproc, (s.proc i).state = .unused) →
      (takePages (forkPages (pageCount (s.proc p).sz)) s.mem).isSome = true) :
    t.nextpid = s.nextpid := by
  cases h with
  | noSlot => rfl
  | @noMemory i m hi hunused =>
    have hsome := forkCopy_isSome ⟨i, hi, hunused⟩ hrun
    rw [hserved ⟨i, hi, hunused⟩] at hsome
    cases hsome

theorem Stepped.nextpid_of_served {e : Event} (h : Stepped s e none t)
    (hstep : step s e = .ok (none, t)) (hok : Served s e) : t.nextpid = s.nextpid := by
  cases h with
  | @fork p supply _ _ hc =>
    cases hc with
    | fail hcopy => exact hcopy.nextpid_of_served (fork_none hstep) (hok supply rfl)
  | @clone p supply _ _ hc =>
    cases hc with
    | fail hcopy => exact hcopy.nextpid_of_served (clone_none hstep) (hok supply rfl)
  | exit hx => exact hx.nextpid
  | wait hw => cases hw <;> rfl
  | files _ _ honly => rw [honly.rest]
  | dispatch => rfl
  | yield => rfl

/-! ## The two counters -/

/-- After `n` processes have been created, both counters are at `n + 1`, and the process `q` is
the `k q`-th in both numberings. -/
structure RootInv (n : ℕ) (k : ℕ → ℕ) (s : Kernel) : Prop where
  nextpid : s.nextpid = int32 (n + 1)
  last : (s.nodes 0).lastPid = int32 (n + 1)
  pid : ∀ q, (s.proc q).state ≠ .unused → 1 ≤ k q ∧ k q ≤ n ∧ (s.proc q).pid = int32 (k q)
    ∧ (s.proc q).namespacePids 0 = int32 (k q)
  inj : ∀ q q', (s.proc q).state ≠ .unused → (s.proc q').state ≠ .unused → k q = k q' → q = q'

theorem RootInv.of_noBirth (h : RootInv n k s) (hst : NoBirth s t) (hnext : t.nextpid = s.nextpid) :
    RootInv n k t where
  nextpid := hnext.trans h.nextpid
  last := (hst.nodes 0).2.2.trans h.last
  pid := fun q hq => by
    obtain ⟨hs, hpid⟩ := hst.slot q hq
    rw [hpid, (hst.place q).2]
    exact h.pid q hs
  inj := fun q q' hq hq' => h.inj q q' (hst.slot q hq).1 (hst.slot q' hq').1

/-- A new node is not the root. -/
theorem NewPlace.nodes_zero {np : ℕ} {fresh : Bool} {nodes : ℕ → NamespaceNode} {used : ℕ → Bool}
    (h : NewPlace s p np fresh n nodes used) (h0 : s.used 0 = true) : nodes 0 = s.nodes 0 := by
  cases h with
  | same => rfl
  | fresh hn hmalloc hi hfree hroom =>
    refine update_of_ne ?_ _ _
    rintro rfl
    rw [h0] at hfree
    cases hfree

/-- The child takes the next number in both numberings. -/
theorem Birth.rootInv (hinv : KInv s) (hheir : HeirInv s) (h : RootInv n k s) {np : ℕ}
    (hp : (s.proc p).Live) {fresh : Bool} (hbirth : Birth s p fresh np t) :
    RootInv (n + 1) (update k np (n + 1)) t := by
  obtain ⟨a, nodes, l, hplace, hchain, hnodes, hnode, hpids⟩ := hbirth.place
  have hroot : nodes 0 = s.nodes 0 := hplace.nodes_zero hinv.ns.root.1
  -- the root is on the chain of the child
  have hmem : 0 ∈ l := by
    have habove := (hbirth.heirInv hinv hheir hp).chain np a hnode
    rw [hnodes, heads_enteredNodes] at habove
    exact (hchain.mem_iff 0).mpr habove
  have hpid0 : (t.proc np).namespacePids 0 = int32 (n + 1) := by
    have h0 := hpids 0 hmem
    rw [hroot, hinv.ns.root.2.2, h.last] at h0
    exact h0
  have hstep : int32 (int32 (n + 1) + 1) = int32 ((n + 1 : ℕ) + 1) := by
    rw [int32_succ]
    push_cast
    rfl
  refine ⟨?_, ?_, fun q hq => ?_, fun q q' hq hq' heq => ?_⟩
  · rw [hbirth.nextpid, h.nextpid, hstep]
  · rw [hnodes]
    unfold enteredNodes
    rw [if_pos hmem]
    show int32 ((nodes 0).lastPid + 1) = _
    rw [hroot, h.last, hstep]
  · by_cases hqn : q = np
    · rw [hqn, update_self, hbirth.pid, h.nextpid, hpid0]
      exact ⟨by omega, le_rfl, by push_cast; rfl, by push_cast; rfl⟩
    · rw [hbirth.other q hqn] at hq ⊢
      rw [update_of_ne hqn]
      obtain ⟨hpos, hle, hrest⟩ := h.pid q hq
      exact ⟨hpos, by omega, hrest⟩
  · -- the number of the child is larger than the others
    have hold : ∀ x, x ≠ np → (t.proc x).state ≠ .unused → k x ≤ n := fun x hx hs =>
      (h.pid x (by rw [← hbirth.other x hx]; exact hs)).2.1
    by_cases hqn : q = np
    · by_cases hqn' : q' = np
      · rw [hqn, hqn']
      · rw [hqn, update_self, update_of_ne hqn'] at heq
        have := hold q' hqn' hq'
        omega
    · rw [update_of_ne hqn] at heq
      by_cases hqn' : q' = np
      · rw [hqn', update_self] at heq
        have := hold q hqn hq
        omega
      · rw [update_of_ne hqn'] at heq
        rw [hbirth.other q hqn] at hq
        rw [hbirth.other q' hqn'] at hq'
        exact h.inj q q' hq hq' heq

/-- **The run lemma**: with all calls served, both counters count the processes. -/
theorem Reach.rootInv (h : Reach Served n s) : ∃ k, RootInv n k s := by
  induction h with
  | @start s hs =>
    obtain ⟨tf, pt, hproc, hnodes, -, -, hnext, -⟩ := started_spec hs
    have hother : ∀ q, (s.proc q).state ≠ .unused → q = 0 := by
      intro q hq
      by_contra hne
      rw [hproc, update_of_ne hne] at hq
      exact hq rfl
    refine ⟨fun _ => 1, ?_, ?_, fun q hq => ?_, fun q q' hq hq' _ => ?_⟩
    · rw [hnext]
      rfl
    · rw [hnodes, update_self]
      rfl
    · rw [hother q hq, hproc, update_self]
      exact ⟨le_rfl, le_rfl, rfl, rfl⟩
    · rw [hother q hq, hother q' hq']
  | @step n s t e r hreach he hok hstep ih =>
    obtain ⟨k, hk⟩ := ih
    have hst := stepped_of_ok hreach.inv he hstep
    cases r with
    | none => exact ⟨k, hk.of_noBirth (hst.noBirth he) (hst.nextpid_of_served hstep hok)⟩
    | some np =>
      obtain ⟨supply, fresh, -, hbirth⟩ := hst.birth
      have hlive : (s.proc e.proc).Live := hst.live_of_birth he
      have hheir := hreach.heirInv
      exact ⟨_, hbirth.rootInv (hreach.inv.refill supply)
        ⟨hheir.inner, hheir.chain, hheir.placed⟩ ⟨hk.nextpid, hk.last, hk.pid, hk.inj⟩ hlive⟩

/-! ## What the calls report -/

/-- `kill` finds a process by its pid in the root namespace. -/
theorem RootInv.killTarget_eq (h : RootInv n k s) (hinv : KInv s) (hn : n < 2 ^ 31) {q : ℕ}
    (hq : (s.proc q).state ≠ .unused) (hlt : q < nproc) :
    killTarget s ((s.proc q).namespacePids 0) = some q := by
  obtain ⟨hpos, hle, hpid, hpid0⟩ := h.pid q hq
  unfold killTarget
  cases hfind : (List.range nproc).find? (fun x => (s.proc x).pid = (s.proc q).namespacePids 0) with
  | none =>
    have hno := List.find?_eq_none.mp hfind q (List.mem_range.mpr hlt)
    simp [hpid, hpid0] at hno
  | some x =>
    have hx : (s.proc x).pid = int32 (k q) := by simpa [hpid0] using List.find?_some hfind
    have hused : (s.proc x).state ≠ .unused := by
      intro hu
      -- an unused slot has pid 0
      have hzero : (s.proc x).pid = int32 (0 : ℕ) := by
        rw [← (hinv.slots x).clear hu]
        rfl
      rw [hzero] at hx
      have := int32_inj (by omega) (by omega) hx
      omega
    obtain ⟨-, hle', hpid', -⟩ := h.pid x hused
    rw [hpid'] at hx
    rw [h.inj x q hused hq (int32_inj (by omega) (by omega) hx)]

/-- **Global and root-namespace pids agree** in every run in which each `fork` and `clone` that
finds a slot gets all the memory it asks for.  So in the root namespace `getpid` and
`ps_list` report the global pids, `fork` and `wait` return pids of the root namespace,
and `kill` finds the process with such a pid. -/
theorem root_pids_agree {n : ℕ} {s : Kernel} (h : Reach Served n s) :
    (∀ q, (s.proc q).state ≠ .unused → (s.proc q).pid = (s.proc q).namespacePids 0)
      ∧ (∀ p, (s.proc p).state ≠ .unused → (s.proc p).node = some 0 →
        sysGetpid s p = .ok (s.proc p).pid
          ∧ ∀ limit, 0 < limit → psList s p limit
            = .ok ((((List.range nproc).filter fun q => (s.proc q).state ≠ .unused).map
              fun q => (s.proc q).pid).take limit.toNat))
      ∧ (∀ e np t, Enabled s e → Served s e → step s e = .ok (some np, t) →
        (t.proc np).pid = (t.proc np).namespacePids 0)
      ∧ (∀ p copyFails v t, wait s p copyFails = .ok (.ret v, t) →
        v = -1 ∨ ∃ z < nproc, (s.proc z).parent = some p ∧ (s.proc z).state = .zombie
          ∧ v = (s.proc z).namespacePids 0)
      ∧ (n < 2 ^ 31 → ∀ q, (s.proc q).state ≠ .unused →
        killTarget s ((s.proc q).namespacePids 0) = some q) := by
  obtain ⟨k, hk⟩ := h.rootInv
  have hagree : ∀ q, (s.proc q).state ≠ .unused → (s.proc q).pid = (s.proc q).namespacePids 0 := by
    intro q hq
    obtain ⟨-, -, hpid, hpid0⟩ := hk.pid q hq
    rw [hpid, hpid0]
  refine ⟨hagree, fun p hp hnode => ⟨?_, fun limit hlimit => ?_⟩, fun e np t he hok hstep => ?_,
    fun p copyFails v t hwait => ?_, fun hn q hq => ?_⟩
  · unfold sysGetpid
    rw [hnode, deref_some, ok_bind, h.inv.ns.root.2.2, if_neg (by decide), hagree p hp]
    rfl
  · rw [h.heirInv.psList_root h.inv hnode hlimit]
    congr 2
    refine List.map_congr_left fun q hq => (hagree q ?_).symm
    simpa using (List.mem_filter.mp hq).2
  · obtain ⟨k', hk'⟩ := (h.step he hok hstep).rootInv
    obtain ⟨_, _, -, hbirth⟩ := (stepped_of_ok h.inv he hstep).birth
    obtain ⟨-, -, hpid, hpid0⟩ := hk'.pid np (by rw [hbirth.state]; decide)
    rw [hpid, hpid0]
  · obtain ⟨r, u, hrun, hwaited⟩ := wait_spec h.inv.slots p copyFails
    rw [hwait] at hrun
    cases hrun
    cases hwaited with
    | fail => exact Or.inl rfl
    | @reap pp m hpp hparent hzombie =>
      exact Or.inr ⟨pp, hpp, hparent, hzombie, hagree pp (by rw [hzombie]; decide)⟩
  · exact hk.killTarget_eq h.inv hn hq (h.heirInv.placed q hq).1

/-- After a `fork` with enough memory the child has the pid `2` twice. -/
theorem root_pids_agree_fork :
    ∃ n s, Reach Served n s ∧ (s.proc 1).pid = 2 ∧ (s.proc 1).pid = (s.proc 1).namespacePids 0 := by
  obtain ⟨n, s, hreach, hcheck⟩ := reach_of_run (fun s e => decide (Served s e))
    (fun s e => of_decide_eq_true) [.dispatch 0, .fork 0 (tenPages 1)]
    (fun x => (x.2.proc 1).state ≠ .unused ∧ (x.2.proc 1).pid = 2) (by decide +kernel)
  obtain ⟨hstate, hpid⟩ := of_decide_eq_true hcheck
  exact ⟨n, s, hreach, hpid, (root_pids_agree hreach).1 1 hstate⟩

/-- **The pids part**: a `fork` for which there is no memory takes a global pid all the same.  The
child of the next `fork` has the global pid `3`, which `fork` returns, and the pid `2` in
the root namespace, which `getpid` reports and `kill` does not find. -/
theorem root_pids_differ :
    ∃ n s, Reach (fun _ _ => True) n s ∧ (s.proc 1).state ≠ .unused ∧ (s.proc 1).pid = 3
      ∧ (s.proc 1).namespacePids 0 = 2 ∧ sysGetpid s 1 = .ok 2 ∧ killTarget s 2 = none := by
  obtain ⟨n, s, hreach, hcheck⟩ := reach_of_run (fun _ _ => true) (fun _ _ _ => trivial)
    [.dispatch 0, .fork 0 [], .fork 0 (tenPages 1)]
    (fun x => (x.2.proc 1).state ≠ .unused ∧ (x.2.proc 1).pid = 3
      ∧ (x.2.proc 1).namespacePids 0 = 2 ∧ sysGetpid x.2 1 = .ok 2 ∧ killTarget x.2 2 = none)
    (by decide +kernel)
  exact ⟨n, s, hreach, of_decide_eq_true hcheck⟩

end Xv6
