/-
# Parents stay inside the namespace tree

`reparent` looks for a new parent along the head chain of the exiting process, after `clean_node`
may have freed nodes of it.  `KinInv` is the invariant that makes this safe: an `init` field
points to a live process of that very node, and the parent of a live process is live, on
the chain of its child.  `exit_lineage` says what `exit` does to the two fields.
-/
import Xv6.NamespaceHeirs

namespace Xv6

open Function HeadChain

variable {s t : Kernel} {p : ℕ} {status : ℤ}

/-! ## What `exit` does to parents and inits -/

theorem wakeup_parent (s : Kernel) (me : ℕ) (chan : Option ℕ) (q : ℕ) :
    ((wakeup s me chan).proc q).parent = (s.proc q).parent := by
  unfold wakeup
  simp only
  split_ifs <;> rfl

/-- One turn of `reparent`, seen from the parents. -/
theorem reparentOne_parent (p : ℕ) (newInit : Option ℕ) (s : Kernel) (pp q : ℕ) :
    ((reparentOne p newInit s pp).proc q).parent
      = if q = pp ∧ (s.proc q).parent = some p then newInit else (s.proc q).parent := by
  unfold reparentOne
  by_cases hpp : (s.proc pp).parent = some p
  · rw [if_pos hpp]
    rw [wakeup_parent]
    by_cases hq : q = pp
    · subst hq
      simp [Kernel.updProc, hpp]
    · simp [Kernel.updProc, hq]
  · rw [if_neg hpp, if_neg]
    rintro ⟨rfl, hq⟩
    exact hpp hq

/-- The loop of `reparent` hands over the children in its range. -/
theorem reparentLoop_parent (p : ℕ) (newInit : Option ℕ) (l : List ℕ) (s : Kernel) (q : ℕ) :
    ((l.foldl (reparentOne p newInit) s).proc q).parent
      = if q ∈ l ∧ (s.proc q).parent = some p then newInit else (s.proc q).parent := by
  induction l generalizing s with
  | nil => simp
  | cons pp l ih =>
    rw [List.foldl_cons, ih, reparentOne_parent]
    by_cases hq : q = pp
    · subst hq
      by_cases hpar : (s.proc q).parent = some p <;> simp [hpar]
    · simp [hq]

/-- **What `reparent` does to parents and inits**: the `init` field that points to the exiting process is
cleared, and its children go to the first init that is left on its head chain. -/
theorem reparent_lineage {n : ℕ} {l : List ℕ} (h : reparent s p = .ok t)
    (hnode : (s.proc p).node = some n) (hchain : Chain (heads s.nodes) (some n) l)
    (hfuel : l.length ≤ chainFuel) :
    (∀ x, (t.nodes x).init = if x = n ∧ (s.nodes n).init = some p then none else (s.nodes x).init)
      ∧ ∀ q, (t.proc q).parent = if q < nproc ∧ (s.proc q).parent = some p then
          (l.findSome? fun x => (t.nodes x).init).or s.initproc else (s.proc q).parent := by
  unfold reparent at h
  rw [hnode, deref_some, ok_bind] at h
  simp only at h
  set nodes := if (s.nodes n).init = some p then
    update s.nodes n { s.nodes n with init := none } else s.nodes with hnodes
  have hother : ∀ x, x ≠ n → nodes x = s.nodes x := by
    intro x hx
    rw [hnodes]
    split_ifs
    · exact update_of_ne hx _ _
    · rfl
  have hself : (nodes n).init = if (s.nodes n).init = some p then none else (s.nodes n).init := by
    rw [hnodes]
    split_ifs
    · rw [update_self]
    · rfl
  have hheads : heads nodes = heads s.nodes := by
    funext x
    unfold heads
    by_cases hx : x = n
    · rw [hx, hnodes]
      split_ifs
      · rw [update_self]
      · rfl
    · rw [hother x hx]
  rw [findInit_spec (by rw [hheads]; exact hchain) hfuel s.initproc, ok_bind] at h
  obtain rfl := Except.ok.inj h
  set newInit := (l.findSome? fun x => (nodes x).init).or s.initproc with hnew
  have hrest : ((List.range nproc).foldl (reparentOne p newInit) { s with nodes := nodes }).nodes = nodes := by
    rw [(reparentLoop_stirred p newInit (List.range nproc) { s with nodes := nodes }).1]
  refine ⟨fun x => ?_, fun q => ?_⟩
  · rw [hrest]
    by_cases hx : x = n
    · rw [hx, hself]
      simp only [true_and]
    · rw [hother x hx, if_neg fun hc => hx hc.1]
  · rw [hrest, reparentLoop_parent]
    simp only [List.mem_range]
    rfl

/-- **What `exit` does to parents and inits.** -/
theorem exit_lineage (h : KInv s) (hp : p < nproc) (hrun : (s.proc p).state = .running)
    (hexit : exit s p status = .ok t) :
    ∃ n l, (s.proc p).node = some n ∧ Chain (heads s.nodes) (some n) l
      ∧ (∀ x, (t.nodes x).init = if x = n ∧ (s.nodes n).init = some p then none else (s.nodes x).init)
      ∧ ∀ q, (t.proc q).parent = if q < nproc ∧ (s.proc q).parent = some p then
          (l.findSome? fun x => (t.nodes x).init).or s.initproc else (s.proc q).parent := by
  have hlive := live_of_running hrun
  obtain ⟨n, hnode, hplace, -, -⟩ := h.exists_node hlive
  obtain ⟨ip, hcwd⟩ := (h.slots p).dir hlive
  obtain ⟨s₁, hclose, -, hrest₁, hproc₁⟩ := closeOpen_spec hp hcwd h.files
  have hnodes₁ : s₁.nodes = s.nodes := by rw [hrest₁]
  have hparent₁ : ∀ q, (s₁.proc q).parent = (s.proc q).parent ∧ (s₁.proc q).node = (s.proc q).node := by
    intro q
    rw [hproc₁]
    by_cases hq : q = p
    · rw [hq, update_self]
      exact ⟨rfl, rfl⟩
    · rw [update_of_ne hq]
      exact ⟨rfl, rfl⟩
  have hns₁ : NsInv s₁.nodes s₁.used (liveNode s) := by
    rw [hnodes₁, show s₁.used = s.used by rw [hrest₁]]
    exact h.ns
  obtain ⟨l, used, hchain, hfuel, -, hleave, -⟩ :=
    leaveNamespaces_spec hns₁ ((hparent₁ p).2.trans hnode) hplace
  -- `clean_node` and the counts do not touch the `init` fields
  have hleft : ∀ x, (leftNodes s₁.nodes l x).init = (s.nodes x).init := by
    intro x
    rw [hnodes₁]
    unfold leftNodes
    split_ifs <;> rfl
  unfold exit at hexit
  split_ifs at hexit
  rw [hclose, ok_bind, hleave, ok_bind] at hexit
  obtain ⟨s₃, hrep, hexit⟩ := bind_eq_ok_iff.mp hexit
  cases hexit
  obtain ⟨hinit₃, hparent₃⟩ := reparent_lineage hrep ((hparent₁ p).2.trans hnode)
    (by rw [heads_leftNodes]; exact hchain) hfuel
  refine ⟨n, l, hnode, hnodes₁ ▸ hchain, fun x => ?_, fun q => ?_⟩
  · show (s₃.nodes x).init = _
    rw [hinit₃ x, hleft n, hleft x]
  · have hlast : (((wakeup s₃ p (s₃.proc p).parent).updProc p fun x =>
        { x with xstate := status, state := .zombie }).proc q).parent = (s₃.proc q).parent := by
      rw [← wakeup_parent s₃ p (s₃.proc p).parent q]
      by_cases hq : q = p
      · rw [hq]
        simp only [Kernel.updProc, update_self]
      · simp only [Kernel.updProc, update_of_ne hq]
    rw [hlast, hparent₃ q]
    show (if q < nproc ∧ (s₁.proc q).parent = some p then _ else (s₁.proc q).parent) = _
    rw [(hparent₁ q).1, show s₁.initproc = s.initproc by rw [hrest₁]]
    rfl

/-! ## The invariant -/

/-- The parent of a live process is live and on the chain of its child, and so is the process that an
`init` field points to, in that node.  A zombie has a live parent too, but its own
node may have been freed and linked elsewhere. -/
structure KinInv (s : Kernel) : Prop where
  parent : ∀ q a, (s.proc q).Live → s.initproc ≠ some q → (s.proc q).node = some a →
    ∃ r b, (s.proc q).parent = some r ∧ (s.proc r).Live ∧ (s.proc r).node = some b
      ∧ Above (heads s.nodes) a b
  zombie : ∀ q, (s.proc q).state = .zombie → ∃ r, (s.proc q).parent = some r ∧ (s.proc r).Live
  init : ∀ x q, (s.nodes x).init = some q → (s.proc q).Live ∧ (s.proc q).node = some x
  first : ∃ i, s.initproc = some i ∧ (s.nodes 0).init = some i

/-- Events that neither create a process nor end one. -/
theorem KinInv.of_quiet (h : KinInv s) (hnodes : t.nodes = s.nodes)
    (hinit : t.initproc = s.initproc) (hlive : ∀ q, (t.proc q).Live ↔ (s.proc q).Live)
    (hzombie : ∀ q, (t.proc q).state = .zombie → (s.proc q).state = .zombie)
    (hnode : ∀ q, (t.proc q).node = (s.proc q).node)
    (hparent : ∀ q, (t.proc q).state ≠ .unused → (t.proc q).parent = (s.proc q).parent) :
    KinInv t := by
  refine ⟨fun q a hq hne ha => ?_, fun q hq => ?_, fun x q hx => ?_, ?_⟩
  · rw [hinit] at hne
    obtain ⟨r, b, hr, hrlive, hb, habove⟩ := h.parent q a ((hlive q).mp hq) hne ((hnode q).symm.trans ha)
    refine ⟨r, b, (hparent q hq.1).trans hr, (hlive r).mpr hrlive, (hnode r).trans hb, ?_⟩
    rw [hnodes]
    exact habove
  · obtain ⟨r, hr, hrlive⟩ := h.zombie q (hzombie q hq)
    refine ⟨r, (hparent q ?_).trans hr, (hlive r).mpr hrlive⟩
    rw [hq]
    decide
  · rw [hnodes] at hx
    obtain ⟨hqlive, hqx⟩ := h.init x q hx
    exact ⟨(hlive q).mpr hqlive, (hnode q).trans hqx⟩
  · rw [hinit, hnodes]
    exact h.first

theorem KinInv.of_updProc (h : KinInv s) (m : PagePool) (p : ℕ) {f : Proc → Proc}
    (hlive : (f (s.proc p)).Live ↔ (s.proc p).Live)
    (hzombie : (f (s.proc p)).state = .zombie → (s.proc p).state = .zombie)
    (hnode : (f (s.proc p)).node = (s.proc p).node)
    (hparent : (f (s.proc p)).state ≠ .unused → (f (s.proc p)).parent = (s.proc p).parent) :
    KinInv (Kernel.updProc { s with mem := m } p f) := by
  have hself : (Kernel.updProc { s with mem := m } p f).proc p = f (s.proc p) := update_self _ _ _
  have hother : ∀ q, q ≠ p → (Kernel.updProc { s with mem := m } p f).proc q = s.proc q := fun q hq =>
    update_of_ne hq _ _
  refine h.of_quiet rfl rfl (fun q => ?_) (fun q => ?_) (fun q => ?_) (fun q => ?_)
  · by_cases hq : q = p
    · rw [hq, hself]
      exact hlive
    · rw [hother q hq]
  · by_cases hq : q = p
    · rw [hq, hself]
      exact hzombie
    · rw [hother q hq]
      exact fun hz => hz
  · by_cases hq : q = p
    · rw [hq, hself]
      exact hnode
    · rw [hother q hq]
  · by_cases hq : q = p
    · rw [hq, hself]
      exact hparent
    · rw [hother q hq]
      exact fun _ => rfl

/-- **The heir of an exiting process** is the init of the nearest node that still has one. -/
theorem exit_heir (hinv : KInv s) (hheir : HeirInv s) (h : KinInv s) (hp : p < nproc)
    (hrun : (s.proc p).state = .running) (hexit : exit s p status = .ok t) :
    ∃ n x r, (s.proc p).node = some n ∧ Above (heads s.nodes) n x ∧ (t.nodes x).init = some r
      ∧ (∀ y, Above (heads s.nodes) n y → Above (heads s.nodes) y x → y ≠ x → (t.nodes y).init = none)
      ∧ (∀ y, (t.nodes y).init = if y = n ∧ (s.nodes n).init = some p then none else (s.nodes y).init)
      ∧ ∀ q, (t.proc q).parent
        = if q < nproc ∧ (s.proc q).parent = some p then some r else (s.proc q).parent := by
  obtain ⟨n, l, hnode, hchain, hinit, hparent⟩ := exit_lineage hinv hp hrun hexit
  have hne : s.initproc ≠ some p := by
    intro hip
    unfold exit at hexit
    rw [if_pos hip] at hexit
    cases hexit
  -- the init of the root is left
  obtain ⟨i, hi, hroot⟩ := h.first
  have hroot' : (t.nodes 0).init = some i := by
    rw [hinit 0, if_neg, hroot]
    rintro ⟨h0, hnp⟩
    rw [← h0, hroot] at hnp
    exact hne (hi.trans hnp)
  have hsome : (l.findSome? fun x => (t.nodes x).init).isSome = true := by
    rw [List.findSome?_isSome_iff]
    refine ⟨0, (hchain.mem_iff 0).mpr (hheir.chain p n hnode), ?_⟩
    rw [hroot']
    rfl
  obtain ⟨r, hr⟩ := Option.isSome_iff_exists.mp hsome
  obtain ⟨x, hx, hxr, hnearest⟩ := hchain.nearest_of_findSome? hr
  refine ⟨n, x, r, hnode, hx, hxr, hnearest, hinit, fun q => ?_⟩
  rw [hparent q, hr]
  rfl

/-- **`exit`** keeps it: the children go up the chain, to a node whose init is live. -/
theorem KinInv.exit (hinv : KInv s) (hheir : HeirInv s) (h : KinInv s) (hp : p < nproc)
    (hrun : (s.proc p).state = .running) (hexit : exit s p status = .ok t)
    (hexited : Exited s p status t) : KinInv t := by
  obtain ⟨n, x, r, hnode, hx, hxr, -, hinit, hparent⟩ := exit_heir hinv hheir h hp hrun hexit
  have hplive := live_of_running hrun
  have hne : s.initproc ≠ some p := by
    intro hip
    unfold Xv6.exit at hexit
    rw [if_pos hip] at hexit
    cases hexit
  have hquiet := hexited.noBirth hplive.1
  have hheads : heads t.nodes = heads s.nodes := funext fun y => (hquiet.nodes y).1
  have hnodes : ∀ q, (t.proc q).node = (s.proc q).node := fun q => (hquiet.place q).1
  have hlive : ∀ q, q ≠ p → ((t.proc q).Live ↔ (s.proc q).Live) := fun q hq =>
    (hexited.other q hq).live_iff
  have hdead : ¬ (t.proc p).Live := by
    rw [hexited.self]
    exact fun hl => hl.2 rfl
  have hinit' : ∀ y q, (t.nodes y).init = some q → (t.proc q).Live ∧ (t.proc q).node = some y := by
    intro y q hy
    rw [hinit y] at hy
    split_ifs at hy with hcleared
    obtain ⟨hqlive, hqy⟩ := h.init y q hy
    have hqp : q ≠ p := by
      rintro rfl
      rw [hnode] at hqy
      cases hqy
      exact hcleared ⟨rfl, hy⟩
    exact ⟨(hlive q hqp).mpr hqlive, (hnodes q).trans hqy⟩
  obtain ⟨hrlive, hrx⟩ := hinit' x r hxr
  -- the new parent of a process whose parent was live
  have hnew : ∀ q r₀, q < nproc → (s.proc q).parent = some r₀ → (s.proc r₀).Live →
      (r₀ = p ∧ (t.proc q).parent = some r) ∨ ((t.proc q).parent = some r₀ ∧ (t.proc r₀).Live) := by
    intro q r₀ hq hr₀ hr₀live
    by_cases hr₀p : r₀ = p
    · left
      refine ⟨hr₀p, ?_⟩
      rw [hparent q, if_pos ⟨hq, by rw [hr₀, hr₀p]⟩]
    · right
      rw [hparent q, if_neg (fun hc => hr₀p (Option.some.inj (hr₀.symm.trans hc.2)))]
      exact ⟨hr₀, (hlive r₀ hr₀p).mpr hr₀live⟩
  refine ⟨fun q a hq hinitq ha => ?_, fun q hq => ?_, hinit', ?_⟩
  · have hqp : q ≠ p := by
      rintro rfl
      exact hdead hq
    rw [hexited.initproc] at hinitq
    have hqlive := (hlive q hqp).mp hq
    obtain ⟨-, -, -, hqlt, -⟩ := hinv.exists_node hqlive
    obtain ⟨r₀, b, hr₀, hr₀live, hb, habove⟩ := h.parent q a hqlive hinitq ((hnodes q).symm.trans ha)
    rw [hheads]
    rcases hnew q r₀ hqlt hr₀ hr₀live with ⟨rfl, hpar⟩ | ⟨hpar, hr₀live'⟩
    · rw [hnode] at hb
      cases hb
      exact ⟨r, x, hpar, hrlive, hrx, habove.trans hx⟩
    · exact ⟨r₀, b, hpar, hr₀live', (hnodes r₀).trans hb, habove⟩
  · have hold : q < nproc ∧ ∃ r₀, (s.proc q).parent = some r₀ ∧ (s.proc r₀).Live := by
      by_cases hqp : q = p
      · rw [hqp]
        obtain ⟨r₀, b, hr₀, hr₀live, -⟩ := h.parent p n hplive hne hnode
        exact ⟨hp, r₀, hr₀, hr₀live⟩
      · have hz : (s.proc q).state = .zombie := by
          rcases (hexited.other q hqp).state with heq | ⟨-, hrunnable⟩
          · exact heq.symm.trans hq
          · rw [hq] at hrunnable
            cases hrunnable
        exact ⟨(hheir.placed q (by rw [hz]; decide)).1, h.zombie q hz⟩
    obtain ⟨hqlt, r₀, hr₀, hr₀live⟩ := hold
    rcases hnew q r₀ hqlt hr₀ hr₀live with ⟨-, hpar⟩ | ⟨hpar, hr₀live'⟩
    · exact ⟨r, hpar, hrlive⟩
    · exact ⟨r₀, hpar, hr₀live'⟩
  · obtain ⟨i, hi, hroot⟩ := h.first
    refine ⟨i, hexited.initproc.trans hi, ?_⟩
    rw [hinit 0, if_neg, hroot]
    rintro ⟨h0, hnp⟩
    rw [← h0, hroot] at hnp
    exact hne (hi.trans hnp)

/-- **`fork` and `clone`** keep it: the child is placed in the node of its parent, or right below. -/
theorem KinInv.created (hinv : KInv s) (h : KinInv s) {np : ℕ} (hp : (s.proc p).Live) {fresh : Bool}
    (hcreated : Created s p fresh (some np) t) : KinInv t := by
  have hbirth := hcreated.birth
  have hkin : (t.proc np).parent = some p ∧ t.initproc = s.initproc := by
    cases hcreated with
    | @child _ n nodes used l pids u hcopy hplace hchain hpids =>
      obtain ⟨-, -, hinit, -, -⟩ := hcopy.frame
      refine ⟨?_, hinit⟩
      show (update u.proc np _ np).parent = some p
      rw [update_self]
  obtain ⟨n, nodes, l, hplace, -, hnodes, hnode, -⟩ := hbirth.place
  have hheads : heads t.nodes = heads nodes := by rw [hnodes, heads_enteredNodes]
  have hinits : ∀ x, (t.nodes x).init = (nodes x).init := by
    intro x
    rw [hnodes]
    unfold enteredNodes
    split_ifs <;> rfl
  have hlive : (t.proc np).Live := by
    unfold Proc.Live
    rw [hbirth.state]
    decide
  have hneq : ∀ q, (s.proc q).Live → q ≠ np := by
    rintro q hq rfl
    exact hq.1 hbirth.unused
  have hkeep : ∀ q, (s.proc q).Live → (t.proc q).Live ∧ (t.proc q).node = (s.proc q).node := by
    intro q hq
    rw [hbirth.other q (hneq q hq)]
    exact ⟨hq, rfl⟩
  obtain ⟨b, hb, -, -, hbused⟩ := hinv.exists_node hp
  -- what is left depends on the place of the child
  suffices hnew : Above (heads nodes) n b
      ∧ (∀ x y, s.used x = true → Above (heads s.nodes) x y → Above (heads nodes) x y)
      ∧ (∀ x q, (nodes x).init = some q → (s.nodes x).init = some q ∨ (q = np ∧ x = n))
      ∧ (nodes 0).init = (s.nodes 0).init by
    obtain ⟨hup, hchains, hfields, hroot⟩ := hnew
    refine ⟨fun q a hq hinitq ha => ?_, fun q hq => ?_, fun x q hx => ?_, ?_⟩
    · rw [hheads]
      by_cases hqn : q = np
      · rw [hqn, hnode] at ha
        obtain rfl := Option.some.inj ha
        rw [hqn]
        exact ⟨p, b, hkin.1, (hkeep p hp).1, (hkeep p hp).2.trans hb, hup⟩
      · rw [hbirth.other q hqn] at hq ha ⊢
        rw [hkin.2] at hinitq
        obtain ⟨r, c, hr, hrlive, hc, habove⟩ := h.parent q a hq hinitq ha
        obtain ⟨a', ha', -, -, haused⟩ := hinv.exists_node hq
        rw [ha] at ha'
        obtain rfl := Option.some.inj ha'
        exact ⟨r, c, hr, (hkeep r hrlive).1, (hkeep r hrlive).2.trans hc, hchains a c haused habove⟩
    · have hqn : q ≠ np := by
        rintro rfl
        rw [hbirth.state] at hq
        cases hq
      rw [hbirth.other q hqn] at hq ⊢
      obtain ⟨r, hr, hrlive⟩ := h.zombie q hq
      exact ⟨r, hr, (hkeep r hrlive).1⟩
    · rw [hinits x] at hx
      rcases hfields x q hx with hold | ⟨rfl, rfl⟩
      · obtain ⟨hqlive, hqx⟩ := h.init x q hold
        exact ⟨(hkeep q hqlive).1, (hkeep q hqlive).2.trans hqx⟩
      · exact ⟨hlive, hnode⟩
    · obtain ⟨i, hi, h0⟩ := h.first
      exact ⟨i, hkin.2.trans hi, (hinits 0).trans (hroot.trans h0)⟩
  generalize t.used = used at hplace
  cases hplace with
  | same hn =>
    rw [hb] at hn
    obtain rfl := Option.some.inj hn
    exact ⟨Above.refl b, fun x y _ hxy => hxy, fun x q hx => Or.inl hx, rfl⟩
  | fresh hn _ hi hfree hroom =>
    rw [hb] at hn
    obtain rfl := Option.some.inj hn
    have hused : ∀ x, s.used x = true → x ≠ n := by
      rintro x hx rfl
      rw [hx] at hfree
      cases hfree
    refine ⟨?_, fun x y hx hxy => ?_, fun x q hx => ?_, ?_⟩
    · refine above_iff.mpr (Or.inr ⟨b, ?_, Above.refl b⟩)
      unfold heads
      rw [update_self]
    · refine (hinv.ns.rooted.above_congr (fun z hz => ?_) hx).mpr hxy
      unfold heads
      rw [update_of_ne (hused z hz)]
    · by_cases hxn : x = n
      · rw [hxn, update_self] at hx
        exact Or.inr ⟨(Option.some.inj hx).symm, hxn⟩
      · rw [update_of_ne hxn] at hx
        exact Or.inl hx
    · rw [update_of_ne (hused 0 hinv.ns.root.1)]

/-! ## Runs -/

/-- **The step lemma for parents.** -/
theorem KinInv.step (hinv : KInv s) (hheir : HeirInv s) (h : KinInv s) {e : Event}
    (he : Enabled s e) {r : Option ℕ} (hstep : step s e = .ok (r, t)) : KinInv t := by
  have hst := stepped_of_ok hinv he hstep
  have hstate := he.2
  -- what `fork` and `clone` leave when they fail
  have hfail : ∀ {supply : List ℕ} {p : ℕ} {u : Kernel}, Copied (s.refill supply) p none u → KinInv u := by
    intro supply p u hcopy
    obtain ⟨hnodes, -, hinit, -, hproc⟩ := hcopy.frame
    have hsame : ∀ q, u.proc q = s.proc q := fun q => hproc q (by simp)
    refine h.of_quiet hnodes hinit (fun q => ?_) (fun q => ?_) (fun q => ?_) (fun q _ => ?_)
    · rw [hsame q]
    · rw [hsame q]
      exact fun hz => hz
    · rw [hsame q]
    · rw [hsame q]
  have hrefill : ∀ supply, KinInv (s.refill supply) := fun supply =>
    ⟨h.parent, h.zombie, h.init, h.first⟩
  cases hst with
  | @fork p supply r _ hc =>
    cases r with
    | none =>
      obtain ⟨hcopy⟩ := hc
      exact hfail hcopy
    | some np => exact KinInv.created (hinv.refill supply) (hrefill supply) (live_of_running hstate) hc
  | @clone p supply r _ hc =>
    cases r with
    | none =>
      obtain ⟨hcopy⟩ := hc
      exact hfail hcopy
    | some np => exact KinInv.created (hinv.refill supply) (hrefill supply) (live_of_running hstate) hc
  | exit hexited =>
    obtain ⟨t', hexit, hret⟩ := bind_eq_ok_iff.mp hstep
    cases hret
    exact h.exit hinv hheir he.1 hstate hexit hexited
  | @wait p _ _ _ hw =>
    have hlive : (s.proc p).Live := live_of_running hstate
    cases hw with
    | fail => exact h
    | reap hpp hparent hzombie hkend =>
      refine h.of_updProc _ _ ⟨fun hl => absurd rfl hl.1, fun hl => absurd hzombie hl.2⟩ ?_ rfl ?_
      · intro hz
        cases hz
      · exact fun hu => absurd rfl hu
    | sleep =>
      refine h.of_updProc s.mem p ⟨fun _ => hlive, fun _ => ⟨by simp, by simp⟩⟩ ?_ rfl (fun _ => rfl)
      intro hz
      cases hz
  | files hneeds hfiles honly =>
    have hsame : ∀ q, (t.proc q).state = (s.proc q).state ∧ (t.proc q).node = (s.proc q).node
        ∧ (t.proc q).parent = (s.proc q).parent := by
      intro q
      by_cases hq : q = e.proc
      · rw [hq, honly.self]
        exact ⟨rfl, rfl, rfl⟩
      · rw [honly.other q hq]
        exact ⟨rfl, rfl, rfl⟩
    refine h.of_quiet (by rw [honly.rest]) (by rw [honly.rest]) (fun q => ?_) (fun q hz => ?_)
      (fun q => (hsame q).2.1) (fun q _ => (hsame q).2.2)
    · unfold Proc.Live
      rw [(hsame q).1]
    · exact (hsame q).1.symm.trans hz
  | @dispatch p =>
    have hrunnable : (s.proc p).state = .runnable := hstate
    refine h.of_updProc s.mem p ⟨fun _ => ?_, fun _ => ⟨by simp, by simp⟩⟩ ?_ rfl (fun _ => rfl)
    · unfold Proc.Live
      rw [hrunnable]
      decide
    · intro hz
      cases hz
  | @yield p =>
    refine h.of_updProc s.mem p ⟨fun _ => live_of_running hstate, fun _ => ⟨by simp, by simp⟩⟩ ?_ rfl
      (fun _ => rfl)
    intro hz
    cases hz

theorem Started.kinInv (h : Started s) : KinInv s := by
  obtain ⟨tf, pt, hproc, hnodes, -, hinit, -⟩ := started_spec h
  have h0 : s.proc 0 = firstProc tf pt := by rw [hproc, update_self]
  have hother : ∀ q, q ≠ 0 → s.proc q = {} := fun q hq => by rw [hproc, update_of_ne hq]
  refine ⟨fun q a hq hne _ => ?_, fun q hq => ?_, fun x q hx => ?_, 0, hinit, ?_⟩
  · have hq0 : q ≠ 0 := by
      rintro rfl
      exact hne hinit
    rw [hother q hq0] at hq
    exact absurd rfl hq.1
  · by_cases hq0 : q = 0
    · rw [hq0, h0] at hq
      cases hq
    · rw [hother q hq0] at hq
      cases hq
  · rw [hnodes] at hx
    by_cases hx0 : x = 0
    · rw [hx0, update_self] at hx
      cases hx
      rw [hx0, h0]
      exact ⟨⟨by simp [firstProc], by simp [firstProc]⟩, rfl⟩
    · rw [update_of_ne hx0] at hx
      cases hx
  · rw [hnodes, update_self]
    rfl

/-- **The run lemma for parents.** -/
theorem Reach.kinInv {ok : Kernel → Event → Prop} {n : ℕ} (h : Reach ok n s) : KinInv s := by
  induction h with
  | start hs => exact hs.kinInv
  | step hreach he _ hstep ih => exact ih.step hreach.inv hreach.heirInv he hstep

/-- **Parenthood stays inside the namespace tree.**  In every reachable state every live process other
than `initproc` has a live parent, whose node is on the chain of its child's; every `init` field points
to a live process of that node; and when a process exits, its children go to the init of the
nearest node of its chain that still has one, which is not its own node if it was the
init there. -/
theorem parenthood {n : ℕ} {s : Kernel} (h : Reach (fun _ _ => True) n s) :
    (∀ q, (s.proc q).Live → s.initproc ≠ some q → ∃ r a b, (s.proc q).parent = some r
        ∧ (s.proc r).Live ∧ (s.proc q).node = some a ∧ (s.proc r).node = some b
        ∧ Above (heads s.nodes) a b)
      ∧ (∀ x q, (s.nodes x).init = some q → (s.proc q).Live ∧ (s.proc q).node = some x)
      ∧ ∀ p status child t, Enabled s (.exit p status) → step s (.exit p status) = .ok (child, t) →
        ∃ a x r, (s.proc p).node = some a ∧ Above (heads s.nodes) a x
          ∧ (t.nodes x).init = some r ∧ (t.proc r).Live
          ∧ (∀ y, Above (heads s.nodes) a y → Above (heads s.nodes) y x → y ≠ x →
            (t.nodes y).init = none)
          ∧ ((s.nodes a).init = some p → x ≠ a)
          ∧ ∀ q, (s.proc q).parent = some p → (t.proc q).parent = some r := by
  have hinv := h.inv
  have hheir := h.heirInv
  have hkin := h.kinInv
  refine ⟨fun q hq hne => ?_, hkin.init, fun p status child t he hstep => ?_⟩
  · obtain ⟨a, ha⟩ := hinv.noded q hq
    obtain ⟨r, b, hr, hrlive, hb, habove⟩ := hkin.parent q a hq hne ha
    exact ⟨r, a, b, hr, hrlive, ha, hb, habove⟩
  · have hafter : KinInv t := hkin.step hinv hheir he hstep
    obtain ⟨t', hexit, hret⟩ := bind_eq_ok_iff.mp hstep
    cases hret
    obtain ⟨a, x, r, ha, hx, hxr, hnearest, hinit, hparent⟩ := exit_heir hinv hheir hkin he.1 he.2 hexit
    refine ⟨a, x, r, ha, hx, hxr, (hafter.init x r hxr).1, hnearest, ?_, fun q hq => ?_⟩
    · rintro hown rfl
      rw [hinit x, if_pos ⟨rfl, hown⟩] at hxr
      cases hxr
    · -- a slot out of range has no parent
      have hlt : q < nproc := by
        by_contra hge
        have hu : (s.proc q).state = .unused := by
          by_contra hu
          exact hge (hheir.placed q hu).1
        have hclear := (hinv.slots q).clear hu
        rw [← hclear] at hq
        cases hq
      rw [hparent q, if_pos ⟨hlt, hq⟩]

/-- The first process of a namespace exits; its child now belongs to the first process of all. -/
theorem parenthood_orphan : ∃ n s, Reach (fun _ _ => True) n s ∧ (s.proc 1).state = .zombie
    ∧ (s.proc 2).Live ∧ s.initproc ≠ some 2 ∧ (s.proc 2).parent = some 0
    ∧ ∃ r a b, (s.proc 2).parent = some r ∧ (s.proc r).Live ∧ (s.proc 2).node = some a
      ∧ (s.proc r).node = some b ∧ Above (heads s.nodes) a b := by
  obtain ⟨n, s, hreach, hcheck⟩ := reach_of_run (fun _ _ => true) (fun _ _ _ => trivial)
    [.dispatch 0, .clone 0 (tenPages 1), .dispatch 1, .fork 1 (tenPages 2), .exit 1 0]
    (fun x => decide ((x.2.proc 1).state = .zombie ∧ ((x.2.proc 2).state ≠ .unused
      ∧ (x.2.proc 2).state ≠ .zombie) ∧ x.2.initproc ≠ some 2 ∧ (x.2.proc 2).parent = some 0))
    (by decide +kernel)
  obtain ⟨hz, hlive, hne, hpar⟩ := of_decide_eq_true hcheck
  exact ⟨n, s, hreach, hz, hlive, hne, hpar, (parenthood hreach).1 2 hlive hne⟩

end Xv6
