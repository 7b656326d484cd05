/-
# PIDs in a namespace

Every node hands out its pids in order, so the members of a namespace have different
pids as long as the node is theirs.  A process that has exited still points to its
node until it is reaped, and `clean_node` may free that node before.  So the pids are
unique in every run in which `clone` is never handed a node that is still on the head
chain of a process (`pids_unique`); where it is, they need not be (`pids_collide`).
-/
import Xv6.NamespaceHeirs

namespace Xv6

open Function HeadChain

variable {s t : Kernel}

/-! ## Numbering the members of a node -/

/-- The nodes that are used, or on the chain of a process that is still in the table. -/
def kept (nodes : ℕ → NamespaceNode) (used : ℕ → Bool) (held : ℕ → Option ℕ) : Set ℕ :=
  {x | used x = true ∨ ∃ q a, held q = some a ∧ Above (heads nodes) a x}

/-- The pids that node `x` has handed out: `c` so far, the `k q`-th of them to the member `q`. -/
structure Numbered (n : ℕ) (nodes : ℕ → NamespaceNode) (held : ℕ → Option ℕ) (pids : ℕ → ℕ → ℤ)
    (x c : ℕ) (k : ℕ → ℕ) : Prop where
  bound : c ≤ n
  last : (nodes x).lastPid = int32 (c + 1)
  pid : ∀ q a, held q = some a → Above (heads nodes) a x →
    1 ≤ k q ∧ k q ≤ c ∧ pids q (nodes x).depth = int32 (k q)
  inj : ∀ q a q' a', held q = some a → Above (heads nodes) a x → held q' = some a' →
    Above (heads nodes) a' x → k q = k q' → q = q'

/-- The namespaces with their pids after `n` processes have been created; `held q` is the
node of `q` while its slot is in use, and `pids q` are its pids. -/
structure PidTree (n : ℕ) (nodes : ℕ → NamespaceNode) (used : ℕ → Bool) (held : ℕ → Option ℕ)
    (pids : ℕ → ℕ → ℤ) : Prop where
  rooted : Rooted (heads nodes) (depths nodes) (kept nodes used held)
  depth_lt : ∀ x ∈ kept nodes used held, (nodes x).depth < npids
  numbered : ∀ x ∈ kept nodes used held, ∃ c k, Numbered n nodes held pids x c k

theorem int32_succ (x : ℤ) : int32 (int32 x + 1) = int32 (x + 1) := Int.bmod_add_bmod

theorem int32_inj {k k' : ℕ} (hk : k ≤ 2 ^ 31) (hk' : k' ≤ 2 ^ 31) (h : int32 k = int32 k') :
    k = k' := by
  unfold int32 Int.bmod at h
  norm_num at h
  omega

namespace PidTree

variable {n : ℕ} {nodes nodes' : ℕ → NamespaceNode} {used used' : ℕ → Bool}
  {held held' : ℕ → Option ℕ} {pids pids' : ℕ → ℕ → ℤ}

theorem mem_kept_of_held {q a x : ℕ} (hq : held q = some a) (hx : Above (heads nodes) a x) :
    x ∈ kept nodes used held :=
  Or.inr ⟨q, a, hq, hx⟩

/-- Processes and nodes may go, as long as the used nodes stay closed under heads. -/
theorem mono (h : PidTree n nodes used held pids)
    (hnodes : ∀ x, (nodes' x).head = (nodes x).head ∧ (nodes' x).depth = (nodes x).depth
      ∧ (nodes' x).lastPid = (nodes x).lastPid)
    (hused : ∀ x, used' x = true → used x = true)
    (hclosed : ∀ x, used' x = true → ∀ hd, (nodes' x).head = some hd → used' hd = true)
    (hheld : ∀ q a, held' q = some a → held q = some a ∧ pids' q = pids q) :
    PidTree n nodes' used' held' pids' := by
  have hheads : heads nodes' = heads nodes := funext fun x => (hnodes x).1
  have hdepths : depths nodes' = depths nodes := funext fun x => (hnodes x).2.1
  have hsub : kept nodes' used' held' ⊆ kept nodes used held := by
    rintro x (hx | ⟨q, a, hq, hx⟩)
    · exact Or.inl (hused x hx)
    · rw [hheads] at hx
      exact Or.inr ⟨q, a, (hheld q a hq).1, hx⟩
  refine ⟨?_, fun x hx => ?_, fun x hx => ?_⟩
  · rw [hheads, hdepths]
    refine h.rooted.mono hsub ?_
    rintro x (hx | ⟨q, a, hq, hx⟩) hd hhd
    · exact Or.inl (hclosed x hx hd ((hnodes x).1.trans hhd))
    · refine Or.inr ⟨q, a, hq, ?_⟩
      rw [hheads] at hx ⊢
      exact hx.tail hhd
  · rw [(hnodes x).2.1]
    exact h.depth_lt x (hsub hx)
  · obtain ⟨c, k, hk⟩ := h.numbered x (hsub hx)
    refine ⟨c, k, hk.bound, by rw [(hnodes x).2.2, hk.last], fun q a hq ha => ?_,
      fun q a q' a' hq ha hq' ha' => ?_⟩
    · rw [hheads] at ha
      rw [(hnodes x).2.1, (hheld q a hq).2]
      exact hk.pid q a (hheld q a hq).1 ha
    · rw [hheads] at ha ha'
      exact hk.inj q a q' a' (hheld q a hq).1 ha (hheld q' a' hq').1 ha'

/-- A node that nobody keeps becomes a leaf below `hd`, with a fresh counter. -/
theorem add_node (h : PidTree n nodes used held pids) {i hd : ℕ} (hi : i ∉ kept nodes used held)
    (hhd : used hd = true) {node : NamespaceNode} (hlast : node.lastPid = 1)
    (hhead : node.head = some hd) (hdepth : node.depth = (nodes hd).depth + 1)
    (hroom : node.depth < npids) :
    PidTree n (update nodes i node) (update used i true) held pids := by
  have hkeep : ∀ {x}, x ∈ kept nodes used held → update nodes i node x = nodes x :=
    fun {x} hx => update_of_ne (fun heq : x = i => hi (heq ▸ hx)) _ _
  have hheads : ∀ x ∈ kept nodes used held,
      heads (update nodes i node) x = heads nodes x :=
    fun x hx => congrArg NamespaceNode.head (hkeep hx)
  have habove : ∀ {q a x}, held q = some a →
      (Above (heads (update nodes i node)) a x ↔ Above (heads nodes) a x) :=
    fun hq => h.rooted.above_congr hheads (mem_kept_of_held hq (Above.refl _))
  have hself : update nodes i node i = node := update_self _ _ _
  -- only the new node is added
  have hkept : kept (update nodes i node) (update used i true) held
      ⊆ insert i (kept nodes used held) := by
    rintro x (hx | ⟨q, a, hq, hx⟩)
    · by_cases hxi : x = i
      · exact Or.inl hxi
      · rw [update_of_ne hxi] at hx
        exact Or.inr (Or.inl hx)
    · exact Or.inr (mem_kept_of_held hq ((habove hq).mp hx))
  have hrooted : Rooted (heads (update nodes i node))
      (depths (update nodes i node)) (insert i (kept nodes used held)) := by
    have hmem : hd ∈ kept nodes used held := Or.inl hhd
    refine (h.rooted.congr hheads (fun x hx => congrArg NamespaceNode.depth (hkeep hx))).insert_node
      (h := hd) ?_ hmem ?_
    · exact (congrArg NamespaceNode.head hself).trans hhead
    · rw [hself, hkeep hmem, hdepth]
  have hclosed : ∀ x ∈ kept (update nodes i node) (update used i true) held,
      ∀ y, heads (update nodes i node) x = some y →
        y ∈ kept (update nodes i node) (update used i true) held := by
    intro x hx y hy
    by_cases hxi : x = i
    · subst hxi
      rw [show heads (update nodes x node) x = some hd from
        (congrArg NamespaceNode.head hself).trans hhead] at hy
      cases hy
      refine Or.inl ?_
      by_cases hdx : hd = x
      · rw [hdx, update_self]
      · rw [update_of_ne hdx]
        exact hhd
    · have hx' := (hkept hx).resolve_left hxi
      rw [hheads x hx'] at hy
      rcases (h.rooted.head_mem hx' hy).1 with hyu | ⟨q, a, hq, hya⟩
      · refine Or.inl ?_
        by_cases hyi : y = i
        · rw [hyi, update_self]
        · rw [update_of_ne hyi]
          exact hyu
      · exact Or.inr ⟨q, a, hq, (habove hq).mpr hya⟩
  refine ⟨hrooted.mono hkept hclosed, fun x hx => ?_, fun x hx => ?_⟩
  · rcases hkept hx with rfl | hx'
    · rw [hself]
      exact hroom
    · rw [hkeep hx']
      exact h.depth_lt x hx'
  · rcases hkept hx with rfl | hx'
    · -- the new node has no members
      have hno : ∀ q a, held q = some a →
          ¬ Above (heads (update nodes x node)) a x :=
        fun q a hq ha => hi (mem_kept_of_held hq ((habove hq).mp ha))
      refine ⟨0, fun _ => 0, Nat.zero_le n, by rw [hself, hlast]; decide,
        fun q a hq ha => absurd ha (hno q a hq), fun q a q' a' hq ha => absurd ha (hno q a hq)⟩
    · obtain ⟨c, k, hk⟩ := h.numbered x hx'
      refine ⟨c, k, hk.bound, by rw [hkeep hx', hk.last], fun q a hq ha => ?_,
        fun q a q' a' hq ha hq' ha' => ?_⟩
      · rw [hkeep hx']
        exact hk.pid q a hq ((habove hq).mp ha)
      · exact hk.inj q a q' a' hq ((habove hq).mp ha) hq' ((habove hq').mp ha')

/-- A new process enters the chain of a used node and gets the next pid of each node on it. -/
theorem enter (h : PidTree n nodes used held pids) {np a : ℕ} (hnp : held np = none)
    (ha : used a = true) {l : List ℕ} (hl : ∀ x, x ∈ l ↔ Above (heads nodes) a x) {new : ℕ → ℤ}
    (hnew : ∀ x ∈ l, new (nodes x).depth = (nodes x).lastPid) :
    PidTree (n + 1) (enteredNodes nodes l) used (update held np (some a))
      (update pids np new) := by
  have hheads := heads_enteredNodes nodes l
  have hdepths := depths_enteredNodes nodes l
  have hdepth : ∀ x, (enteredNodes nodes l x).depth = (nodes x).depth := congrFun hdepths
  have hkept : kept (enteredNodes nodes l) used (update held np (some a))
      = kept nodes used held := by
    ext x
    constructor
    · rintro (hx | ⟨q, b, hq, hx⟩)
      · exact Or.inl hx
      · rw [hheads] at hx
        by_cases hqn : q = np
        · rw [hqn, update_self] at hq
          cases hq
          exact h.rooted.above_mem (Or.inl ha) hx
        · rw [update_of_ne hqn] at hq
          exact Or.inr ⟨q, b, hq, hx⟩
    · rintro (hx | ⟨q, b, hq, hx⟩)
      · exact Or.inl hx
      · have hqn : q ≠ np := by
          rintro rfl
          rw [hnp] at hq
          cases hq
        refine Or.inr ⟨q, b, by rw [update_of_ne hqn, hq], ?_⟩
        rw [hheads]
        exact hx
  -- a member other than `np` was a member before
  have hold : ∀ {q b}, q ≠ np → update held np (some a) q = some b → held q = some b :=
    fun hqn hq => (update_of_ne hqn _ _).symm.trans hq
  have hself : ∀ {b}, update held np (some a) np = some b → a = b := by
    intro b hq
    rw [update_self] at hq
    exact Option.some.inj hq
  refine ⟨by rw [hheads, hdepths, hkept]; exact h.rooted, fun x hx => ?_, fun x hx => ?_⟩
  · rw [hkept] at hx
    rw [hdepth]
    exact h.depth_lt x hx
  rw [hkept] at hx
  obtain ⟨c, k, hk⟩ := h.numbered x hx
  by_cases hxl : x ∈ l
  · -- `np` is member number `c + 1`
    refine ⟨c + 1, update k np (c + 1), Nat.succ_le_succ hk.bound, ?_, fun q b hq hb => ?_,
      fun q b q' b' hq hb hq' hb' hkk => ?_⟩
    · unfold enteredNodes
      rw [if_pos hxl]
      show int32 ((nodes x).lastPid + 1) = _
      rw [hk.last, int32_succ]
      push_cast
      rfl
    · rw [hheads] at hb
      rw [hdepth]
      by_cases hqn : q = np
      · subst hqn
        rw [update_self, update_self, hnew x hxl, hk.last]
        exact ⟨by omega, le_rfl, by push_cast; rfl⟩
      · rw [update_of_ne hqn, update_of_ne hqn]
        obtain ⟨h1, h2, h3⟩ := hk.pid q b (hold hqn hq) hb
        exact ⟨h1, by omega, h3⟩
    · rw [hheads] at hb hb'
      by_cases hqn : q = np
      · by_cases hqn' : q' = np
        · rw [hqn, hqn']
        · rw [hqn, update_self, update_of_ne hqn'] at hkk
          have := (hk.pid q' b' (hold hqn' hq') hb').2.1
          omega
      · by_cases hqn' : q' = np
        · rw [hqn', update_self, update_of_ne hqn] at hkk
          have := (hk.pid q b (hold hqn hq) hb).2.1
          omega
        · rw [update_of_ne hqn, update_of_ne hqn'] at hkk
          exact hk.inj q b q' b' (hold hqn hq) hb (hold hqn' hq') hb' hkk
  · -- `x` is not on the chain of `np`
    have hne : ∀ {q b}, update held np (some a) q = some b →
        Above (heads nodes) b x → q ≠ np := by
      rintro q b hq hb rfl
      exact hxl ((hl x).mpr (hself hq ▸ hb))
    refine ⟨c, k, Nat.le_succ_of_le hk.bound, ?_, fun q b hq hb => ?_,
      fun q b q' b' hq hb hq' hb' => ?_⟩
    · unfold enteredNodes
      rw [if_neg hxl, hk.last]
    · rw [hheads] at hb
      rw [hdepth, update_of_ne (hne hq hb)]
      exact hk.pid q b (hold (hne hq hb) hq) hb
    · rw [hheads] at hb hb'
      exact hk.inj q b q' b' (hold (hne hq hb) hq) hb (hold (hne hq' hb') hq') hb'

end PidTree

/-! ## Runs that reuse no node too early -/

/-- The node of a slot that is in use, be its process dead or alive. -/
def heldNode (s : Kernel) (q : ℕ) : Option ℕ :=
  if (s.proc q).state ≠ .unused then (s.proc q).node else none

/-- A call of `clone`. -/
def Event.isClone : Event → Bool
  | .clone _ _ => true
  | _ => false

/-- If the event is a `clone`, the node that it would be handed is not on the head chain of
any process in the table. -/
def NoStaleNode (s : Kernel) (e : Event) : Prop :=
  e.isClone = true → ∀ i ∈ (namespaceMalloc s).1, ∀ q < nproc, (s.proc q).state ≠ .unused →
    isHeir s.nodes (s.proc q).node (some i) ≠ .ok true

instance (s : Kernel) (e : Event) : Decidable (NoStaleNode s e) :=
  inferInstanceAs (Decidable (_ → _))

/-- The invariant of the pids after `n` processes have been created. -/
def PidInv (n : ℕ) (s : Kernel) : Prop :=
  PidTree n s.nodes s.used (heldNode s) (fun q => (s.proc q).namespacePids)

theorem heldNode_of_ne {q : ℕ} (h : (s.proc q).state ≠ .unused) :
    heldNode s q = (s.proc q).node := if_pos h

/-- Where no process is created, the pids stay. -/
theorem PidInv.of_noBirth {n : ℕ} (h : PidInv n s) (ht : KInv t) (hst : NoBirth s t) :
    PidInv n t := by
  refine PidTree.mono h hst.nodes hst.used (fun x hx hd hhd => ?_) (fun q a hq => ?_)
  · by_cases h0 : x = 0
    · rw [h0, ht.ns.root.2.1] at hhd
      cases hhd
    · obtain ⟨hd', hhd', hused', -⟩ := ht.ns.inner x hx h0
      rw [hhd'] at hhd
      exact Option.some.inj hhd ▸ hused'
  · unfold heldNode at hq
    split_ifs at hq with hstate
    obtain ⟨hnode, hpids⟩ := hst.place q
    exact ⟨by rw [heldNode_of_ne (hst.slot q hstate).1, ← hnode, hq], hpids⟩

theorem Birth.pidInv {n : ℕ} (hinv : KInv s) (h : PidInv n s) {p np : ℕ} (hp : (s.proc p).Live)
    {fresh : Bool} (hbirth : Birth s p fresh np t)
    (hstale : fresh = true → ∀ i, (namespaceMalloc s).1 = some i →
      i ∉ kept s.nodes s.used (heldNode s)) :
    PidInv (n + 1) t := by
  obtain ⟨a, nodes, l, hplace, hchain, hnodes, hnode, hpids⟩ := hbirth.place
  have hheld : heldNode t = update (heldNode s) np (some a) := by
    funext q
    by_cases hq : q = np
    · rw [hq, heldNode_of_ne (by rw [hbirth.state]; decide), hnode, update_self]
    · rw [update_of_ne hq]
      unfold heldNode
      rw [hbirth.other q hq]
  have hpids' : (fun q => (t.proc q).namespacePids)
      = update (fun q => (s.proc q).namespacePids) np (t.proc np).namespacePids := by
    funext q
    by_cases hq : q = np
    · rw [hq, update_self]
    · rw [update_of_ne hq, hbirth.other q hq]
  have hnone : heldNode s np = none := if_neg (not_not_intro hbirth.unused)
  unfold PidInv
  rw [hnodes, hheld, hpids']
  obtain ⟨b, hb, -, -, hbused⟩ := hinv.exists_node hp
  generalize t.used = used at hplace
  cases hplace with
  | same hn =>
    rw [hb] at hn
    cases hn
    exact PidTree.enter h hnone hbused hchain.mem_iff hpids
  | fresh hn hmalloc hi hfree hroom =>
    rw [hb] at hn
    cases hn
    exact (PidTree.add_node h (hstale rfl a hmalloc) hbused rfl rfl rfl hroom).enter hnone
      (update_self _ _ _) hchain.mem_iff hpids

/-- The node that `clone` gets is not kept. -/
theorem NoStaleNode.not_kept (hinv : KInv s) (h : HeirInv s) {p : ℕ} {supply : List ℕ}
    (hok : NoStaleNode s (.clone p supply)) {i : ℕ} (hi : (namespaceMalloc s).1 = some i) :
    i ∉ kept s.nodes s.used (heldNode s) := by
  rintro (hused | ⟨q, a, hq, ha⟩)
  · rcases namespaceMalloc_cases s with ⟨-, hmalloc⟩ | ⟨j, -, hfree, hmalloc⟩
    · rw [hmalloc] at hi
      cases hi
    · rw [hmalloc] at hi
      cases hi
      rw [hused] at hfree
      cases hfree
  · have hq' := hq
    unfold heldNode at hq'
    split_ifs at hq' with hstate
    refine hok rfl i hi q (h.placed q hstate).1 hstate ?_
    rw [hq']
    exact (h.isHeir_iff hinv hq' i).mpr ha

/-- **The step lemma for pids.** -/
theorem Stepped.pidInv {n : ℕ} (hinv : KInv s) (hheir : HeirInv s) (h : PidInv n s) {e : Event}
    (he : Enabled s e) (hok : NoStaleNode s e) {r : Option ℕ} (hst : Stepped s e r t) :
    PidInv (n + created r) t := by
  cases r with
  | none => exact h.of_noBirth (hst.inv hinv he) (hst.noBirth he)
  | some np =>
    obtain ⟨supply, fresh, hevent, hbirth⟩ := hst.birth
    have hlive : (s.proc e.proc).Live := hst.live_of_birth he
    refine hbirth.pidInv (hinv.refill supply) h hlive (fun hfresh i hi => ?_)
    rw [hevent, hfresh, if_pos rfl] at hok
    exact hok.not_kept hinv hheir
      ((namespaceMalloc_congr (show s.used = (s.refill supply).used from rfl)).trans hi)

/-- At the start there is one namespace with one member. -/
theorem Started.pidInv (h : Started s) : PidInv 1 s := by
  obtain ⟨tf, pt, hproc, hnodes, hused, -, -, -, -, -⟩ := started_spec h
  have h0 : s.proc 0 = firstProc tf pt := by rw [hproc, update_self]
  have hother : ∀ q, (s.proc q).state ≠ .unused → q = 0 := by
    intro q hq
    by_contra hne
    rw [hproc, update_of_ne hne] at hq
    exact hq rfl
  have hroot : s.nodes 0 = rootNode := by rw [hnodes, update_self]
  have hheld : ∀ q a, heldNode s q = some a → q = 0 ∧ a = 0 := by
    intro q a hq
    unfold heldNode at hq
    split_ifs at hq with hstate
    have hq0 := hother q hstate
    rw [hq0, h0] at hq
    exact ⟨hq0, (Option.some.inj hq).symm⟩
  have habove : ∀ x, Above (heads s.nodes) 0 x → x = 0 := by
    intro x hx
    rcases above_iff.mp hx with rfl | ⟨hd, hhd, -⟩
    · rfl
    · unfold heads at hhd
      rw [hroot] at hhd
      cases hhd
  have hkept : ∀ x ∈ kept s.nodes s.used (heldNode s), x = 0 := by
    rintro x (hx | ⟨q, a, hq, hx⟩)
    · by_contra hne
      rw [hused, update_of_ne hne] at hx
      cases hx
    · rw [(hheld q a hq).2] at hx
      exact habove x hx
  refine ⟨fun x hx => ?_, fun x hx => ?_, fun x hx => ?_⟩
  · rw [hkept x hx]
    refine Or.inl ⟨?_, ?_⟩
    · unfold heads
      rw [hroot]
      rfl
    · unfold depths
      rw [hroot]
      rfl
  · rw [hkept x hx, hroot]
    decide
  · rw [hkept x hx]
    refine ⟨1, fun _ => 1, le_rfl, by rw [hroot]; decide, fun q a hq _ => ⟨le_rfl, le_rfl, ?_⟩,
      fun q a q' a' hq _ hq' _ _ => ?_⟩
    · have hpid : (firstProc tf pt).namespacePids rootNode.depth = 1 := rfl
      simp only [(hheld q a hq).1, h0, hroot, hpid]
      decide
    · rw [(hheld q a hq).1, (hheld q' a' hq').1]

/-- **The run lemma for pids.** -/
theorem Reach.pidInv {n : ℕ} (h : Reach NoStaleNode n s) : PidInv n s := by
  induction h with
  | start hs => exact hs.pidInv
  | step hreach he hok hstep ih =>
    exact (stepped_of_ok hreach.inv he hstep).pidInv hreach.inv hreach.heirInv ih he hok

/-- **PIDs are unique inside a namespace**, in every run with fewer than `2 ^ 31` processes in
which `clone` is never handed a node that is still on the head chain of a process. -/
theorem pids_unique {n : ℕ} {s : Kernel} (h : Reach NoStaleNode n s) (hn : n < 2 ^ 31)
    {i p q : ℕ} (hi : s.used i = true) (hp : (s.proc p).state ≠ .unused)
    (hq : (s.proc q).state ≠ .unused) (hpq : p ≠ q)
    (hpi : isHeir s.nodes (s.proc p).node (some i) = .ok true)
    (hqi : isHeir s.nodes (s.proc q).node (some i) = .ok true) :
    (s.proc p).namespacePids (s.nodes i).depth ≠ (s.proc q).namespacePids (s.nodes i).depth := by
  obtain ⟨c, k, hk⟩ := h.pidInv.numbered i (Or.inl hi)
  -- both are members of the namespace, so both have a number
  have hmember : ∀ r, (s.proc r).state ≠ .unused →
      isHeir s.nodes (s.proc r).node (some i) = .ok true →
      ∃ a, heldNode s r = some a ∧ Above (heads s.nodes) a i := by
    intro r hr hri
    obtain ⟨-, a, ha⟩ := h.heirInv.placed r hr
    have hheld : heldNode s r = some a := (heldNode_of_ne hr).trans ha
    rw [ha] at hri
    exact ⟨a, hheld, (h.heirInv.isHeir_iff h.inv ha i).mp hri⟩
  obtain ⟨a, hpa, hai⟩ := hmember p hp hpi
  obtain ⟨b, hqb, hbi⟩ := hmember q hq hqi
  obtain ⟨-, hpc, hppid⟩ := hk.pid p a hpa hai
  obtain ⟨-, hqc, hqpid⟩ := hk.pid q b hqb hbi
  have hbound := hk.bound
  intro heq
  rw [hppid, hqpid] at heq
  exact hpq (hk.inj p a q b hpa hai hqb hbi (int32_inj (by omega) (by omega) heq))

/-- A process that starts a namespace and its child have different pids in it. -/
theorem pids_unique_clone :
    ∃ n s, Reach NoStaleNode n s
      ∧ (s.proc 1).namespacePids (s.nodes 1).depth ≠ (s.proc 2).namespacePids (s.nodes 1).depth := by
  obtain ⟨n, s, hreach, hcheck⟩ := reach_of_run (fun s e => decide (NoStaleNode s e))
    (fun s e => of_decide_eq_true)
    [.dispatch 0, .clone 0 (tenPages 1), .dispatch 1, .fork 1 (tenPages 2)]
    (fun x => x.1 < 2 ^ 31 ∧ x.2.used 1 = true ∧ (x.2.proc 1).state ≠ .unused
      ∧ (x.2.proc 2).state ≠ .unused ∧ isHeir x.2.nodes (x.2.proc 1).node (some 1) = .ok true
      ∧ isHeir x.2.nodes (x.2.proc 2).node (some 1) = .ok true) (by decide +kernel)
  obtain ⟨hn, hused, h1, h2, h1i, h2i⟩ := of_decide_eq_true hcheck
  exact ⟨n, s, hreach, pids_unique hreach hn hused h1 h2 (by decide) h1i h2i⟩

/-- **A collision**: the first process clones a child and the child exits, which frees node `1`;
the first process clones again before it waits, and the new child gets node `1` and in it the
pid `1` that the zombie still has. -/
theorem pids_collide :
    ∃ n s, Reach (fun _ _ => True) n s ∧ n < 2 ^ 31 ∧ s.used 1 = true
      ∧ (s.proc 1).state ≠ .unused ∧ (s.proc 2).state ≠ .unused
      ∧ isHeir s.nodes (s.proc 1).node (some 1) = .ok true
      ∧ isHeir s.nodes (s.proc 2).node (some 1) = .ok true
      ∧ (s.proc 1).namespacePids (s.nodes 1).depth = (s.proc 2).namespacePids (s.nodes 1).depth := by
  obtain ⟨n, s, hreach, hcheck⟩ := reach_of_run (fun _ _ => true) (fun _ _ _ => trivial)
    [.dispatch 0, .clone 0 (tenPages 1), .dispatch 1, .exit 1 0, .clone 0 (tenPages 2)]
    (fun x => x.1 < 2 ^ 31 ∧ x.2.used 1 = true ∧ (x.2.proc 1).state ≠ .unused
      ∧ (x.2.proc 2).state ≠ .unused ∧ isHeir x.2.nodes (x.2.proc 1).node (some 1) = .ok true
      ∧ isHeir x.2.nodes (x.2.proc 2).node (some 1) = .ok true
      ∧ (x.2.proc 1).namespacePids (x.2.nodes 1).depth
        = (x.2.proc 2).namespacePids (x.2.nodes 1).depth) (by decide +kernel)
  exact ⟨n, s, hreach, of_decide_eq_true hcheck⟩

end Xv6
