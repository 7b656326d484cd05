/-
# What the process calls do

One specification for each of `fork`, `clone`, `exit` and `wait` in a state that meets
`KInv`: the call returns, and `Created`, `Exited` or `Waited` says what has changed.
Only `clone` can go wrong, exactly when it gets as far as `namespace_malloc` without
room for one more namespace (`CloneRoom`).
-/
import Xv6.NamespaceInv
import Xv6.ProcSlots

namespace Xv6

open Function HeadChain

variable {s t : Kernel} {p q : ℕ}

/-! ## The invariant of the tables -/

/-- The node of a live process. -/
def liveNode (s : Kernel) (q : ℕ) : Option ℕ :=
  if (s.proc q).Live then (s.proc q).node else none

/-- **The invariant** of the process table, the open files and the namespaces. -/
structure KInv (s : Kernel) : Prop where
  slots : ∀ q, SlotOk s.mem (s.proc q)
  files : FilesExact s
  ns : NsInv s.nodes s.used (liveNode s)
  noded : ∀ q, (s.proc q).Live → ∃ n, (s.proc q).node = some n

theorem liveNode_of_live (h : (s.proc q).Live) : liveNode s q = (s.proc q).node := if_pos h

theorem liveNode_of_not_live (h : ¬ (s.proc q).Live) : liveNode s q = none :=
  if_neg h

theorem live_of_running {p : Proc} (h : p.state = .running) : p.Live := by
  unfold Proc.Live
  rw [h]
  exact ⟨by decide, by decide⟩

/-- A live process has a used node. -/
theorem KInv.exists_node (h : KInv s) (hq : (s.proc q).Live) :
    ∃ n, (s.proc q).node = some n ∧ liveNode s q = some n ∧ q < nproc ∧ s.used n = true := by
  obtain ⟨n, hn⟩ := h.noded q hq
  have hlive : liveNode s q = some n := (liveNode_of_live hq).trans hn
  exact ⟨n, hn, hlive, h.ns.placed q n hlive⟩

/-- The answers of the allocator are not part of the invariant. -/
theorem KInv.refill (h : KInv s) (supply : List ℕ) :
    KInv (s.refill supply) where
  slots := fun q => (h.slots q).of_kend rfl
  files := h.files.congr (fun _ => rfl) (fun _ => rfl)
  ns := h.ns
  noded := h.noded

/-! ## `fork` and `clone` -/

/-- Where a child is placed: in the node of its parent, or in a new node below it. -/
inductive NewPlace (s : Kernel) (p np : ℕ) : Bool → ℕ → (ℕ → NamespaceNode) → (ℕ → Bool) → Prop
  | same {n : ℕ} (hn : (s.proc p).node = some n) : NewPlace s p np false n s.nodes s.used
  | fresh {n i : ℕ} (hn : (s.proc p).node = some n) (hmalloc : (namespaceMalloc s).1 = some i)
      (hi : i < nnmnd) (hfree : s.used i = false) (hroom : (s.nodes n).depth + 1 < npids) :
      NewPlace s p np true i
        (update s.nodes i
          { cntProc := 0, lastPid := 1, init := some np, head := some n,
            depth := (s.nodes n).depth + 1 })
        (update s.used i true)

/-- The state in which the child `np` of `p` is ready to run in the node `n`, having entered
the nodes of `l`. -/
def Kernel.enrolled (u : Kernel) (p np n : ℕ) (nodes : ℕ → NamespaceNode) (used : ℕ → Bool)
    (l : List ℕ) (pids : ℕ → ℤ) : Kernel :=
  { u with
    nodes := enteredNodes nodes l, used := used,
    proc := update u.proc np { u.proc np with
      node := some n, namespacePids := pids, parent := some p, state := .runnable } }

/-- What `fork` and `clone` can do; `fresh` says whether the child starts a namespace. -/
inductive Created (s : Kernel) (p : ℕ) (fresh : Bool) : Option ℕ → Kernel → Prop
  | fail {t : Kernel} (hcopy : Copied s p none t) : Created s p fresh none t
  | child {np n : ℕ} {nodes : ℕ → NamespaceNode} {used : ℕ → Bool} {l : List ℕ} {pids : ℕ → ℤ}
      {u : Kernel} (hcopy : Copied s p (some np) u) (hplace : NewPlace s p np fresh n nodes used)
      (hchain : Chain (heads nodes) (some n) l)
      (hpids : ∀ x ∈ l, pids (nodes x).depth = (nodes x).lastPid) :
      Created s p fresh (some np) (u.enrolled p np n nodes used l pids)

/-- The rest of `fork` and `clone` once the child has its node. -/
theorem forkFinish_spec (u : Kernel) (p np : ℕ) {n : ℕ} {nodes : ℕ → NamespaceNode}
    (used : ℕ → Bool) {l : List ℕ} (hchain : Chain (heads nodes) (some n) l) (hlen : l.length = (nodes n).depth + 1)
    (hnodup : (l.map (depths nodes)).Nodup) (hdepth : ∀ x ∈ l, (nodes x).depth < npids) :
    ∃ pids, (∀ x ∈ l, pids (nodes x).depth = (nodes x).lastPid)
      ∧ forkFinish ({ u with nodes := nodes, used := used }.updProc np
          fun q => { q with node := some n }) p np
        = .ok (u.enrolled p np n nodes used l pids) := by
  obtain ⟨pids, hrun, hset, -⟩ := enterLoop_spec hchain hnodup hdepth (u.proc np).namespacePids
  refine ⟨pids, hset, ?_⟩
  unfold forkFinish
  simp only [Kernel.updProc, update_self, update_idem, deref_some, ok_bind,
    ← hlen, hrun]
  rfl

theorem Copied.child_ne {np : ℕ} (hrun : (s.proc p).state = .running) (h : Copied s p (some np) t) :
    p ≠ np := by
  cases h with
  | child _ hunused =>
    rintro rfl
    rw [hrun] at hunused
    cases hunused

/-- What the beginning of `fork` and `clone` leaves alone. -/
theorem Copied.frame {r : Option ℕ} (h : Copied s p r t) :
    t.nodes = s.nodes ∧ t.used = s.used ∧ t.initproc = s.initproc ∧ t.mem.kend = s.mem.kend
      ∧ ∀ q, r ≠ some q → t.proc q = s.proc q := by
  cases h with
  | noSlot => exact ⟨rfl, rfl, rfl, rfl, fun _ _ => rfl⟩
  | noMemory _ _ hkend => exact ⟨rfl, rfl, rfl, hkend, fun _ _ => rfl⟩
  | child _ _ hkend ht =>
    subst ht
    exact ⟨rfl, rfl, rfl, hkend, fun q hq => update_of_ne (fun h => hq (congrArg some h.symm)) _ _⟩

/-- The child that the beginning of `fork` and `clone` sets up. -/
theorem Copied.child_slot {np : ℕ} (h : Copied s p (some np) t) :
    np < nproc ∧ (s.proc np).state = .unused ∧ t.nextpid = int32 (s.nextpid + 1)
      ∧ (∃ tf pt, t.proc np = (s.proc np).copyOf (s.proc p) s.nextpid tf pt)
      ∧ SlotOk t.mem (t.proc np) ∧ FilesExact t := by
  cases h with
  | @child _ tf m pt file inodeRef _ hnp hunused _ ht hslot hfiles =>
    have hmem : t.mem = m := by rw [ht]
    refine ⟨hnp, hunused, by rw [ht], ⟨tf, pt, ?_⟩, hmem ▸ hslot, hfiles⟩
    rw [ht]
    exact update_self _ _ _

theorem fork_spec (h : KInv s) (hp : p < nproc) (hrun : (s.proc p).state = .running) :
    ∃ r t, fork s p = .ok (r, t) ∧ Created s p false r t := by
  obtain ⟨r, u, hcopyrun, hcopy, -⟩ := forkCopy_spec hp hrun h.slots h.files
  cases r with
  | none =>
    refine ⟨none, u, ?_, Created.fail hcopy⟩
    unfold fork
    rw [hcopyrun]
    rfl
  | some np =>
    obtain ⟨n, hn, -, -, hused⟩ := h.exists_node (live_of_running hrun)
    obtain ⟨l, hchain, hlen, hnodup, -, hmem⟩ := h.ns.exists_chain hused
    obtain ⟨hnodes, hu, -, -, hproc⟩ := hcopy.frame
    have hpnp := hcopy.child_ne hrun
    have hup : (u.proc p).node = some n := by
      rw [hproc p (fun heq => hpnp (Option.some.inj heq).symm), hn]
    obtain ⟨pids, hpids, hfin⟩ := forkFinish_spec u p np s.used hchain hlen hnodup
      (fun x hx => h.ns.depth_lt x (h.ns.above_used hused ((hmem x).mp hx)))
    have hu' : { u with nodes := s.nodes, used := s.used } = u := by rw [← hnodes, ← hu]
    rw [hu'] at hfin
    refine ⟨some np, _, ?_, Created.child hcopy (NewPlace.same hn) hchain hpids⟩
    unfold fork
    rw [hcopyrun, ok_bind]
    simp only
    rw [hup, hfin]
    rfl

/-- There is room for a new namespace below that of `p`. -/
def CloneRoom (s : Kernel) (p : ℕ) : Prop :=
  (∃ i, i < nnmnd ∧ s.used i = false)
    ∧ ∀ n, (s.proc p).node = some n → (s.nodes n).depth + 1 < npids

theorem namespaceMalloc_cases (s : Kernel) :
    ((∀ i, i < nnmnd → s.used i = true) ∧ namespaceMalloc s = (none, s))
      ∨ ∃ i, i < nnmnd ∧ s.used i = false
        ∧ namespaceMalloc s = (some i, { s with used := update s.used i true }) := by
  unfold namespaceMalloc
  cases hfind : (List.range nnmnd).find? (fun i => s.used i = false) with
  | none =>
    refine Or.inl ⟨fun i hi => ?_, rfl⟩
    have hi' := List.find?_eq_none.mp hfind i (List.mem_range.mpr hi)
    simpa using hi'
  | some i =>
    have hfree := List.find?_some hfind
    have hmem := List.mem_of_find?_eq_some hfind
    exact Or.inr ⟨i, List.mem_range.mp hmem, by simpa using hfree, rfl⟩

theorem namespaceMalloc_congr (h : s.used = t.used) :
    (namespaceMalloc s).1 = (namespaceMalloc t).1 := by
  unfold namespaceMalloc
  rw [h]
  split <;> rfl

/-- **`clone`** does what `fork` does up to the namespace.  If that succeeds, it returns when
there is room for a new namespace, and goes wrong when there is none: it dereferences a
null node or writes behind the end of `namespace_pids`. -/
theorem clone_spec (h : KInv s) (hp : p < nproc) (hrun : (s.proc p).state = .running) :
    ∃ r u, forkCopy s p = .ok (r, u) ∧ Copied s p r u
      ∧ (r = none → clone s p = .ok (none, u))
      ∧ ∀ np, r = some np →
        (CloneRoom s p → ∃ t, clone s p = .ok (some np, t) ∧ Created s p true (some np) t)
          ∧ (¬ CloneRoom s p → clone s p = .error .nullDeref ∨ clone s p = .error .outOfBounds) := by
  obtain ⟨r, u, hcopyrun, hcopy, -⟩ := forkCopy_spec hp hrun h.slots h.files
  refine ⟨r, u, hcopyrun, hcopy, ?_, ?_⟩
  · rintro rfl
    unfold clone
    rw [hcopyrun]
    rfl
  rintro np rfl
  obtain ⟨n, hn, -, -, hused⟩ := h.exists_node (live_of_running hrun)
  obtain ⟨hnodes, hu, -, -, hproc⟩ := hcopy.frame
  have hpnp := hcopy.child_ne hrun
  have hup : (u.proc p).node = some n := by
    rw [hproc p (fun heq => hpnp (Option.some.inj heq).symm), hn]
  rcases namespaceMalloc_cases u with ⟨hfull, hmalloc⟩ | ⟨i, hi, hfree, hmalloc⟩
  · -- the pool is exhausted
    rw [hu] at hfull
    refine ⟨fun hroom => ?_, fun _ => Or.inl ?_⟩
    · obtain ⟨⟨i, hi, hfree⟩, -⟩ := hroom
      rw [hfull i hi] at hfree
      cases hfree
    · unfold clone
      rw [hcopyrun, ok_bind]
      simp only [hmalloc, deref_none, error_bind]
  rw [hu] at hfree hmalloc
  set node : NamespaceNode :=
    { cntProc := 0, lastPid := 1, init := some np, head := some n,
      depth := (s.nodes n).depth + 1 } with hnode
  set nodes := update s.nodes i node with hnodes'
  set used := update s.used i true with hused'
  -- what is left of the call once the node has been allocated
  have hclone : clone s p = (forkFinish ({ u with nodes := nodes, used := used }.updProc np
      fun q => { q with node := some i }) p np) >>= fun s => .ok (some np, s) := by
    unfold clone
    rw [hcopyrun, ok_bind]
    simp only [hmalloc, deref_some, ok_bind, hup]
    rw [hnodes]
    rfl
  by_cases hdepth : (s.nodes n).depth + 1 < npids
  · have htree : NsTree nodes used (liveNode s) :=
      h.ns.toNsTree.add_node hi hfree hused rfl rfl rfl hdepth
    have hui : used i = true := update_self _ _ _
    obtain ⟨l, hchain, hlen, hnodup, -, hmem⟩ := htree.exists_chain hui
    obtain ⟨pids, hpids, hfin⟩ := forkFinish_spec u p np used hchain hlen hnodup
      (fun x hx => htree.depth_lt x (htree.above_used hui ((hmem x).mp hx)))
    have hfirst : (namespaceMalloc s).1 = some i := by
      rw [namespaceMalloc_congr hu.symm, hmalloc]
    have hplace : NewPlace s p np true i nodes used := NewPlace.fresh hn hfirst hi hfree hdepth
    refine ⟨fun _ => ⟨_, ?_, Created.child hcopy hplace hchain hpids⟩, fun hroom => ?_⟩
    · rw [hclone, hfin]
      rfl
    · refine absurd ⟨⟨i, hi, hfree⟩, fun n' hn' => ?_⟩ hroom
      rw [hn] at hn'
      rw [← Option.some.inj hn']
      exact hdepth
  · -- the first turn of the loop writes entry `depth + 1` of `namespace_pids`
    refine ⟨fun hroom => absurd (hroom.2 n hn) hdepth, fun _ => Or.inr ?_⟩
    have hni : nodes i = node := update_self _ _ _
    rw [hclone]
    unfold forkFinish
    simp only [Kernel.updProc, update_self, deref_some, ok_bind, hni]
    rw [enterLoop, deref_some, ok_bind]
    simp only [hni]
    rw [if_pos (not_lt.mp hdepth)]
    rfl

end Xv6
