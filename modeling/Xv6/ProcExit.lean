/-
# Leaving and waiting

The specifications of `exit` and `wait` in a state that meets `KInv`.  Of the other
processes, `exit` changes no more than the parent, and the state from SLEEPING to
RUNNABLE (`Stirred`).
-/
import Xv6.ProcSteps

namespace Xv6

open Function HeadChain

variable {s : Kernel} {p q : Proc}

/-! ## Waking up and reparenting -/

/-- `q` is `p`, perhaps with another parent and perhaps woken up. -/
structure Stirred (p q : Proc) : Prop where
  eq : q = { p with parent := q.parent, state := q.state }
  orphan : p.parent = none → q.parent = none
  state : q.state = p.state ∨ (p.state = .sleeping ∧ q.state = .runnable)

theorem Stirred.refl (p : Proc) : Stirred p p := ⟨rfl, fun h => h, Or.inl rfl⟩

theorem Stirred.trans {r : Proc} (h : Stirred p q) (h' : Stirred q r) : Stirred p r := by
  refine ⟨?_, fun hp => h'.orphan (h.orphan hp), ?_⟩
  · rw [h'.eq, h.eq]
  · rcases h'.state with hs | ⟨hs, hs'⟩
    · rcases h.state with hp | hp
      · exact Or.inl (hs.trans hp)
      · exact Or.inr ⟨hp.1, hs.trans hp.2⟩
    · rcases h.state with hp | ⟨-, hp⟩
      · exact Or.inr ⟨hp ▸ hs, hs'⟩
      · rw [hp] at hs
        cases hs

theorem Stirred.live_iff (h : Stirred p q) : q.Live ↔ p.Live := by
  unfold Proc.Live
  rcases h.state with hs | ⟨hp, hq⟩
  · rw [hs]
  · rw [hp, hq]
    simp

theorem Stirred.state_of_ne (h : Stirred p q) (hs : p.state ≠ .sleeping) : q.state = p.state := by
  rcases h.state with heq | ⟨hp, -⟩
  · exact heq
  · exact absurd hp hs

/-- A clear slot stays as it is. -/
theorem Stirred.eq_of_clear (h : Stirred p q) (hu : p.state = .unused) (hclear : p.cleared = p) :
    q = p := by
  have hparent : q.parent = p.parent := by
    have hnone : p.parent = none := by rw [← hclear]; rfl
    rw [h.orphan hnone, hnone]
  have hstate : q.state = p.state := h.state_of_ne (by rw [hu]; decide)
  rw [h.eq, hparent, hstate]

theorem SlotOk.stirred {m : PagePool} (h : SlotOk m p) (hs : Stirred p q) : SlotOk m q := by
  by_cases hu : p.state = .unused
  · rw [hs.eq_of_clear hu (h.clear hu)]
    exact h
  · have hne : q.state ≠ .unused := by
      rcases hs.state with heq | ⟨-, hq⟩
      · rw [heq]
        exact hu
      · rw [hq]
        decide
    refine ⟨fun hq => absurd hq hne, fun _ => ?_, fun hq => ?_, fun hq => ?_⟩
    · rw [hs.eq]
      exact h.space hu
    · rw [hs.eq]
      exact h.closed (fun hl => hq (hs.live_iff.mpr hl))
    · rw [hs.eq]
      exact h.dir (hs.live_iff.mp hq)

/-- Only processes are stirred. -/
def StirredAll (s t : Kernel) : Prop :=
  t = { s with proc := t.proc } ∧ ∀ q, Stirred (s.proc q) (t.proc q)

theorem StirredAll.refl (s : Kernel) : StirredAll s s := ⟨rfl, fun q => Stirred.refl (s.proc q)⟩

theorem StirredAll.trans {t u : Kernel} (h : StirredAll s t) (h' : StirredAll t u) :
    StirredAll s u :=
  ⟨by rw [h'.1, h.1], fun q => (h.2 q).trans (h'.2 q)⟩

theorem wakeup_stirred (s : Kernel) (me : ℕ) (chan : Option ℕ) : StirredAll s (wakeup s me chan) := by
  refine ⟨rfl, fun q => ?_⟩
  unfold wakeup
  simp only
  split_ifs with hcond
  · exact ⟨rfl, fun h => h, Or.inr ⟨hcond.2.2.1, rfl⟩⟩
  · exact Stirred.refl _

theorem reparentOne_stirred (p : ℕ) (newInit : Option ℕ) (s : Kernel) (pp : ℕ) :
    StirredAll s (reparentOne p newInit s pp) := by
  unfold reparentOne
  split_ifs with hparent
  · refine StirredAll.trans ⟨rfl, fun q => ?_⟩ (wakeup_stirred _ _ _)
    by_cases hq : q = pp
    · subst hq
      simp only [Kernel.updProc, update_self]
      exact ⟨rfl, fun h => absurd (hparent.symm.trans h) (by simp), Or.inl rfl⟩
    · simp only [Kernel.updProc, update_of_ne hq]
      exact Stirred.refl _
  · exact StirredAll.refl s

theorem reparentLoop_stirred (p : ℕ) (newInit : Option ℕ) (l : List ℕ) (s : Kernel) :
    StirredAll s (l.foldl (reparentOne p newInit) s) := by
  induction l generalizing s with
  | nil => exact StirredAll.refl s
  | cons pp l ih => exact (reparentOne_stirred p newInit s pp).trans (ih _)

/-! ## `exit` -/

/-- **What `exit` does**, where `l` is the head chain of the node of `p`. -/
structure Exited (s : Kernel) (p : ℕ) (status : ℤ) (t : Kernel) : Prop where
  ns : ∃ n l, (s.proc p).node = some n ∧ Chain (heads s.nodes) (some n) l
    ∧ (∀ x, t.nodes x = { leftNodes s.nodes l x with init := (t.nodes x).init })
    ∧ ∀ x, t.used x = true ↔ s.used x = true
      ∧ ¬ (x ∈ l ∧ (s.nodes x).depth ≠ 0 ∧ (leftNodes s.nodes l x).cntProc = 0)
  mem : t.mem = s.mem
  nextpid : t.nextpid = s.nextpid
  initproc : t.initproc = s.initproc
  files : FilesExact t
  self : t.proc p = { s.proc p with
    ofile := fun _ => none, cwd := none, parent := (t.proc p).parent, xstate := status,
    state := .zombie }
  other : ∀ q, q ≠ p → Stirred (s.proc q) (t.proc q)

theorem closeOpen_spec {p ip : ℕ} (hp : p < nproc) (hcwd : (s.proc p).cwd = some ip)
    (hexact : FilesExact s) :
    ∃ t, closeOpen s p = .ok t ∧ FilesExact t
      ∧ t = { s with proc := t.proc, file := t.file, inodeRef := t.inodeRef }
      ∧ t.proc = update s.proc p { s.proc p with ofile := fun _ => none, cwd := none } := by
  obtain ⟨s₁, hrun, hexact₁, honly, hofile⟩ := closeFiles_spec hp (List.finRange nofile) hexact
  have hnone : (s₁.proc p).ofile = fun _ => none := by
    funext fd
    rw [hofile fd, if_pos (List.mem_finRange fd)]
  have hself : s₁.proc p = { s.proc p with ofile := fun _ => none } := by
    rw [honly.self, hnone]
  have hproc : ((iput s₁ ip).updProc p fun q => { q with cwd := none }).proc
      = update s.proc p { s.proc p with ofile := fun _ => none, cwd := none } := by
    funext q
    by_cases hq : q = p
    · subst hq
      simp only [Kernel.updProc, iput, update_self, hself]
    · simp only [Kernel.updProc, iput, update_of_ne hq, honly.other q hq]
  refine ⟨_, ?_, ?_, ?_, hproc⟩
  · unfold closeOpen
    have hcwd₁ : (s₁.proc p).cwd = some ip := by rw [hself, hcwd]
    rw [hrun, ok_bind, hcwd₁, deref_some, ok_bind]
    rfl
  · refine hexact₁.congr (fun q => ?_) (fun _ => rfl)
    by_cases hq : q = p
    · subst hq
      simp [Kernel.updProc, iput]
    · simp [Kernel.updProc, iput, hq]
  · unfold Kernel.updProc iput
    rw [honly.rest]

/-- The used nodes after `exit`, with enough fuel for `clean_node`. -/
theorem leaveNamespaces_spec {p n : ℕ} {place : ℕ → Option ℕ} (h : NsInv s.nodes s.used place)
    (hnode : (s.proc p).node = some n) (hplace : place p = some n) :
    ∃ l used, Chain (heads s.nodes) (some n) l ∧ l.length ≤ chainFuel
      ∧ (∀ x, x ∈ l ↔ Above (heads s.nodes) n x)
      ∧ leaveNamespaces s p = .ok { s with nodes := leftNodes s.nodes l, used := used }
      ∧ ∀ x, used x = true ↔ s.used x = true
        ∧ ¬ (x ∈ l ∧ (s.nodes x).depth ≠ 0 ∧ (leftNodes s.nodes l x).cntProc = 0) := by
  have hn : s.used n = true := (h.placed p n hplace).2
  obtain ⟨l, hchain, hlen, hnodup, hfuel, hmem⟩ := h.exists_chain hn
  have hdepth : ∀ x, (leftNodes s.nodes l x).depth = (s.nodes x).depth :=
    congrFun (depths_leftNodes s.nodes l)
  -- a node has at most as many members as the nodes above it
  have hmono : ∀ x ∈ {i | s.used i = true}, ∀ y, Above (heads (leftNodes s.nodes l)) x y →
      (leftNodes s.nodes l y).cntProc = 0 → (leftNodes s.nodes l x).cntProc = 0 := by
    intro x hx y hxy hzero
    rw [heads_leftNodes] at hxy
    rw [h.cntProc_left hplace hmem (h.above_used hx hxy)] at hzero
    rw [h.cntProc_left hplace hmem hx]
    have hle : members s.nodes (update place p none) x
        ≤ members s.nodes (update place p none) y := population_mono hxy
    omega
  have hK : Rooted (heads (leftNodes s.nodes l)) (depths (leftNodes s.nodes l))
      {i | s.used i = true} := by
    rw [heads_leftNodes, depths_leftNodes]
    exact h.rooted
  obtain ⟨used, hclean, hused⟩ := cleanLoop_spec hK h.lt hmono hn
    (by rw [heads_leftNodes]; exact hchain) hfuel s.used
  refine ⟨l, used, hchain, hfuel, hmem, ?_, fun x => ?_⟩
  · unfold leaveNamespaces cleanNode
    rw [hnode, deref_some, ok_bind, ← hlen, leaveLoop_spec hchain hnodup.of_map, ok_bind, hclean]
    rfl
  · rw [hused x, hdepth x]

theorem reparent_spec {p n : ℕ} {l : List ℕ} (hnode : (s.proc p).node = some n)
    (hchain : Chain (heads s.nodes) (some n) l) (hfuel : l.length ≤ chainFuel) :
    ∃ t nodes, reparent s p = .ok t ∧ StirredAll { s with nodes := nodes } t
      ∧ ∀ x, nodes x = { s.nodes x with init := (nodes x).init } := by
  set nodes := if (s.nodes n).init = some p then
    update s.nodes n { s.nodes n with init := none } else s.nodes with hnodes
  have hinit : ∀ x, nodes x = { s.nodes x with init := (nodes x).init } := by
    intro x
    rw [hnodes]
    split_ifs
    · by_cases hx : x = n
      · subst hx
        simp
      · simp [hx]
    · rfl
  have hheads : heads nodes = heads s.nodes := by
    funext x
    unfold heads
    rw [hinit x]
  have hfind := findInit_spec (by rw [hheads]; exact hchain) hfuel s.initproc
  set newInit := (l.findSome? fun x => (nodes x).init).or s.initproc
  refine ⟨(List.range nproc).foldl (reparentOne p newInit) { s with nodes := nodes }, nodes, ?_,
    reparentLoop_stirred p newInit (List.range nproc) { s with nodes := nodes }, hinit⟩
  unfold reparent
  rw [hnode, deref_some, ok_bind]
  simp only
  rw [← hnodes, hfind, ok_bind]
  rfl

/-- **`exit`** gets to the scheduler, for every process but init. -/
theorem exit_spec (h : KInv s) {p : ℕ} (hp : p < nproc) (hrun : (s.proc p).state = .running)
    (hinit : s.initproc ≠ some p) (status : ℤ) :
    ∃ t, exit s p status = .ok t ∧ Exited s p status t := by
  have hlive := live_of_running hrun
  obtain ⟨n, hnode, hplace, -, -⟩ := h.exists_node hlive
  obtain ⟨ip, hcwd⟩ := (h.slots p).dir hlive
  obtain ⟨s₁, hclose, hfiles₁, hrest₁, hproc₁⟩ := closeOpen_spec hp hcwd h.files
  have hnodes₁ : s₁.nodes = s.nodes := by rw [hrest₁]
  have hused₁ : s₁.used = s.used := by rw [hrest₁]
  have hp₁ : s₁.proc p = { s.proc p with ofile := fun _ => none, cwd := none } := by
    rw [hproc₁, update_self]
  have hns₁ : NsInv s₁.nodes s₁.used (liveNode s) := by
    rw [hnodes₁, hused₁]
    exact h.ns
  obtain ⟨l, used, hchain, hfuel, hmem, hleave, hused⟩ :=
    leaveNamespaces_spec hns₁ (by rw [hp₁]; exact hnode) hplace
  set s₂ : Kernel := { s₁ with nodes := leftNodes s₁.nodes l, used := used } with hs₂
  obtain ⟨s₃, nodes, hrep, ⟨hrest₃, hstir₃⟩, hinit₃⟩ := reparent_spec (s := s₂) (p := p)
    (by rw [show s₂.proc p = s₁.proc p from rfl, hp₁]; exact hnode)
    (by rw [show heads s₂.nodes = heads s₁.nodes from heads_leftNodes _ _]; exact hchain) hfuel
  obtain ⟨hrest₄, hstir₄⟩ := wakeup_stirred s₃ p (s₃.proc p).parent
  set s₄ := wakeup s₃ p (s₃.proc p).parent with hs₄
  have hstir : ∀ q, Stirred (s₁.proc q) (s₄.proc q) := fun q => (hstir₃ q).trans (hstir₄ q)
  have hnodes₄ : s₄.nodes = nodes := by rw [hrest₄, hrest₃]
  refine ⟨s₄.updProc p fun q => { q with xstate := status, state := .zombie }, ?_, ?_⟩
  · unfold exit
    rw [if_neg hinit, hclose, ok_bind, hleave, ok_bind, hrep, ok_bind]
    rfl
  refine ⟨⟨n, l, hnode, hnodes₁ ▸ hchain, fun x => ?_, fun x => ?_⟩, ?_, ?_, ?_, ?_, ?_, fun q hq => ?_⟩
  · show s₄.nodes x = { leftNodes s.nodes l x with init := (s₄.nodes x).init }
    rw [hnodes₄, hinit₃ x, ← hnodes₁]
  · show s₄.used x = true ↔ _
    rw [show s₄.used = used by rw [hrest₄, hrest₃], hused x, hused₁, hnodes₁]
  · show s₄.mem = s.mem
    rw [hrest₄, hrest₃, hs₂, hrest₁]
  · show s₄.nextpid = s.nextpid
    rw [hrest₄, hrest₃, hs₂, hrest₁]
  · show s₄.initproc = s.initproc
    rw [hrest₄, hrest₃, hs₂, hrest₁]
  · refine hfiles₁.congr (fun q => ?_) (fun f => ?_)
    · by_cases hq : q = p
      · subst hq
        simp only [Kernel.updProc, update_self]
        rw [(hstir q).eq]
      · simp only [Kernel.updProc, update_of_ne hq]
        rw [(hstir q).eq]
    · show (s₄.file f).ref = (s₁.file f).ref
      rw [hrest₄, hrest₃]
  · simp only [Kernel.updProc, update_self]
    rw [(hstir p).eq, hp₁]
  · simp only [Kernel.updProc, update_of_ne hq]
    have hq₁ : s₁.proc q = s.proc q := by rw [hproc₁, update_of_ne hq]
    rw [← hq₁]
    exact hstir q

/-! ## `wait` -/

/-- What `wait` can do. -/
inductive Waited (s : Kernel) (p : ℕ) : WaitResult → Kernel → Prop
  | fail : Waited s p (.ret (-1)) s
  | reap {pp : ℕ} {m : PagePool} (hpp : pp < nproc) (hparent : (s.proc pp).parent = some p)
      (hzombie : (s.proc pp).state = .zombie) (hkend : m.kend = s.mem.kend) :
      Waited s p (.ret (s.proc pp).pid) ({ s with mem := m }.updProc pp Proc.cleared)
  | sleep : Waited s p .asleep (s.updProc p fun q => { q with chan := some p, state := .sleeping })

theorem freeproc_ok {i : ℕ} (h : SlotOk s.mem (s.proc i)) (hstate : (s.proc i).state ≠ .unused) :
    ∃ m, freeproc s i = .ok ({ s with mem := m }.updProc i Proc.cleared) ∧ m.kend = s.mem.kend := by
  obtain ⟨m, hrun, hmoves⟩ := freeproc_spec (h.freeable hstate)
  exact ⟨m, hrun, hmoves.kend⟩

theorem waitScan_spec (hslots : ∀ q, SlotOk s.mem (s.proc q)) (p : ℕ) (copyFails : Bool)
    (l : List ℕ) (hl : ∀ pp ∈ l, pp < nproc) (havekids : Bool) :
    (∃ kids, waitScan s p copyFails l havekids = .ok (none, kids, s))
      ∨ ∃ v kids t, waitScan s p copyFails l havekids = .ok (some v, kids, t) ∧ Waited s p (.ret v) t := by
  induction l generalizing havekids with
  | nil => exact Or.inl ⟨havekids, rfl⟩
  | cons pp l ih =>
    have ih' := ih (fun q hq => hl q (List.mem_cons_of_mem pp hq))
    rw [waitScan]
    by_cases hparent : (s.proc pp).parent = some p
    · rw [if_pos hparent]
      by_cases hzombie : (s.proc pp).state = .zombie
      · rw [if_pos hzombie]
        cases copyFails with
        | true => exact Or.inr ⟨-1, true, s, rfl, Waited.fail⟩
        | false =>
          obtain ⟨m, hrun, hkend⟩ := freeproc_ok (hslots pp) (by rw [hzombie]; decide)
          refine Or.inr ⟨(s.proc pp).pid, true, _, ?_,
            Waited.reap (hl pp List.mem_cons_self) hparent hzombie hkend⟩
          simp [hrun]
      · rw [if_neg hzombie]
        exact ih' true
    · rw [if_neg hparent]
      exact ih' havekids

/-- **`wait`** returns or goes to sleep. -/
theorem wait_spec (hslots : ∀ q, SlotOk s.mem (s.proc q)) (p : ℕ) (copyFails : Bool) :
    ∃ r t, wait s p copyFails = .ok (r, t) ∧ Waited s p r t := by
  unfold wait
  rcases waitScan_spec hslots p copyFails (List.range nproc) (fun _ => List.mem_range.mp) false with
    ⟨kids, hscan⟩ | ⟨v, kids, t, hscan, hwait⟩
  · rw [hscan]
    simp only [ok_bind]
    by_cases hkids : kids = false ∨ (s.proc p).killed = true
    · rw [if_pos hkids]
      exact ⟨.ret (-1), s, rfl, Waited.fail⟩
    · rw [if_neg hkids]
      exact ⟨.asleep, _, rfl, Waited.sleep⟩
  · rw [hscan]
    exact ⟨.ret v, t, rfl, hwait⟩

end Xv6
