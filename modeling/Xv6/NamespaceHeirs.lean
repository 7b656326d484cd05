/-
# Heirs in reachable states (`is_heir`)

A process that has exited points to its node until it is reaped, and its slot does so
even after that, while the node may have been freed and handed out again.  Such a
pointer is harmless for `is_heir`: in every reachable state the head chain of any slot
leads to the root, so the loop ends, and its answer is whether the node is on the chain.
-/
import Xv6.KernelInv

namespace Xv6

open Function HeadChain

variable {s t : Kernel}

/-- The invariant of the head pointers, of used nodes and of others: only the root has depth 0,
and the chain of every slot leads to it. -/
structure HeirInv (s : Kernel) : Prop where
  inner : ∀ x, (s.nodes x).head ≠ none → x < nnmnd ∧ (s.nodes x).depth ≠ 0
  chain : ∀ q a, (s.proc q).node = some a → Above (heads s.nodes) a 0
  placed : ∀ q, (s.proc q).state ≠ .unused → q < nproc ∧ ∃ a, (s.proc q).node = some a

/-- Where no process is created, no head changes. -/
theorem HeirInv.of_noBirth (h : HeirInv s) (hst : NoBirth s t) : HeirInv t := by
  have hheads : heads t.nodes = heads s.nodes := funext fun x => (hst.nodes x).1
  refine ⟨fun x hx => ?_, fun q a hq => ?_, fun q hq => ?_⟩
  · rw [(hst.nodes x).1] at hx
    rw [(hst.nodes x).2.1]
    exact h.inner x hx
  · rw [hheads]
    exact h.chain q a ((hst.place q).1.symm.trans hq)
  · rw [(hst.place q).1]
    exact h.placed q (hst.slot q hq).1

/-- **`fork` and `clone`** link a node at most below a used one. -/
theorem Birth.heirInv (hinv : KInv s) (h : HeirInv s) {p np : ℕ} (hp : (s.proc p).Live)
    {fresh : Bool} (hbirth : Birth s p fresh np t) : HeirInv t := by
  obtain ⟨a, nodes, l, hplace, -, hnodes, hnode, -⟩ := hbirth.place
  have hheads : heads t.nodes = heads nodes := by rw [hnodes, heads_enteredNodes]
  have hdepth : ∀ x, (t.nodes x).head = (nodes x).head ∧ (t.nodes x).depth = (nodes x).depth := by
    intro x
    refine ⟨congrFun hheads x, ?_⟩
    rw [hnodes]
    exact congrFun (depths_enteredNodes nodes l) x
  obtain ⟨b, hb, -, -, hbused⟩ := hinv.exists_node hp
  -- it is left to look at the nodes before the child enters them
  suffices hnew : (∀ x, (nodes x).head ≠ none → x < nnmnd ∧ (nodes x).depth ≠ 0)
      ∧ (∀ x, Above (heads s.nodes) x 0 → Above (heads nodes) x 0) ∧ Above (heads nodes) a 0 by
    obtain ⟨hinner, hkeep, ha⟩ := hnew
    refine ⟨fun x hx => ?_, fun q c hq => ?_, fun q hq => ?_⟩
    · rw [(hdepth x).1] at hx
      rw [(hdepth x).2]
      exact hinner x hx
    · rw [hheads]
      by_cases hqn : q = np
      · rw [hqn, hnode] at hq
        exact Option.some.inj hq ▸ ha
      · rw [hbirth.other q hqn] at hq
        exact hkeep c (h.chain q c hq)
    · by_cases hqn : q = np
      · exact ⟨hqn ▸ hbirth.lt, a, hqn ▸ hnode⟩
      · rw [hbirth.other q hqn] at hq ⊢
        exact h.placed q hq
  generalize t.used = used at hplace
  cases hplace with
  | same hn => exact ⟨h.inner, fun _ hx => hx, h.chain p a hn⟩
  | fresh hn hmalloc hi hfree hroom =>
    rw [hb] at hn
    cases hn
    set node : NamespaceNode :=
      { cntProc := 0, lastPid := 1, init := some np, head := some b,
        depth := (s.nodes b).depth + 1 }
    have hup : heads (update s.nodes a node) = update (heads s.nodes) a (some b) := by
      funext x
      unfold heads
      by_cases hx : x = a
      · rw [hx, update_self, update_self]
      · rw [update_of_ne hx, update_of_ne hx]
    -- the parent's chain consists of used nodes, so it does not meet the new one
    have hbup : Above (update (heads s.nodes) a (some b)) b 0 := by
      refine (hinv.ns.rooted.above_congr (fun x hx => ?_) hbused).mpr (h.chain p b hb)
      refine update_of_ne ?_ _ _
      rintro rfl
      rw [show s.used x = true from hx] at hfree
      cases hfree
    refine ⟨fun x hx => ?_, fun x hx => ?_, ?_⟩
    · by_cases hxa : x = a
      · rw [hxa, update_self]
        exact ⟨hi, Nat.succ_ne_zero _⟩
      · rw [update_of_ne hxa] at hx ⊢
        exact h.inner x hx
    · rw [hup]
      exact hx.update hbup
    · rw [hup]
      exact above_iff.mpr (Or.inr ⟨b, update_self _ _ _, hbup⟩)

/-- **The step lemma for heirs.** -/
theorem Stepped.heirInv (hinv : KInv s) (h : HeirInv s) {e : Event} (he : Enabled s e)
    {r : Option ℕ} (hst : Stepped s e r t) : HeirInv t := by
  cases r with
  | none => exact h.of_noBirth (hst.noBirth he)
  | some np =>
    obtain ⟨supply, fresh, -, hbirth⟩ := hst.birth
    have hlive : (s.proc e.proc).Live := hst.live_of_birth he
    exact hbirth.heirInv (hinv.refill supply) ⟨h.inner, h.chain, h.placed⟩ hlive

theorem Started.heirInv (h : Started s) : HeirInv s := by
  obtain ⟨tf, pt, hproc, hnodes, -⟩ := started_spec h
  have hslot : ∀ q, (s.proc q).node ≠ none ∨ (s.proc q).state ≠ .unused → q = 0 := by
    intro q hq
    by_contra hne
    rw [hproc, update_of_ne hne] at hq
    rcases hq with hq | hq
    · exact hq rfl
    · exact hq rfl
  have h0 : (s.proc 0).node = some 0 := by rw [hproc, update_self]; rfl
  refine ⟨fun x hx => ?_, fun q a hq => ?_, fun q hq => ?_⟩
  · refine absurd ?_ hx
    rw [hnodes]
    by_cases hx0 : x = 0
    · rw [hx0, update_self]
      rfl
    · rw [update_of_ne hx0]
  · rw [hslot q (Or.inl (by rw [hq]; simp)), h0] at hq
    rw [← Option.some.inj hq]
    exact Above.refl 0
  · rw [hslot q (Or.inr hq)]
    exact ⟨by decide, 0, h0⟩

/-- **The run lemma for heirs.** -/
theorem Reach.heirInv {ok : Kernel → Event → Prop} {n : ℕ} (h : Reach ok n s) : HeirInv s := by
  induction h with
  | start hs => exact hs.heirInv
  | step hreach he _ hstep ih => exact (stepped_of_ok hreach.inv he hstep).heirInv hreach.inv ih he

/-- The chain of the node of any slot ends at the root, and only there is the depth 0. -/
theorem HeirInv.exists_chain (h : HeirInv s) (hinv : KInv s) {q a : ℕ}
    (hq : (s.proc q).node = some a) :
    ∃ l, Chain (heads s.nodes) (some a) l ∧ l.length ≤ chainFuel
      ∧ (∀ x ∈ l, (s.nodes x).head = none → x = 0)
      ∧ ∀ x ∈ l, (s.nodes x).depth = 0 ↔ (s.nodes x).head = none := by
  have hup := h.chain q a hq
  have hnone : heads s.nodes 0 = none := hinv.ns.root.2.1
  obtain ⟨l, hl⟩ := hup.exists_chain hnone
  have hmem : ∀ x ∈ l, (s.nodes x).head = none → x = 0 := fun x hx hxr =>
    hup.root_unique hnone ((hl.mem_iff x).mp hx) hxr
  have hroot : ∀ x ∈ l, (s.nodes x).depth = 0 ↔ (s.nodes x).head = none := by
    intro x hx
    constructor
    · intro hzero
      by_contra hne
      exact (h.inner x hne).2 hzero
    · intro hxr
      rw [hmem x hx hxr]
      exact hinv.ns.root.2.2
  -- the chain has no repetition, so it is no longer than the pool of nodes
  have hlen : l.length ≤ chainFuel := by
    rw [← List.toFinset_card_of_nodup hl.nodup]
    refine le_trans (Finset.card_le_card (t := Finset.range nnmnd) fun x hx => ?_) ?_
    · rw [Finset.mem_range]
      by_cases hxr : (s.nodes x).head = none
      · rw [hmem x (List.mem_toFinset.mp hx) hxr]
        decide
      · exact (h.inner x hxr).1
    · rw [Finset.card_range]
      decide
  exact ⟨l, hl, hlen, hmem, hroot⟩

/-- **`is_heir` returns** for the node of any slot, and says whether the other node is on its
chain. -/
theorem HeirInv.isHeir_spec (h : HeirInv s) (hinv : KInv s) {q a : ℕ}
    (hq : (s.proc q).node = some a) (b : ℕ) :
    ∃ r, isHeir s.nodes (some a) (some b) = .ok r ∧ (r = true ↔ Above (heads s.nodes) a b) := by
  obtain ⟨l, hl, hlen, -, hroot⟩ := h.exists_chain hinv hq
  refine ⟨_, isHeirLoop_spec hl hroot hlen (some b), ?_⟩
  rw [decide_eq_true_iff, List.mem_map_of_injective (Option.some_injective ℕ), hl.mem_iff b]

theorem HeirInv.isHeir_iff (h : HeirInv s) (hinv : KInv s) {q a : ℕ} (hq : (s.proc q).node = some a)
    (b : ℕ) : isHeir s.nodes (some a) (some b) = .ok true ↔ Above (heads s.nodes) a b := by
  obtain ⟨r, hrun, hr⟩ := h.isHeir_spec hinv hq b
  rw [hrun, ← hr]
  exact ⟨fun heq => Except.ok.inj heq, fun heq => congrArg Except.ok heq⟩

/-- **`is_heir` always terminates.**  In every reachable state the node of any slot, whatever the
state of the slot and whether or not the node is still in use, has a chain of heads that comes to
the root after finitely many nodes of positive depth, so `is_heir` returns and never follows a null
pointer. -/
theorem is_heir_terminates {n : ℕ} (h : Reach (fun _ _ => True) n s) {q a : ℕ}
    (hq : (s.proc q).node = some a) :
    (∃ l, Chain (heads s.nodes) (some a) (l ++ [0]) ∧ (∀ x ∈ l, 0 < (s.nodes x).depth)
      ∧ (s.nodes 0).depth = 0)
    ∧ ∀ other, ∃ r, isHeir s.nodes (some a) other = .ok r := by
  obtain ⟨l, hl, hlen, hmem, hroot⟩ := h.heirInv.exists_chain h.inv hq
  refine ⟨?_, fun other => ⟨_, isHeirLoop_spec hl hroot hlen other⟩⟩
  obtain ⟨l', r, rfl, hr⟩ := hl.exists_last
  obtain rfl := hmem r (by simp) hr
  refine ⟨l', hl, fun x hx => ?_, h.inv.ns.root.2.2⟩
  rw [Nat.pos_iff_ne_zero, ne_eq, hroot x (List.mem_append_left _ hx)]
  intro hnone
  -- the root is the end of the chain, and is not met before
  obtain rfl := hmem x (List.mem_append_left _ hx) hnone
  exact (List.nodup_append.mp hl.nodup).2.2 0 hx 0 (List.mem_singleton_self 0) rfl

/-- A process clones, its child clones and exits, and its grandchild exits: the nodes of both are
free, and a clone of the first process gets the child's node.  The slot of the grandchild, a zombie,
still has its old node, whose head is the node that has been handed out again. -/
theorem is_heir_terminates_reused :
    ∃ n s, Reach (fun _ _ => True) n s ∧ (s.proc 2).state = .zombie ∧ (s.proc 2).node = some 2
      ∧ s.used 2 = false ∧ (s.nodes 2).head = some 1 ∧ (s.proc 3).node = some 1
      ∧ ∃ r, isHeir s.nodes (some 2) (some 1) = .ok r := by
  obtain ⟨n, s, hreach, hcheck⟩ := reach_of_run (fun _ _ => true) (fun _ _ _ => trivial)
    [.dispatch 0, .clone 0 (tenPages 1), .dispatch 1, .clone 1 (tenPages 2), .dispatch 2,
      .exit 2 0, .exit 1 0, .clone 0 (tenPages 3)]
    (fun x => (x.2.proc 2).state = .zombie ∧ (x.2.proc 2).node = some 2 ∧ x.2.used 2 = false
      ∧ (x.2.nodes 2).head = some 1 ∧ (x.2.proc 3).node = some 1) (by decide +kernel)
  obtain ⟨hzombie, hnode, hused, hhead, hnew⟩ := of_decide_eq_true hcheck
  exact ⟨n, s, hreach, hzombie, hnode, hused, hhead, hnew,
    (is_heir_terminates hreach hnode).2 (some 1)⟩

/-! ## `ps_list` -/

/-- The second loop of `ps_list`, where `f` says which slots are listed. -/
theorem psListLoop_spec {node depth : ℕ} {limit : ℤ} {f : ℕ → Bool} {l : List ℕ}
    (hl : ∀ q ∈ l, listed s node q = .ok (f q)) {out : List ℤ} (hout : out.length < limit) :
    psListLoop s node depth limit l out = .ok (out ++
      ((l.filter f).map fun q => (s.proc q).namespacePids depth).take (limit - out.length).toNat) := by
  induction l generalizing out with
  | nil => simp [psListLoop]
  | cons q l ih =>
    have htail : ∀ x ∈ l, listed s node x = .ok (f x) := fun x hx => hl x (List.mem_cons_of_mem q hx)
    rw [psListLoop, hl q List.mem_cons_self, ok_bind]
    cases hq : f q with
    | false =>
      simp only [Bool.false_eq_true, if_false, List.filter_cons, hq]
      rw [if_neg (ne_of_lt hout)]
      exact ih htail hout
    | true =>
      simp only [if_true, List.filter_cons, hq, List.map_cons]
      obtain ⟨k, hk⟩ : ∃ k : ℕ, (limit - out.length).toNat = k + 1 :=
        ⟨(limit - out.length).toNat - 1, by omega⟩
      have hlen : (out ++ [(s.proc q).namespacePids depth]).length = out.length + 1 := by simp
      rw [hk, List.take_succ_cons]
      by_cases hlast : ((out ++ [(s.proc q).namespacePids depth]).length : ℤ) = limit
      · -- the list is full
        have hzero : k = 0 := by
          rw [hlen] at hlast
          push_cast at hlast
          omega
        rw [if_pos hlast, hzero]
        rfl
      · rw [if_neg hlast]
        have hlt : ((out ++ [(s.proc q).namespacePids depth]).length : ℤ) < limit := by
          rw [hlen] at hlast ⊢
          push_cast at hlast ⊢
          omega
        rw [ih htail hlt, hlen, List.append_assoc]
        have hk' : (limit - ((out.length + 1 : ℕ) : ℤ)).toNat = k := by
          push_cast
          omega
        rw [hk']
        rfl

/-- **`ps_list` in the root namespace** lists all processes, up to its limit. -/
theorem HeirInv.psList_root (h : HeirInv s) (hinv : KInv s) {p : ℕ} (hp : (s.proc p).node = some 0)
    {limit : ℤ} (hlimit : 0 < limit) :
    psList s p limit = .ok ((((List.range nproc).filter fun q => (s.proc q).state ≠ .unused).map
      fun q => (s.proc q).namespacePids 0).take limit.toNat) := by
  have hlisted : ∀ q ∈ List.range nproc,
      listed s 0 q = .ok (decide ((s.proc q).state ≠ .unused)) := by
    intro q _
    unfold listed
    by_cases hq : (s.proc q).state = .unused
    · simp [hq]
    · obtain ⟨-, a, ha⟩ := h.placed q hq
      rw [if_neg hq, ha, (h.isHeir_iff hinv ha 0).mpr (h.chain q a ha)]
      simp [hq]
  unfold psList
  rw [hp, deref_some, ok_bind, hinv.ns.root.2.2, psListLoop_spec hlisted (by simpa using hlimit)]
  simp

end Xv6
