/-
# Namespace accounting

The loops over head chains, described by the list of nodes on the chain, and the
invariant `NsInv` of the namespace nodes: the used nodes form a tree below node `0`,
the count of a node is the number of live processes on it or below it, and a node
other than the root is used exactly as long as its count is positive.  `NsInv.enter`,
`NsInv.enter_new` and `NsInv.leave` are the steps of `fork`, `clone` and `exit`.
-/
import Xv6.HeadChain
import Xv6.ProcModel

namespace Xv6

open Function HeadChain

variable {l : List ℕ} {a : Option ℕ} {fuel i n q x : ℕ}

/-! ## The loops over a head chain -/

/-- The head pointers. -/
def heads (nodes : ℕ → NamespaceNode) : ℕ → Option ℕ := fun x => (nodes x).head

/-- The depths. -/
def depths (nodes : ℕ → NamespaceNode) : ℕ → ℕ := fun x => (nodes x).depth

/-- The nodes after a process has entered those of `l`. -/
def enteredNodes (nodes : ℕ → NamespaceNode) (l : List ℕ) : ℕ → NamespaceNode := fun x =>
  if x ∈ l then
    { nodes x with cntProc := (nodes x).cntProc + 1, lastPid := int32 ((nodes x).lastPid + 1) }
  else nodes x

/-- The nodes after a process has left those of `l`. -/
def leftNodes (nodes : ℕ → NamespaceNode) (l : List ℕ) : ℕ → NamespaceNode := fun x =>
  if x ∈ l then { nodes x with cntProc := (nodes x).cntProc - 1 } else nodes x

section Frames

variable (nodes : ℕ → NamespaceNode)

@[simp] theorem heads_enteredNodes (l : List ℕ) : heads (enteredNodes nodes l) = heads nodes := by
  funext x
  unfold heads enteredNodes
  split_ifs <;> rfl

@[simp] theorem depths_enteredNodes (l : List ℕ) : depths (enteredNodes nodes l) = depths nodes := by
  funext x
  unfold depths enteredNodes
  split_ifs <;> rfl

@[simp] theorem heads_leftNodes (l : List ℕ) : heads (leftNodes nodes l) = heads nodes := by
  funext x
  unfold heads leftNodes
  split_ifs <;> rfl

@[simp] theorem depths_leftNodes (l : List ℕ) : depths (leftNodes nodes l) = depths nodes := by
  funext x
  unfold depths leftNodes
  split_ifs <;> rfl

@[simp] theorem enteredNodes_nil : enteredNodes nodes [] = nodes := by
  funext x
  simp [enteredNodes]

@[simp] theorem leftNodes_nil : leftNodes nodes [] = nodes := by
  funext x
  simp [leftNodes]

theorem enteredNodes_cons (hx : x ∉ l) :
    enteredNodes (enteredNodes nodes [x]) l = enteredNodes nodes (x :: l) := by
  funext y
  unfold enteredNodes
  by_cases hy : y = x
  · subst hy
    simp [hx]
  · simp [hy]

theorem leftNodes_cons (hx : x ∉ l) :
    leftNodes (leftNodes nodes [x]) l = leftNodes nodes (x :: l) := by
  funext y
  unfold leftNodes
  by_cases hy : y = x
  · subst hy
    simp [hx]
  · simp [hy]

theorem update_eq_enteredNodes (x : ℕ) :
    update nodes x
      { nodes x with cntProc := (nodes x).cntProc + 1, lastPid := int32 ((nodes x).lastPid + 1) }
      = enteredNodes nodes [x] := by
  funext y
  unfold enteredNodes
  by_cases hy : y = x
  · subst hy
    simp
  · simp [hy]

theorem update_eq_leftNodes (x : ℕ) :
    update nodes x { nodes x with cntProc := (nodes x).cntProc - 1 }
      = leftNodes nodes [x] := by
  funext y
  unfold leftNodes
  by_cases hy : y = x
  · subst hy
    simp
  · simp [hy]

end Frames

/-- **The loop of `fork` and `clone`**: every node of the chain counts one more process and
hands out its next pid, which the process keeps at the depth of the node. -/
theorem enterLoop_spec {nodes : ℕ → NamespaceNode} (hchain : Chain (heads nodes) a l)
    (hnodup : (l.map (depths nodes)).Nodup) (hdepth : ∀ x ∈ l, (nodes x).depth < npids)
    (pids : ℕ → ℤ) :
    ∃ pids', enterLoop l.length a nodes pids = .ok (enteredNodes nodes l, pids')
      ∧ (∀ x ∈ l, pids' (nodes x).depth = (nodes x).lastPid)
      ∧ ∀ d, (∀ x ∈ l, (nodes x).depth ≠ d) → pids' d = pids d := by
  induction l generalizing nodes a pids with
  | nil => exact ⟨pids, by simp [enterLoop], by simp, fun _ _ => rfl⟩
  | cons x l ih =>
    obtain _ | htail := hchain
    obtain ⟨hx, hl⟩ := List.nodup_cons.mp hnodup
    have hx' : x ∉ l := fun hmem => hx (List.mem_map_of_mem hmem)
    -- the rest of the chain sees its own nodes unchanged
    have hkeep : ∀ y ∈ l, enteredNodes nodes [x] y = nodes y := by
      intro y hy
      have hne : y ≠ x := fun h => hx' (h ▸ hy)
      simp [enteredNodes, hne]
    have htail' : Chain (heads (enteredNodes nodes [x])) (heads nodes x) l := by
      rw [heads_enteredNodes]
      exact htail
    obtain ⟨pids', hrun, hset, hrest⟩ := ih htail' (by rw [depths_enteredNodes]; exact hl)
      (fun y hy => by rw [hkeep y hy]; exact hdepth y (List.mem_cons_of_mem x hy))
      (update pids (nodes x).depth (nodes x).lastPid)
    refine ⟨pids', ?_, fun y hy => ?_, fun d hd => ?_⟩
    · rw [List.length_cons, enterLoop, deref_some, ok_bind]
      simp only
      rw [if_neg (not_le.mpr (hdepth x List.mem_cons_self)), update_eq_enteredNodes,
        ← enteredNodes_cons nodes hx']
      exact hrun
    · rcases List.mem_cons.mp hy with rfl | hy
      · rw [hrest _ (fun z hz heq => hx (List.mem_map.mpr ⟨z, hz, ?_⟩)), update_self]
        rw [hkeep z hz] at heq
        exact heq
      · have := hset y hy
        rwa [hkeep y hy] at this
    · rw [hrest d (fun y hy => by rw [hkeep y hy]; exact hd y (List.mem_cons_of_mem x hy)),
        update_of_ne (hd x List.mem_cons_self).symm]

/-- **The loop of `exit`.** -/
theorem leaveLoop_spec {nodes : ℕ → NamespaceNode} (hchain : Chain (heads nodes) a l)
    (hnodup : l.Nodup) : leaveLoop l.length a nodes = .ok (leftNodes nodes l) := by
  induction l generalizing nodes a with
  | nil => simp [leaveLoop]
  | cons x l ih =>
    obtain _ | htail := hchain
    obtain ⟨hx, hl⟩ := List.nodup_cons.mp hnodup
    rw [List.length_cons, leaveLoop, deref_some, ok_bind]
    simp only
    rw [update_eq_leftNodes, ← leftNodes_cons nodes hx]
    exact ih (by rw [heads_leftNodes]; exact htail) hl

/-- **`clean_node`** frees the nodes of the chain that are not the root and have no process
left, if those come first on the chain. -/
theorem cleanLoop_spec {nodes : ℕ → NamespaceNode} {K : Set ℕ}
    (hK : Rooted (heads nodes) (depths nodes) K) (hlt : ∀ x ∈ K, x < nnmnd)
    (hmono : ∀ x ∈ K, ∀ y, Above (heads nodes) x y → (nodes y).cntProc = 0 → (nodes x).cntProc = 0)
    (hn : n ∈ K) (hchain : Chain (heads nodes) (some n) l) (hfuel : l.length ≤ fuel)
    (used : ℕ → Bool) :
    ∃ used', cleanLoop fuel nodes used (some n) = .ok used'
      ∧ ∀ x, used' x = true
        ↔ used x = true ∧ ¬ (x ∈ l ∧ (nodes x).depth ≠ 0 ∧ (nodes x).cntProc = 0) := by
  induction l generalizing n fuel used with
  | nil => cases hchain
  | cons n l ih =>
    obtain _ | htail := hchain
    obtain ⟨fuel, rfl⟩ : ∃ f, fuel = f + 1 := ⟨fuel - 1, by simp at hfuel; omega⟩
    rw [cleanLoop, deref_some, ok_bind]
    by_cases hfree : (nodes n).depth ≠ 0 ∧ (nodes n).cntProc = 0
    · rw [if_pos hfree]
      rcases hK n hn with ⟨-, hzero⟩ | ⟨h, hh, hhead, -⟩
      · exact absurd hzero hfree.1
      rw [hhead] at htail
      obtain ⟨used', hrun, hused⟩ := ih hh htail (by simpa using hfuel) (namespaceFree used n)
      refine ⟨used', ?_, fun x => ?_⟩
      · rw [show (nodes n).head = some h from hhead]
        exact hrun
      · rw [hused x]
        unfold namespaceFree
        rw [if_pos (hlt n hn)]
        by_cases hx : x = n
        · subst hx
          simp [hfree]
        · simp [hx]
    · rw [if_neg hfree]
      refine ⟨used, rfl, fun x => ⟨fun hx => ⟨hx, ?_⟩, fun hx => hx.1⟩⟩
      -- a node further up that could be freed would make this one free
      rintro ⟨hmem, hdepth, hcnt⟩
      have habove : Above (heads nodes) n x :=
        ((Chain.cons htail : Chain (heads nodes) (some n) (n :: l)).mem_iff x).mp hmem
      have hle : (nodes x).depth ≤ (nodes n).depth := hK.depth_le hn habove
      exact hfree ⟨by omega, hmono n hn x habove hcnt⟩

/-- **The first loop of `reparent`** finds the first init on the chain. -/
theorem findInit_spec {nodes : ℕ → NamespaceNode} (hchain : Chain (heads nodes) a l)
    (hfuel : l.length ≤ fuel) (d : Option ℕ) :
    findInit fuel nodes a d = .ok ((l.findSome? fun x => (nodes x).init).or d) := by
  induction l generalizing a fuel with
  | nil =>
    obtain _ | _ := hchain
    cases fuel <;> simp [findInit]
  | cons x l ih =>
    obtain _ | htail := hchain
    obtain ⟨fuel, rfl⟩ : ∃ f, fuel = f + 1 := ⟨fuel - 1, by simp at hfuel; omega⟩
    rw [findInit]
    cases hinit : (nodes x).init with
    | some q => simp [hinit]
    | none =>
      simp only [List.findSome?_cons, hinit]
      exact ih htail (by simpa using hfuel)

/-- **`is_heir`** follows the head chain, if only its end has depth 0. -/
theorem isHeirLoop_spec {nodes : ℕ → NamespaceNode} (hchain : Chain (heads nodes) (some n) l)
    (hroot : ∀ x ∈ l, (nodes x).depth = 0 ↔ (nodes x).head
      = none) (hfuel : l.length ≤ fuel) (other : Option ℕ) :
    isHeirLoop fuel nodes (some n) other = .ok (decide (other ∈ l.map some)) := by
  induction l generalizing n fuel with
  | nil => cases hchain
  | cons n l ih =>
    obtain _ | htail := hchain
    obtain ⟨fuel, rfl⟩ : ∃ f, fuel = f + 1 := ⟨fuel - 1, by simp at hfuel; omega⟩
    rw [isHeirLoop, deref_some, ok_bind]
    have hn := hroot n List.mem_cons_self
    cases hhead : (nodes n).head with
    | none =>
      -- the root: the loop ends, and so does the chain
      rw [if_neg (not_lt.mpr (le_of_eq (hn.mpr hhead)))]
      rw [show heads nodes n = none from hhead] at htail
      cases htail
      simp [eq_comm]
    | some h =>
      have hpos : (nodes n).depth > 0 := by
        refine Nat.pos_of_ne_zero fun hzero => ?_
        rw [hn.mp hzero] at hhead
        cases hhead
      rw [if_pos hpos]
      rw [show heads nodes n = some h from hhead] at htail
      by_cases hb : some n = other
      · subst hb
        simp
      · rw [if_neg hb,
          ih htail (fun x hx => hroot x (List.mem_cons_of_mem n hx)) (by simpa using hfuel)]
        simp [Ne.symm hb]

/-! ## The invariant -/

/-- The members of the forest are the slots of the process table. -/
noncomputable def members (nodes : ℕ → NamespaceNode) (place : ℕ → Option ℕ) (i : ℕ) : ℕ :=
  population (heads nodes) (Finset.range nproc) place i

/-- The tree of used nodes and the counts of its nodes, where `place q` is the node of
process `q` if it is live. -/
structure NsTree (nodes : ℕ → NamespaceNode) (used : ℕ → Bool) (place : ℕ → Option ℕ) : Prop where
  root : used 0 = true ∧ (nodes 0).head = none ∧ (nodes 0).depth = 0
  inner : ∀ i, used i = true → i ≠ 0 → ∃ h, (nodes i).head = some h ∧ used h = true
    ∧ (nodes i).depth = (nodes h).depth + 1
  lt : ∀ i, used i = true → i < nnmnd
  depth_lt : ∀ i, used i = true → (nodes i).depth < npids
  count : ∀ i, used i = true → (nodes i).cntProc = members nodes place i
  idle : ∀ i, used i = false → (nodes i).cntProc = 0
  placed : ∀ q n, place q = some n → q < nproc ∧ used n = true

/-- Besides, every node but the root has a process on it or below it. -/
structure NsInv (nodes : ℕ → NamespaceNode) (used : ℕ → Bool) (place : ℕ → Option ℕ) : Prop
    extends NsTree nodes used place where
  busy : ∀ i, used i = true → i ≠ 0 → 0 < (nodes i).cntProc

namespace NsTree

variable {nodes nodes' : ℕ → NamespaceNode} {used : ℕ → Bool} {place : ℕ → Option ℕ}

/-- The used nodes. -/
theorem rooted (h : NsTree nodes used place) :
    Rooted (heads nodes) (depths nodes) {i | used i = true} := by
  intro i hi
  by_cases h0 : i = 0
  · subst h0
    exact Or.inl h.root.2
  · obtain ⟨hd, hhead, hused, hdepth⟩ := h.inner i hi h0
    exact Or.inr ⟨hd, hused, hhead, hdepth⟩

theorem depth_ne_zero (h : NsTree nodes used place) (hi : used i = true) (h0 : i ≠ 0) :
    (nodes i).depth ≠ 0 := by
  obtain ⟨hd, -, -, hdepth⟩ := h.inner i hi h0
  omega

/-- The chain of a used node, with everything the loops need. -/
theorem exists_chain (h : NsTree nodes used place) (hn : used n = true) :
    ∃ l, Chain (heads nodes) (some n) l ∧ l.length = (nodes n).depth + 1
      ∧ (l.map (depths nodes)).Nodup ∧ l.length ≤ chainFuel
      ∧ ∀ x, x ∈ l ↔ Above (heads nodes) n x := by
  obtain ⟨l, hchain, hlen⟩ := h.rooted.exists_chain hn
  refine ⟨l, hchain, hlen, h.rooted.chain_depth_nodup hn hchain, ?_, hchain.mem_iff⟩
  have hlt : depths nodes n < npids := h.depth_lt n hn
  have : npids ≤ chainFuel := by decide
  omega

theorem above_used (h : NsTree nodes used place) (hn : used n
      = true) (hx : Above (heads nodes) n x) :
    used x = true :=
  h.rooted.above_mem hn hx

theorem congr (h : NsTree nodes used place)
    (hn : ∀ x, (nodes' x).head = (nodes x).head ∧ (nodes' x).depth = (nodes x).depth
      ∧ (nodes' x).cntProc = (nodes x).cntProc) : NsTree nodes' used place := by
  have hheads : heads nodes' = heads nodes := funext fun x => (hn x).1
  refine ⟨?_, fun i hi h0 => ?_, h.lt, fun i hi => ?_, fun i hi => ?_, fun i hi => ?_, h.placed⟩
  · rw [(hn 0).1, (hn 0).2.1]
    exact h.root
  · obtain ⟨hd, hhead, hused, hdepth⟩ := h.inner i hi h0
    exact ⟨hd, (hn i).1.trans hhead, hused, by rw [(hn i).2.1, (hn hd).2.1, hdepth]⟩
  · rw [(hn i).2.1]
    exact h.depth_lt i hi
  · unfold members
    rw [(hn i).2.2, hheads]
    exact h.count i hi
  · rw [(hn i).2.2]
    exact h.idle i hi

theorem enter (h : NsTree nodes used place) (hq : q < nproc) (hplace : place q = none)
    (hn : used n = true) (hl : ∀ x, x ∈ l ↔ Above (heads nodes) n x) :
    NsTree (enteredNodes nodes l) used (update place q (some n)) := by
  have hheads := heads_enteredNodes nodes l
  have hdepths : ∀ x, (enteredNodes nodes l x).depth = (nodes x).depth :=
    congrFun (depths_enteredNodes nodes l)
  have hhead : ∀ x, (enteredNodes nodes l x).head = (nodes x).head := congrFun hheads
  refine ⟨?_, fun i hi h0 => ?_, h.lt, fun i hi => ?_, fun i hi => ?_, fun i hi => ?_,
    fun r m hr => ?_⟩
  · rw [hhead, hdepths]
    exact h.root
  · rw [hhead, hdepths]
    obtain ⟨hd, hh, hused, hdepth⟩ := h.inner i hi h0
    exact ⟨hd, hh, hused, by rw [hdepths, hdepth]⟩
  · rw [hdepths]
    exact h.depth_lt i hi
  · unfold members
    rw [hheads, population_join (Finset.mem_range.mpr hq) hplace]
    have hcount : (nodes i).cntProc = members nodes place i := h.count i hi
    unfold members at hcount
    by_cases hil : i ∈ l
    · rw [if_pos ((hl i).mp hil)]
      simp [enteredNodes, hil, hcount]
    · rw [if_neg (fun ha => hil ((hl i).mpr ha))]
      simp [enteredNodes, hil, hcount]
  · have hil : i ∉ l := by
      intro hil
      rw [h.above_used hn ((hl i).mp hil)] at hi
      cases hi
    simp [enteredNodes, hil, h.idle i hi]
  · by_cases hrq : r = q
    · subst hrq
      rw [update_self] at hr
      cases hr
      exact ⟨hq, hn⟩
    · rw [update_of_ne hrq] at hr
      exact h.placed r m hr

theorem add_node (h : NsTree nodes used place) (hi : i < nnmnd) (hfree : used i = false)
    (hn : used n = true) {node : NamespaceNode} (hcnt : node.cntProc = 0)
    (hhead : node.head = some n) (hdepth : node.depth = (nodes n).depth + 1)
    (hroom : node.depth < npids) : NsTree (update nodes i node) (update used i true) place := by
  have hne : ∀ {x}, used x = true → x ≠ i := by
    rintro x hx rfl
    rw [hx] at hfree
    cases hfree
  have hkeep : ∀ {x}, used x = true → update nodes i node x = nodes x :=
    fun hx => update_of_ne (hne hx) _ _
  have hused : ∀ {x}, used x = true → update used i true x = true :=
    fun hx => (update_of_ne (hne hx) _ _).trans hx
  have hheads : ∀ x ∈ {i | used i = true}, heads (update nodes i node) x = heads nodes x :=
    fun x hx => congrArg NamespaceNode.head (hkeep hx)
  -- chains from places are as before, and none of them meets the new node
  have hpop : ∀ x, members (update nodes i node) place x = members nodes place x :=
    fun x => population_congr (fun _ _ => rfl)
      (fun b _ a hb => h.rooted.above_congr hheads (h.placed b a hb).2)
  refine ⟨?_, fun x hx h0 => ?_, fun x hx => ?_, fun x hx => ?_, fun x hx => ?_, fun x hx => ?_,
    fun q m hq => ⟨(h.placed q m hq).1, hused (h.placed q m hq).2⟩⟩
  · rw [hkeep h.root.1]
    exact ⟨hused h.root.1, h.root.2⟩
  · by_cases hxi : x = i
    · subst hxi
      rw [update_self]
      exact ⟨n, hhead, hused hn, by rw [hkeep hn, hdepth]⟩
    · rw [update_of_ne hxi] at hx
      obtain ⟨hd, hh, hhd, hxd⟩ := h.inner x hx h0
      rw [hkeep hx]
      exact ⟨hd, hh, hused hhd, by rw [hkeep hhd, hxd]⟩
  · by_cases hxi : x = i
    · rw [hxi]
      exact hi
    · rw [update_of_ne hxi] at hx
      exact h.lt x hx
  · by_cases hxi : x = i
    · rw [hxi, update_self]
      exact hroom
    · rw [update_of_ne hxi] at hx
      rw [hkeep hx]
      exact h.depth_lt x hx
  · rw [hpop]
    by_cases hxi : x = i
    · rw [hxi, update_self, hcnt]
      symm
      rw [Nat.cast_eq_zero]
      by_contra hpos
      obtain ⟨b, -, a, hb, ha⟩ := population_pos_iff.mp (Nat.pos_of_ne_zero hpos)
      exact hne (h.above_used (h.placed b a hb).2 ha) rfl
    · rw [update_of_ne hxi] at hx
      rw [hkeep hx]
      exact h.count x hx
  · by_cases hxi : x = i
    · rw [hxi, update_self] at hx
      cases hx
    · rw [update_of_ne hxi] at hx ⊢
      exact h.idle x hx

end NsTree

namespace NsInv

variable {nodes nodes' : ℕ → NamespaceNode} {used used' : ℕ → Bool} {place : ℕ → Option ℕ}

theorem congr (h : NsInv nodes used place)
    (hn : ∀ x, (nodes' x).head = (nodes x).head ∧ (nodes' x).depth = (nodes x).depth
      ∧ (nodes' x).cntProc = (nodes x).cntProc) : NsInv nodes' used place :=
  ⟨h.toNsTree.congr hn, fun i hi h0 => by rw [(hn i).2.2]; exact h.busy i hi h0⟩

/-- **`fork`**: a process `q` enters the chain of a used node. -/
theorem enter (h : NsInv nodes used place) (hq : q < nproc) (hplace : place q = none)
    (hn : used n = true) (hl : ∀ x, x ∈ l ↔ Above (heads nodes) n x) :
    NsInv (enteredNodes nodes l) used (update place q (some n)) := by
  refine ⟨h.toNsTree.enter hq hplace hn hl, fun i hi h0 => ?_⟩
  have hpos := h.busy i hi h0
  unfold enteredNodes
  split_ifs
  · show 0 < (nodes i).cntProc + 1
    omega
  · exact hpos

/-- **`clone`**: a process enters the chain of a new node. -/
theorem enter_new (h : NsInv nodes used place) (hq : q < nproc) (hplace : place q = none)
    (hi : i < nnmnd) (hfree : used i = false) (hn : used n = true) {node : NamespaceNode}
    (hcnt : node.cntProc = 0) (hhead : node.head = some n)
    (hdepth : node.depth = (nodes n).depth + 1) (hroom : node.depth < npids)
    (hl : ∀ x, x ∈ l ↔ Above (heads (update nodes i node)) i x) :
    NsInv (enteredNodes (update nodes i node) l) (update used i true)
      (update place q (some i)) := by
  have htree := h.toNsTree.add_node hi hfree hn hcnt hhead hdepth hroom
  refine ⟨htree.enter hq hplace (update_self _ _ _) hl, fun x hx h0 => ?_⟩
  by_cases hxi : x = i
  · -- the new node is the first on the chain
    subst hxi
    have hmem : x ∈ l := (hl x).mpr (Above.refl x)
    simp [enteredNodes, hmem, hcnt]
  · rw [update_of_ne hxi] at hx
    have hpos := h.busy x hx h0
    unfold enteredNodes
    rw [update_of_ne hxi]
    split_ifs
    · show 0 < (nodes x).cntProc + 1
      omega
    · exact hpos

/-- Counts are those of the members that are left. -/
theorem cntProc_left (h : NsInv nodes used place) (hplace : place q = some n)
    (hl : ∀ x, x ∈ l ↔ Above (heads nodes) n x) (hi : used i = true) :
    (leftNodes nodes l i).cntProc = members nodes (update place q none) i := by
  have hcount : (nodes i).cntProc = members nodes place i := h.count i hi
  have hq := Finset.mem_range.mpr (h.placed q n hplace).1
  unfold members at *
  rw [population_leave hq hplace] at hcount
  by_cases hil : i ∈ l
  · rw [if_pos ((hl i).mp hil)] at hcount
    simp [leftNodes, hil, hcount]
  · rw [if_neg (fun ha => hil ((hl i).mpr ha))] at hcount
    simp [leftNodes, hil, hcount]

/-- **`exit`**: a process leaves the chain of its node, and the nodes of the chain that have
no process left are freed. -/
theorem leave (h : NsInv nodes used place) (hplace : place q = some n)
    (hl : ∀ x, x ∈ l ↔ Above (heads nodes) n x)
    (hused : ∀ x, used' x = true ↔ used x = true
      ∧ ¬ (x ∈ l ∧ (nodes x).depth ≠ 0 ∧ (leftNodes nodes l x).cntProc = 0)) :
    NsInv (leftNodes nodes l) used' (update place q none) := by
  have hn : used n = true := (h.placed q n hplace).2
  have hcount := fun {i} hi => h.cntProc_left (i := i) hplace hl hi
  have hdepths : ∀ x, (leftNodes nodes l x).depth = (nodes x).depth :=
    congrFun (depths_leftNodes nodes l)
  have hhead : ∀ x, (leftNodes nodes l x).head = (nodes x).head :=
    congrFun (heads_leftNodes nodes l)
  have hout : ∀ {i}, i ∉ l → leftNodes nodes l i = nodes i := fun hi => if_neg hi
  -- a node that stays used has a member left, unless it is the root
  have hbusy : ∀ i, used' i = true → i ≠ 0 → 0 < (leftNodes nodes l i).cntProc := by
    intro i hi h0
    obtain ⟨hi, hnot⟩ := (hused i).mp hi
    by_cases hil : i ∈ l
    · have hne : (leftNodes nodes l i).cntProc ≠ 0 :=
        fun hz => hnot ⟨hil, h.depth_ne_zero hi h0, hz⟩
      rw [hcount hi] at hne ⊢
      exact lt_of_le_of_ne (Int.natCast_nonneg _) hne.symm
    · rw [hout hil]
      exact h.busy i hi h0
  refine ⟨⟨?_, fun i hi h0 => ?_, fun i hi => h.lt i ((hused i).mp hi).1, fun i hi => ?_,
    fun i hi => ?_, fun i hi => ?_, fun r m hr => ?_⟩, hbusy⟩
  · rw [hhead, hdepths]
    exact ⟨(hused 0).mpr ⟨h.root.1, fun hc => hc.2.1 h.root.2.2⟩, h.root.2⟩
  · rw [hhead, hdepths]
    obtain ⟨hd, hh, hhd, hdepth⟩ := h.inner i ((hused i).mp hi).1 h0
    refine ⟨hd, hh, (hused hd).mpr ⟨hhd, ?_⟩, by rw [hdepths, hdepth]⟩
    -- the head has at least the members of the node
    rintro ⟨-, -, hzero⟩
    have hpos := hbusy i hi h0
    rw [hcount ((hused i).mp hi).1] at hpos
    rw [hcount hhd] at hzero
    have habove : Above (heads nodes) i hd := Relation.ReflTransGen.single hh
    have hle : members nodes (update place q none) i
        ≤ members nodes (update place q none) hd := population_mono habove
    omega
  · rw [hdepths]
    exact h.depth_lt i ((hused i).mp hi).1
  · rw [hcount ((hused i).mp hi).1]
    unfold members
    rw [heads_leftNodes]
  · by_cases hui : used i = true
    · by_contra hne
      exact Bool.eq_false_iff.mp hi ((hused i).mpr ⟨hui, fun hc => hne hc.2.2⟩)
    · have hil : i ∉ l := fun hil => hui (h.above_used hn ((hl i).mp hil))
      rw [hout hil]
      exact h.idle i (Bool.eq_false_iff.mpr hui)
  · by_cases hrq : r = q
    · subst hrq
      rw [update_self] at hr
      cases hr
    · have hr' := hr
      rw [update_of_ne hrq] at hr
      obtain ⟨hrlt, hum⟩ := h.placed r m hr
      refine ⟨hrlt, (hused m).mpr ⟨hum, ?_⟩⟩
      rintro ⟨-, -, hzero⟩
      rw [hcount hum] at hzero
      have hpos : 0 < members nodes (update place q none) m :=
        population_pos_iff.mpr ⟨r, Finset.mem_range.mpr hrlt, m, hr', Above.refl m⟩
      omega

end NsInv

end Xv6
