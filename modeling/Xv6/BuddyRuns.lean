/-
# Runs of the buddy allocator

A client calls `buddy_alloc` and `buddy_free` in any order.  `Client` pairs the
allocator's globals with the ledger of outstanding allocations: an allocation enters
it with the address and the number of pages that were asked for, and leaves it when
its address is passed to `buddy_free`.  The ledger is kept by the calls alone and
knows nothing of the trees.

`Inv` ties the two together: the ledger lists exactly the used nodes, each once.
`inv_step` shows that every admissible call returns and keeps it, and `inv_run` that
every run does.
-/
import Xv6.BuddyFree

open HeapTree

namespace Xv6.Buddy

open Function

variable {s : State} {b kend pa : ℕ}

/-! ## Calls and runs -/

/-- A call of the allocator. -/
inductive Op where
  | alloc (cnt : ℕ)
  | free (pa : ℕ)
  deriving DecidableEq

/-- The calls considered: `buddy_alloc` of a power of two up to a whole block, and
`buddy_free` of any page address of the RAM behind the kernel. -/
def Op.Valid (kend : ℕ) : Op → Prop
  | alloc cnt => ∃ k, k ≤ treeHeight ∧ cnt = 2 ^ k
  | free pa => pa % pgSize = 0 ∧ kend ≤ pa ∧ pa < physTop

instance (kend : ℕ) (op : Op) : Decidable (op.Valid kend) :=
  match op with
  | .alloc cnt => inferInstanceAs (Decidable (∃ k, k ≤ treeHeight ∧ cnt = 2 ^ k))
  | .free pa => inferInstanceAs (Decidable (pa % pgSize = 0 ∧ kend ≤ pa ∧ pa < physTop))

/-- The allocator and the outstanding allocations `(pa, cnt)`, newest first. -/
@[ext]
structure Client where
  state : State
  outstanding : List (ℕ × ℕ)

variable {c : Client}

/-- One call. -/
def callStep (kend : ℕ) (c : Client) : Op → Except Fault Client
  | .alloc cnt => do
    let (pa, s) ← buddyAlloc c.state cnt
    return ⟨s, if pa = 0 then c.outstanding else (pa, cnt) :: c.outstanding⟩
  | .free pa => do
    let s ← buddyFree kend c.state pa
    return ⟨s, c.outstanding.filter (fun a => a.1 ≠ pa)⟩

theorem callStep_alloc {cnt : ℕ} (h : buddyAlloc c.state cnt = .ok (pa, s)) :
    callStep kend c (.alloc cnt)
      = .ok ⟨s, if pa = 0 then c.outstanding else (pa, cnt) :: c.outstanding⟩ := by
  simp only [callStep, h]
  rfl

theorem callStep_free (h : buddyFree kend c.state pa = .ok s) :
    callStep kend c (.free pa) = .ok ⟨s, c.outstanding.filter (fun a => a.1 ≠ pa)⟩ := by
  simp only [callStep, h]
  rfl

/-- A sequence of calls. -/
def callRun (kend : ℕ) (c : Client) (ops : List Op) : Except Fault Client :=
  ops.foldlM (callStep kend) c

/-- The states that admissible calls reach from `buddy_init`. -/
def Reachable (kend : ℕ) (c : Client) : Prop :=
  ∃ s₀ ops, buddyInit (kinit kend) = .ok s₀ ∧ (∀ op ∈ ops, Op.Valid kend op)
    ∧ callRun kend ⟨s₀, []⟩ ops = .ok c

/-! ## Overlapping nodes -/

section Overlap

variable {i j : ℕ}

theorem nodePage_of_div {m : ℕ} (hi' : i < 1024) (hj : 0 < j) (h : i / 2 ^ m = j) :
    nodePage j ≤ nodePage i ∧ nodePage i + nodeSize i ≤ nodePage j + nodeSize j := by
  have hi := pos_of_div_two_pow hj h
  have hj' : j < 1024 := by
    rw [← h]
    exact lt_of_le_of_lt (Nat.div_le_self i _) hi'
  have hlog := log2_of_div_two_pow hj h
  have hi9 := log2_le_nine hi hi'
  have hsize : nodeSize j = 2 ^ m * nodeSize i := by
    unfold nodeSize treeHeight standartDepth
    rw [← pow_add]
    congr 1
    omega
  obtain ⟨h1, h2⟩ := (Nat.div_eq_iff (by positivity)).mp h
  have hp1 := nodePage_add hi hi'
  have hp2 := nodePage_add hj hj'
  have hlo : j * nodeSize j ≤ i * nodeSize i := by
    rw [hsize, ← Nat.mul_assoc]
    exact Nat.mul_le_mul_right _ h1
  have hhi : (i + 1) * nodeSize i ≤ (j + 1) * nodeSize j := by
    rw [hsize, ← Nat.mul_assoc]
    refine Nat.mul_le_mul_right _ ?_
    have := Nat.one_le_two_pow (n := m)
    rw [Nat.add_mul]
    omega
  rw [Nat.add_mul, Nat.add_mul] at hhi
  omega

/-- Nodes of which neither lies above the other have disjoint pages. -/
theorem nodePage_disjoint (hi : 0 < i) (hi' : i < 1024) (hj : 0 < j) (hj' : j < 1024)
    (hij : ∀ m, i / 2 ^ m ≠ j) (hji : ∀ m, j / 2 ^ m ≠ i) :
    nodePage i + nodeSize i ≤ nodePage j ∨ nodePage j + nodeSize j ≤ nodePage i := by
  by_contra hcon
  push Not at hcon
  have hp1 := nodePage_add hi hi'
  have hp2 := nodePage_add hj hj'
  have hs1 := nodeSize_pos i
  have hs2 := nodeSize_pos j
  -- a leaf below both nodes
  obtain ⟨ℓ, hℓi, hℓj⟩ : ∃ ℓ, ℓ / nodeSize i = i ∧ ℓ / nodeSize j = j := by
    refine ⟨max (nodePage i) (nodePage j) + 512, ?_, ?_⟩
    · rw [Nat.div_eq_iff (nodeSize_pos i)]
      omega
    · rw [Nat.div_eq_iff (nodeSize_pos j)]
      omega
  unfold nodeSize at hℓi hℓj
  rcases Nat.le_total (treeHeight - Nat.log2 i) (treeHeight - Nat.log2 j) with hle | hle
  · refine hij (treeHeight - Nat.log2 j - (treeHeight - Nat.log2 i)) ?_
    rw [← hℓi, Nat.div_div_eq_div_mul, ← pow_add, hℓi, Nat.add_sub_of_le hle, hℓj]
  · refine hji (treeHeight - Nat.log2 i - (treeHeight - Nat.log2 j)) ?_
    rw [← hℓj, Nat.div_div_eq_div_mul, ← pow_add, hℓj, Nat.add_sub_of_le hle, hℓi]

theorem mark_disjoint (M : Marking treeHeight) (hi : M.mark i = true) (hj : M.mark j = true)
    (hne : i ≠ j) :
    nodePage i + nodeSize i ≤ nodePage j ∨ nodePage j + nodeSize j ≤ nodePage i := by
  obtain ⟨hi0, hi1⟩ := M.inTree i hi
  obtain ⟨hj0, hj1⟩ := M.inTree j hj
  refine nodePage_disjoint hi0 hi1 hj0 hj1 (fun m hm => ?_) (fun m hm => ?_)
  · cases m with
    | zero => exact hne (by simpa using hm)
    | succ m =>
      have := M.antichain i (m + 1) hi (by omega)
      rw [hm, hj] at this
      simp at this
  · cases m with
    | zero => exact hne (by simpa using hm.symm)
    | succ m =>
      have := M.antichain j (m + 1) hj (by omega)
      rw [hm, hi] at this
      simp at this

end Overlap

/-- The address of a node determines its block and its first page. -/
theorem nodeAddr_inj {sep c i j : ℕ} (hi : 0 < i) (hi' : i < 1024) (hj : 0 < j) (hj' : j < 1024)
    (h : nodeAddr sep b i = nodeAddr sep c j) : b = c ∧ nodePage i = nodePage j := by
  have h1 := nodePage_add_nodeSize_le hi hi'
  have h2 := nodePage_add_nodeSize_le hj hj'
  have h3 := nodeSize_pos i
  have h4 := nodeSize_pos j
  unfold nodeAddr pgSize treeHeight standartDepth at h
  omega

theorem mark_inj {sep c i j : ℕ} {M : ℕ → Marking treeHeight} (hi : (M b).mark i = true)
    (hj : (M c).mark j = true) (h : nodeAddr sep b i = nodeAddr sep c j) : b = c ∧ i = j := by
  obtain ⟨hi0, hi1⟩ := (M b).inTree i hi
  obtain ⟨hj0, hj1⟩ := (M c).inTree j hj
  obtain ⟨rfl, hpage⟩ := nodeAddr_inj hi0 hi1 hj0 hj1 h
  refine ⟨rfl, ?_⟩
  by_contra hne
  have := mark_disjoint (M b) hi hj hne
  have h3 := nodeSize_pos i
  have h4 := nodeSize_pos j
  omega

/-! ## The ledger and the used nodes -/

/-- The pages of the allocations of block `b`. -/
def usedPages (sep b : ℕ) (L : List (ℕ × ℕ)) : ℕ :=
  ((L.filter (fun a => (a.1 - sep) / (pgSize * 512) = b)).map Prod.snd).sum

/-- The ledger lists the used nodes. -/
structure LedgerRep (sep : ℕ) (L : List (ℕ × ℕ)) (M : ℕ → Marking treeHeight) : Prop where
  nodup : L.Nodup
  mem : ∀ a, a ∈ L ↔ ∃ b, b < cntMemBlocks ∧ ∃ j, (M b).mark j = true
    ∧ a = (nodeAddr sep b j, nodeSize j)
  pages : ∀ b, b < cntMemBlocks → usedPages sep b L + freePages (M b).mark treeHeight 1 = 512

/-- The invariant of a run. -/
structure Inv (kend : ℕ) (c : Client) (M : ℕ → Marking treeHeight) : Prop where
  rep : AllocRep kend c.state M
  ledger : LedgerRep (pgRoundUp kend) c.outstanding M

/-- The block of a node's address. -/
theorem block_nodeAddr (sep b : ℕ) {i : ℕ} (hi : 0 < i) (hi' : i < 1024) :
    (nodeAddr sep b i - sep) / (pgSize * 512) = b := by
  have h1 := nodePage_add_nodeSize_le hi hi'
  have h2 := nodeSize_pos i
  unfold nodeAddr pgSize treeHeight standartDepth
  omega

theorem usedPages_cons (sep b : ℕ) (a : ℕ × ℕ) (L : List (ℕ × ℕ)) :
    usedPages sep b (a :: L)
      = (if (a.1 - sep) / (pgSize * 512) = b then a.2 else 0) + usedPages sep b L := by
  unfold usedPages
  rw [List.filter_cons]
  split_ifs with h1 h2 h2 <;> simp_all

theorem usedPages_perm (sep b : ℕ) {L L' : List (ℕ × ℕ)} (h : L.Perm L') :
    usedPages sep b L = usedPages sep b L' :=
  ((h.filter _).map _).sum_eq

section Steps

variable {sep : ℕ} {L : List (ℕ × ℕ)} {M : ℕ → Marking treeHeight}

/-- A new allocation and its node. -/
theorem LedgerRep.cons (h : LedgerRep sep L M) {e k v : ℕ} (hb : b < cntMemBlocks)
    (hH : k + e = treeHeight) (hv : Avail (M b).mark e k 1 v) :
    LedgerRep sep ((nodeAddr sep b v, 2 ^ k) :: L) (update M b ((M b).add hH hv)) := by
  have hv0 := hv.pos
  have hv1 := lt_of_avail hH hv
  have hsize := nodeSize_of_avail hH hv
  have hfree : (M b).mark v = false := by simpa using hv.path 0 (Nat.zero_le e)
  refine ⟨List.nodup_cons.mpr ⟨fun hmem => ?_, h.nodup⟩, fun a => ?_, fun c hc => ?_⟩
  · -- an entry with this address and size would be this node, which is not used
    obtain ⟨c, -, j, hj, heq⟩ := (h.mem _).mp hmem
    obtain ⟨haddr, hsj⟩ := Prod.mk.inj heq
    obtain ⟨hj0, hj1⟩ := (M c).inTree j hj
    obtain ⟨rfl, hpage⟩ := nodeAddr_inj hv0 hv1 hj0 hj1 haddr
    have h1 := nodePage_add hv0 hv1
    have h2 := nodePage_add hj0 hj1
    rw [hpage, h2, hsize, ← hsj] at h1
    obtain rfl : j = v := Nat.eq_of_mul_eq_mul_right (by positivity) h1
    rw [hfree] at hj
    simp at hj
  · rw [List.mem_cons, h.mem a]
    constructor
    · rintro (rfl | ⟨c, hc, j, hj, rfl⟩)
      · exact ⟨b, hb, v, by simp [Marking.add], by rw [hsize]⟩
      · refine ⟨c, hc, j, ?_, rfl⟩
        by_cases hcb : c = b
        · subst hcb
          rw [update_self]
          by_cases hjv : j = v
          · simp [Marking.add, hjv]
          · simpa [Marking.add, update_of_ne hjv] using hj
        · rwa [update_of_ne hcb]
    · rintro ⟨c, hc, j, hj, rfl⟩
      by_cases hcb : c = b
      · subst hcb
        rw [update_self] at hj
        by_cases hjv : j = v
        · subst hjv
          rw [hsize]
          exact Or.inl rfl
        · refine Or.inr ⟨c, hc, j, ?_, rfl⟩
          simpa [Marking.add, update_of_ne hjv] using hj
      · rw [update_of_ne hcb] at hj
        exact Or.inr ⟨c, hc, j, hj, rfl⟩
  · have hpages := h.pages c hc
    rw [usedPages_cons, block_nodeAddr sep b hv0 hv1]
    by_cases hcb : c = b
    · subst hcb
      have hupd := freePages_update one_pos hv
      rw [hH] at hupd
      rw [if_pos rfl, update_self]
      show 2 ^ k + _ + freePages (update (M c).mark v true) treeHeight 1 = 512
      omega
    · rw [if_neg (fun hbc => hcb hbc.symm), update_of_ne hcb]
      omega

/-- Freeing the allocation at node `v` of block `b`. -/
theorem LedgerRep.pages_filter_mem (h : LedgerRep sep L M) {v c : ℕ} {N : ℕ → Marking treeHeight}
    (hb : b < cntMemBlocks) (hv : (M b).mark v = true) (hc : c < cntMemBlocks)
    (hN : ∀ j, (N c).mark j = true ↔ (M c).mark j = true ∧ nodeAddr sep c j ≠ nodeAddr sep b v) :
    usedPages sep c (L.filter (fun a => a.1 ≠ nodeAddr sep b v))
      + freePages (N c).mark treeHeight 1 = 512 := by
  have hpages := h.pages c hc
  have hmem : (nodeAddr sep b v, nodeSize v) ∈ L := (h.mem _).mpr ⟨b, hb, v, hv, rfl⟩
  -- it is the only entry with its address
  have hfilter : L.filter (fun a => a.1 ≠ nodeAddr sep b v)
      = L.erase (nodeAddr sep b v, nodeSize v) := by
    rw [h.nodup.erase_eq_filter]
    refine List.filter_congr (fun a ha => ?_)
    obtain ⟨c', hc', j, hj, rfl⟩ := (h.mem a).mp ha
    by_cases hsame : nodeAddr sep c' j = nodeAddr sep b v
    · obtain ⟨rfl, rfl⟩ := mark_inj hj hv hsame
      simp
    · simp [hsame]
  have hperm := usedPages_perm sep c (List.perm_cons_erase hmem)
  obtain ⟨hv0, hv1⟩ := (M b).inTree v hv
  rw [usedPages_cons, block_nodeAddr sep b hv0 hv1] at hperm
  rw [hfilter]
  by_cases hcb : c = b
  · subst hcb
    have hmark : (N c).mark = ((M c).erase v).mark := by
      funext j
      rw [Bool.eq_iff_iff, hN j]
      by_cases hjv : j = v
      · simp [hjv, Marking.erase]
      · have hne : (M c).mark j = true → nodeAddr sep c j ≠ nodeAddr sep c v :=
          fun hj hsame => hjv (mark_inj hj hv hsame).2
        simpa [Marking.erase, update_of_ne hjv] using hne
    have hupd := freePages_update one_pos ((M c).avail_erase hv)
    rw [Nat.sub_add_cancel ((M c).log2_le hv), (M c).update_erase hv] at hupd
    have hsize : nodeSize v = 2 ^ (treeHeight - Nat.log2 v) := rfl
    rw [if_pos rfl] at hperm
    rw [hmark]
    omega
  · have hmark : (N c).mark = (M c).mark := by
      funext j
      rw [Bool.eq_iff_iff, hN j]
      exact ⟨And.left, fun hj => ⟨hj, fun hsame => hcb (mark_inj hj hv hsame).1⟩⟩
    rw [if_neg (fun hbc => hcb hbc.symm)] at hperm
    rw [hmark]
    omega

/-- Freeing an address at which no allocation starts. -/
theorem LedgerRep.pages_filter_not_mem (h : LedgerRep sep L M) {c : ℕ} {N : ℕ → Marking treeHeight}
    (hpa : ∀ n, (pa, n) ∉ L) (hc : c < cntMemBlocks)
    (hN : ∀ j, (N c).mark j = true ↔ (M c).mark j = true ∧ nodeAddr sep c j ≠ pa) :
    usedPages sep c (L.filter (fun a => a.1 ≠ pa)) + freePages (N c).mark treeHeight 1 = 512 := by
  have hfilter : L.filter (fun a => a.1 ≠ pa) = L := by
    refine List.filter_eq_self.mpr (fun a ha => ?_)
    rw [decide_eq_true_eq]
    rintro rfl
    exact hpa a.2 ha
  have hmark : (N c).mark = (M c).mark := by
    funext j
    rw [Bool.eq_iff_iff, hN j]
    refine ⟨And.left, fun hj => ⟨hj, fun hsame => hpa (nodeSize j) ?_⟩⟩
    exact (h.mem _).mpr ⟨c, hc, j, hj, by rw [hsame]⟩
  rw [hfilter, hmark]
  exact h.pages c hc

/-- Freed addresses and the nodes that keep their marks. -/
theorem LedgerRep.filter (h : LedgerRep sep L M) {N : ℕ → Marking treeHeight}
    (hN : ∀ c, c < cntMemBlocks → ∀ j,
      (N c).mark j = true ↔ (M c).mark j = true ∧ nodeAddr sep c j ≠ pa) :
    LedgerRep sep (L.filter (fun a => a.1 ≠ pa)) N := by
  refine ⟨h.nodup.filter _, fun a => ?_, fun c hc => ?_⟩
  · rw [List.mem_filter, h.mem a, decide_eq_true_eq]
    constructor
    · rintro ⟨⟨c, hc, j, hj, rfl⟩, hne⟩
      exact ⟨c, hc, j, (hN c hc j).mpr ⟨hj, hne⟩, rfl⟩
    · rintro ⟨c, hc, j, hj, rfl⟩
      obtain ⟨hj', hne⟩ := (hN c hc j).mp hj
      exact ⟨⟨c, hc, j, hj', rfl⟩, hne⟩
  · have hNc := hN c hc
    by_cases hex : ∃ n, (pa, n) ∈ L
    · obtain ⟨n, hn⟩ := hex
      obtain ⟨b, hb, v, hv, heq⟩ := (h.mem _).mp hn
      rw [(Prod.mk.inj heq).1] at hNc ⊢
      exact h.pages_filter_mem hb hv hc hNc
    · exact h.pages_filter_not_mem (not_exists.mp hex) hc hNc

end Steps

/-! ## Every run keeps the invariant -/

/-- No block has room for the request, or some block is the first that has. -/
theorem full_or_first_room (M : ℕ → Marking treeHeight) (k : ℕ) :
    (∀ c, c < cntMemBlocks → nodeFree (M c).mark 1 < 2 ^ k)
      ∨ ∃ b, b < cntMemBlocks ∧ (∀ c, c < b → nodeFree (M c).mark 1 < 2 ^ k)
        ∧ 2 ^ k ≤ nodeFree (M b).mark 1 := by
  by_cases h : ∃ b, b < cntMemBlocks ∧ 2 ^ k ≤ nodeFree (M b).mark 1
  · refine Or.inr ⟨Nat.find h, (Nat.find_spec h).1, fun c hc => ?_, (Nat.find_spec h).2⟩
    have hlt := (Nat.find_spec h).1
    have := Nat.find_min h hc
    by_contra hge
    exact this ⟨by omega, by omega⟩
  · refine Or.inl (fun c hc => ?_)
    by_contra hge
    exact h ⟨c, hc, by omega⟩

/-- **One call.**  Every admissible call returns and keeps the invariant. -/
theorem inv_step {M : ℕ → Marking treeHeight} (hkend : 0 < kend) (h : Inv kend c M) {op : Op}
    (hop : op.Valid kend) : ∃ c' M', callStep kend c op = .ok c' ∧ Inv kend c' M' := by
  cases op with
  | alloc cnt =>
    obtain ⟨k, hk, rfl⟩ := hop
    rcases full_or_first_room M k with hfull | ⟨b, hb, hfull, hroom⟩
    · exact ⟨c, M, callStep_alloc (buddyAlloc_full h.rep hk hfull), h⟩
    · obtain ⟨s', hv, hrun, hrep⟩ := buddyAlloc_room hkend h.rep hk hb hfull hroom
      refine ⟨_, _, callStep_alloc hrun, hrep, ?_⟩
      rw [if_neg (nodeAddr_ne_zero hkend b _)]
      exact h.ledger.cons hb (Nat.add_sub_of_le hk) hv
  | free pa =>
    obtain ⟨hpa, hlo, hhi⟩ := hop
    obtain ⟨s', N, hrun, hrep, hN⟩ := buddyFree_spec h.rep hpa hlo hhi
    exact ⟨_, N, callStep_free hrun, hrep, h.ledger.filter hN⟩

/-- **Every run** of admissible calls returns and keeps the invariant. -/
theorem inv_run {M : ℕ → Marking treeHeight} (hkend : 0 < kend) (h : Inv kend c M) (ops : List Op)
    (hops : ∀ op ∈ ops, Op.Valid kend op) :
    ∃ c' M', callRun kend c ops = .ok c' ∧ Inv kend c' M' := by
  induction ops generalizing c M with
  | nil => exact ⟨c, M, rfl, h⟩
  | cons op ops ih =>
    obtain ⟨c₁, M₁, hstep, h₁⟩ := inv_step hkend h (hops op List.mem_cons_self)
    obtain ⟨c', M', hrun, h'⟩ := ih h₁ (fun o ho => hops o (List.mem_cons_of_mem op ho))
    refine ⟨c', M', ?_, h'⟩
    unfold callRun at hrun ⊢
    rw [List.foldlM_cons, hstep]
    exact hrun

theorem inv_init {s₀ : State} (h : buddyInit (kinit kend) = .ok s₀) :
    Inv kend ⟨s₀, []⟩ (fun _ => Marking.empty treeHeight) := by
  refine ⟨(allocRep_buddyInit h).1, List.nodup_nil, fun a => ?_, fun b _ => ?_⟩
  · simp [Marking.empty]
  · rw [freePages_empty]
    rfl

/-- The state of a run from `buddy_init` satisfies the invariant. -/
theorem Reachable.inv (hkend : 0 < kend) (h : Reachable kend c) : ∃ M, Inv kend c M := by
  obtain ⟨s₀, ops, hinit, hops, hrun⟩ := h
  obtain ⟨c', M, hrun', hinv⟩ := inv_run hkend (inv_init hinit) ops hops
  rw [hrun] at hrun'
  cases hrun'
  exact ⟨M, hinv⟩

theorem Reachable.init {s₀ : State} (h : buddyInit (kinit kend) = .ok s₀) :
    Reachable kend ⟨s₀, []⟩ :=
  ⟨s₀, [], h, by simp, rfl⟩

theorem Reachable.run {c' : Client} (h : Reachable kend c) (ops : List Op)
    (hops : ∀ op ∈ ops, Op.Valid kend op) (hrun : callRun kend c ops = .ok c') :
    Reachable kend c' := by
  obtain ⟨s₀, ops₀, hinit, hops₀, hrun₀⟩ := h
  refine ⟨s₀, ops₀ ++ ops, hinit, fun op hop => ?_, ?_⟩
  · rcases List.mem_append.mp hop with hop | hop
    · exact hops₀ op hop
    · exact hops op hop
  · unfold callRun at hrun₀ hrun ⊢
    rw [List.foldlM_append, hrun₀]
    exact hrun

theorem callRun_singleton (kend : ℕ) (c : Client) (op : Op) :
    callRun kend c [op] = callStep kend c op := by
  unfold callRun
  simp only [List.foldlM_cons, List.foldlM_nil, bind_pure]

theorem Reachable.alloc {k : ℕ} (h : Reachable kend c) (hk : k ≤ treeHeight)
    (halloc : buddyAlloc c.state (2 ^ k) = .ok (pa, s)) :
    Reachable kend ⟨s, if pa = 0 then c.outstanding else (pa, 2 ^ k) :: c.outstanding⟩ := by
  refine h.run [.alloc (2 ^ k)] ?_ ((callRun_singleton _ _ _).trans (callStep_alloc halloc))
  simp only [List.mem_singleton, forall_eq]
  exact ⟨k, hk, rfl⟩

end Xv6.Buddy
