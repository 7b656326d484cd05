/-
# The trees and the statistics of the buddy allocator

The representation invariant read off the pointers: a node lies in the tree of
another one when its chain of `head` pointers passes through it (`Under`).  No
statement here mentions how `init_block` numbers the nodes.

`tree_invariant` says what `maxFreePage` and `is_used` of every node are in every
reachable state, `heap_statistics_exact` what the counters of a block and the
totals of `mem_dump` are.
-/
import Xv6.BuddyClient

open HeapTree

namespace Xv6.Buddy

open Function

/-! ## The tree order -/

/-- `q` is the head of `p`. -/
def HeadOf (s : State) (p q : ℕ) : Prop := (s.nodesMem p).head = some q

/-- `p` lies in the subtree of `q`, which includes `q`. -/
def Under (s : State) : ℕ → ℕ → Prop := Relation.ReflTransGen (HeadOf s)

/-- `p` is a node of the tree of block `b`. -/
def InBlock (s : State) (b p : ℕ) : Prop := Under s p (s.blocks b).root

section Order

variable {kend : ℕ} {s : State} {M : ℕ → Marking treeHeight} {b : ℕ}

theorem headOf_iff (h : AllocRep kend s M) (hb : b < cntMemBlocks) {i : ℕ} (hi : 0 < i)
    (hi' : i < 1024) (p : ℕ) :
    HeadOf s p (1024 * b + i) ↔ ∃ j, j < 1024 ∧ j / 2 = i ∧ p = 1024 * b + j := by
  constructor
  · intro hp
    by_cases hin : ∃ c, c < cntMemBlocks ∧ ∃ j, 0 < j ∧ j < 1024 ∧ p = 1024 * c + j
    · obtain ⟨c, hc, j, hj, hj', rfl⟩ := hin
      unfold HeadOf at hp
      rw [(h.marks c hc).node j hj hj'] at hp
      simp only [blockNode] at hp
      split_ifs at hp with hj1
      have heq := Option.some.inj hp
      obtain rfl : c = b := by omega
      exact ⟨j, hj', by omega, rfl⟩
    · -- the other entries of `nodes_mem` have no head
      push Not at hin
      unfold HeadOf at hp
      rw [h.nodesOff p (fun c hc j hj hj' => hin c hc j hj hj')] at hp
      simp [MemNode.zero] at hp
  · rintro ⟨j, hj, hji, rfl⟩
    unfold HeadOf
    rw [(h.marks b hb).node j (by omega) hj]
    simp only [blockNode]
    rw [if_neg (by omega), hji]

/-- The nodes under node `i` of block `b`. -/
theorem under_iff (h : AllocRep kend s M) (hb : b < cntMemBlocks) {i : ℕ} (hi : 0 < i)
    (hi' : i < 1024) (p : ℕ) :
    Under s p (1024 * b + i) ↔ ∃ m j, j < 1024 ∧ j / 2 ^ m = i ∧ p = 1024 * b + j := by
  constructor
  · intro hp
    induction hp using Relation.ReflTransGen.head_induction_on with
    | refl => exact ⟨0, i, hi', by simp, rfl⟩
    | head hpq _ ih =>
      obtain ⟨m, j, hj, hji, rfl⟩ := ih
      have hj0 := pos_of_div_two_pow hi hji
      obtain ⟨j', hj', hjj, rfl⟩ := (headOf_iff h hb hj0 hj _).mp hpq
      refine ⟨m + 1, j', hj', ?_, rfl⟩
      rw [pow_succ', ← Nat.div_div_eq_div_mul, hjj, hji]
  · rintro ⟨m, j, hj, hji, rfl⟩
    induction m generalizing j with
    | zero =>
      rw [pow_zero, Nat.div_one] at hji
      rw [hji]
      exact Relation.ReflTransGen.refl
    | succ m ih =>
      rw [pow_succ', ← Nat.div_div_eq_div_mul] at hji
      have hj0 := pos_of_div_two_pow hi hji
      exact Relation.ReflTransGen.head ((headOf_iff h hb hj0 (by omega) _).mpr ⟨j, hj, rfl, rfl⟩)
        (ih (j / 2) (by omega) hji)

theorem root_eq (h : AllocRep kend s M) (hb : b < cntMemBlocks) :
    (s.blocks b).root = 1024 * b + 1 :=
  (h.marks b hb).root.1

theorem inBlock_iff (h : AllocRep kend s M) (hb : b < cntMemBlocks) (p : ℕ) :
    InBlock s b p ↔ ∃ i, 0 < i ∧ i < 1024 ∧ p = 1024 * b + i := by
  unfold InBlock
  rw [root_eq h hb, under_iff h hb one_pos (by omega)]
  constructor
  · rintro ⟨m, j, hj, hj1, rfl⟩
    exact ⟨j, pos_of_div_two_pow one_pos hj1, hj, rfl⟩
  · rintro ⟨i, hi, hi', rfl⟩
    refine ⟨Nat.log2 i, i, hi', ?_, rfl⟩
    obtain ⟨h1, h2⟩ := Finset.mem_Ico.mp (mem_Ico_log2 hi)
    rw [pow_succ] at h2
    rw [Nat.div_eq_iff (by positivity)]
    omega

/-- The nodes above node `i` of block `b`. -/
theorem under_of_iff (h : AllocRep kend s M) (hb : b < cntMemBlocks) {i : ℕ} (hi : 0 < i)
    (hi' : i < 1024) (q : ℕ) :
    Under s (1024 * b + i) q ↔ ∃ m, 0 < i / 2 ^ m ∧ q = 1024 * b + i / 2 ^ m := by
  constructor
  · intro hq
    induction hq with
    | refl => exact ⟨0, by simpa using hi, by simp⟩
    | tail _ hqr ih =>
      obtain ⟨m, hm, rfl⟩ := ih
      unfold HeadOf at hqr
      have hlt : i / 2 ^ m < 1024 := lt_of_le_of_lt (Nat.div_le_self i _) hi'
      rw [(h.marks b hb).node _ hm hlt] at hqr
      simp only [blockNode] at hqr
      split_ifs at hqr with h1
      refine ⟨m + 1, ?_, ?_⟩
      · rw [pow_succ, ← Nat.div_div_eq_div_mul]
        omega
      · rw [pow_succ, ← Nat.div_div_eq_div_mul]
        exact (Option.some.inj hqr).symm
  · rintro ⟨m, hm, rfl⟩
    exact (under_iff h hb hm (lt_of_le_of_lt (Nat.div_le_self i _) hi') _).mpr ⟨m, i, hi', rfl, rfl⟩

theorem isUsed_eq (h : AllocRep kend s M) (hb : b < cntMemBlocks) {i : ℕ} (hi : 0 < i)
    (hi' : i < 1024) : (s.nodesMem (1024 * b + i)).isUsed = (M b).mark i := by
  rw [(h.marks b hb).node i hi hi']
  rfl

theorem maxFreePage_eq (h : AllocRep kend s M) (hb : b < cntMemBlocks) {i : ℕ} (hi : 0 < i)
    (hi' : i < 1024) : (s.nodesMem (1024 * b + i)).maxFreePage = nodeFree (M b).mark i := by
  rw [(h.marks b hb).node i hi hi']
  rfl

theorem cntPage_eq (h : AllocRep kend s M) (hb : b < cntMemBlocks) {i : ℕ} (hi : 0 < i)
    (hi' : i < 1024) : (s.nodesMem (1024 * b + i)).cntPage = nodeSize i := by
  rw [(h.marks b hb).node i hi hi']
  rfl

end Order

/-! ## `maxFreePage` and `is_used` -/

/-- `q` is a node under `p` that could be handed out as a whole: no node under it is
used, and it does not lie below a used node. -/
structure FreeIn (s : State) (p q : ℕ) : Prop where
  under : Under s q p
  clear : ∀ r, Under s r q → (s.nodesMem r).isUsed = false
  notBelow : ∀ r, Under s q r → (s.nodesMem r).isUsed = false

/-- `m` is the largest `cnt_page` of a node under `p` that could be handed out, or `0`
if there is none. -/
def IsLargestFree (s : State) (p m : ℕ) : Prop :=
  (∃ q, FreeIn s p q ∧ (s.nodesMem q).cntPage = m
      ∧ ∀ q', FreeIn s p q' → (s.nodesMem q').cntPage ≤ m)
    ∨ (∀ q, ¬ FreeIn s p q) ∧ m = 0

section Values

variable {kend : ℕ} {s : State} {M : ℕ → Marking treeHeight} {b i : ℕ}

/-- Everything below a used node is unused and reads as wholly free. -/
theorem below_used (M : Marking treeHeight) (hi : M.mark i = true) {j m : ℕ} (hm : 0 < m)
    (hj : j / 2 ^ m = i) : M.mark j = false ∧ nodeFree M.mark j = nodeSize j := by
  have hclear : ∀ k x, x / 2 ^ k = j → M.mark x = false := by
    intro k x hx
    by_contra hne
    have := M.antichain x (k + m) (by simpa using hne) (by omega)
    rw [pow_add, ← Nat.div_div_eq_div_mul, hx, hj, hi] at this
    simp at this
  exact ⟨hclear 0 j (by simp), (maxFree_eq_two_pow_iff _ _ _).mpr (fun k _ x hx => hclear k x hx)⟩

/-- Under a node that is not below a used node, the nodes that could be handed out
are the available ones. -/
theorem freeIn_iff (h : AllocRep kend s M) (hb : b < cntMemBlocks) (hi : 0 < i) (hi' : i < 1024)
    (habove : ∀ m, (M b).mark (i / 2 ^ m) = false) (q : ℕ) :
    FreeIn s (1024 * b + i) q ↔ ∃ e k j, k + e + Nat.log2 i = treeHeight
      ∧ Avail (M b).mark e k i j ∧ q = 1024 * b + j := by
  constructor
  · rintro ⟨hunder, hclear, hbelow⟩
    obtain ⟨e, j, hj, hji, rfl⟩ := (under_iff h hb hi hi' q).mp hunder
    have hlog := log2_of_div_two_pow hi hji
    have hj0 := pos_of_div_two_pow hi hji
    have hj9 : Nat.log2 j ≤ treeHeight := log2_le_nine hj0 hj
    refine ⟨e, treeHeight - Nat.log2 j, j, by omega, ⟨hji, fun k _ x hx => ?_, fun m hm => ?_⟩, rfl⟩
    · by_contra hne
      obtain ⟨hx0, hx1⟩ := (M b).inTree x (by simpa using hne)
      have hx2 : x < 1024 := hx1
      have := hclear _ ((under_iff h hb hj0 hj _).mpr ⟨k, x, hx2, hx, rfl⟩)
      rw [isUsed_eq h hb hx0 hx2] at this
      exact hne this
    · have hpos : 0 < j / 2 ^ m := (log2_div_two_pow (by omega) hj0).2
      have := hbelow _ ((under_of_iff h hb hj0 hj _).mpr ⟨m, hpos, rfl⟩)
      rwa [isUsed_eq h hb hpos (lt_of_le_of_lt (Nat.div_le_self j _) hj)] at this
  · rintro ⟨e, k, j, hlog, hav, rfl⟩
    have hlogj := log2_of_div_two_pow hi hav.below
    have hj : j < 1024 := lt_1024_of_log2 (by omega)
    have hj0 := pos_of_div_two_pow hi hav.below
    refine ⟨(under_iff h hb hi hi' _).mpr ⟨e, j, hj, hav.below, rfl⟩, fun r hr => ?_, fun r hr => ?_⟩
    · obtain ⟨m, x, hx, hxj, rfl⟩ := (under_iff h hb hj0 hj r).mp hr
      have hlogx := log2_of_div_two_pow hj0 hxj
      have hx0 := pos_of_div_two_pow hj0 hxj
      have hx9 : Nat.log2 x ≤ treeHeight := log2_le_nine hx0 hx
      rw [isUsed_eq h hb hx0 hx]
      exact hav.clear m (by omega) x hxj
    · obtain ⟨m, hm, rfl⟩ := (under_of_iff h hb hj0 hj r).mp hr
      rw [isUsed_eq h hb hm (lt_of_le_of_lt (Nat.div_le_self j _) hj)]
      rcases Nat.le_total m e with hle | hle
      · exact hav.path m hle
      · -- above `i`
        have := habove (m - e)
        rwa [← hav.below, Nat.div_div_eq_div_mul, ← pow_add, Nat.add_sub_of_le hle] at this

/-- The cached maximum of a node that is not below a used node. -/
theorem isLargestFree_maxFreePage (h : AllocRep kend s M) (hb : b < cntMemBlocks) (hi : 0 < i)
    (hi' : i < 1024) (habove : ∀ m, (M b).mark (i / 2 ^ m) = false) :
    IsLargestFree s (1024 * b + i) (nodeFree (M b).mark i) := by
  have h9 : Nat.log2 i ≤ treeHeight := log2_le_nine hi hi'
  have hcnt : ∀ {e k j}, k + e + Nat.log2 i = treeHeight → Avail (M b).mark e k i j →
      (s.nodesMem (1024 * b + j)).cntPage = 2 ^ k := by
    intro e k j hlog hav
    have hlogj := log2_of_div_two_pow hi hav.below
    have hj0 := pos_of_div_two_pow hi hav.below
    rw [cntPage_eq h hb hj0 (lt_1024_of_log2 (by omega)), nodeSize, hlogj]
    congr 1
    omega
  -- every node that could be handed out fits into the cached maximum
  have hle : ∀ q, FreeIn s (1024 * b + i) q → (s.nodesMem q).cntPage ≤ nodeFree (M b).mark i := by
    intro q hq
    obtain ⟨e, k, j, hlog, hav, rfl⟩ := (freeIn_iff h hb hi hi' habove q).mp hq
    have := (two_pow_le_maxFree_iff (M b).mark e k i).mpr ⟨j, hav⟩
    rw [hcnt hlog hav, nodeFree, show treeHeight - Nat.log2 i = k + e by omega]
    exact this
  rcases maxFree_eq_zero_or_two_pow (M b).mark (treeHeight - Nat.log2 i) i with h0 | ⟨k, hk, hmax⟩
  · refine Or.inr ⟨fun q hq => ?_, h0⟩
    obtain ⟨e, k, j, hlog, hav, rfl⟩ := (freeIn_iff h hb hi hi' habove q).mp hq
    have hpos : 0 < 2 ^ k := by positivity
    have := hle _ hq
    rw [hcnt hlog hav, nodeFree, h0] at this
    omega
  · have hlog : k + (treeHeight - Nat.log2 i - k) + Nat.log2 i = treeHeight := by omega
    obtain ⟨j, hav⟩ := (two_pow_le_maxFree_iff (M b).mark (treeHeight - Nat.log2 i - k) k i).mp
      (by rw [Nat.add_sub_of_le hk]; exact hmax.ge)
    exact Or.inl ⟨_, (freeIn_iff h hb hi hi' habove _).mpr ⟨_, k, j, hlog, hav, rfl⟩,
      (hcnt hlog hav).trans hmax.symm, hle⟩

end Values

/-- **The representation invariant of the trees.**  In every reachable state and for
every node of every block: a used node has `maxFreePage` zero, and every node below it
is unused with `maxFreePage` its own size; a node that is neither used nor below a used
node has as `maxFreePage` the largest size that could be handed out under it; and an
unused parent of two wholly free siblings is wholly free. -/
theorem tree_invariant {kend b p : ℕ} {c : Client} (hkend : kernBase ≤ kend)
    (hr : Reachable kend c) (hb : b < cntMemBlocks) (hp : InBlock c.state b p) :
    ((c.state.nodesMem p).isUsed = true → (c.state.nodesMem p).maxFreePage = 0
        ∧ ∀ q, Under c.state q p → q ≠ p → (c.state.nodesMem q).isUsed = false
          ∧ (c.state.nodesMem q).maxFreePage = (c.state.nodesMem q).cntPage)
      ∧ ((∀ q, Under c.state p q → (c.state.nodesMem q).isUsed = false) →
          IsLargestFree c.state p (c.state.nodesMem p).maxFreePage)
      ∧ (∀ l r, (c.state.nodesMem p).leftChild = some l → (c.state.nodesMem p).rightChild = some r →
          (c.state.nodesMem p).isUsed = false →
          (c.state.nodesMem l).maxFreePage = (c.state.nodesMem l).cntPage →
          (c.state.nodesMem r).maxFreePage = (c.state.nodesMem r).cntPage →
          (c.state.nodesMem p).maxFreePage = (c.state.nodesMem p).cntPage) := by
  have hpos : 0 < kend := lt_of_lt_of_le (by decide) hkend
  obtain ⟨M, hinv⟩ := hr.inv hpos
  have h := hinv.rep
  obtain ⟨i, hi, hi', rfl⟩ := (inBlock_iff h hb p).mp hp
  refine ⟨fun hused => ⟨?_, fun q hq hne => ?_⟩, fun habove => ?_, fun l r hl hr' hfree hlf hrf => ?_⟩
  · rw [isUsed_eq h hb hi hi'] at hused
    rw [maxFreePage_eq h hb hi hi']
    exact maxFree_of_marked hused _
  · rw [isUsed_eq h hb hi hi'] at hused
    obtain ⟨m, j, hj, hji, rfl⟩ := (under_iff h hb hi hi' q).mp hq
    have hm : 0 < m := by
      rcases Nat.eq_zero_or_pos m with rfl | hm
      · rw [pow_zero, Nat.div_one] at hji
        exact absurd (by rw [hji]) hne
      · exact hm
    have hj0 := pos_of_div_two_pow hi hji
    rw [isUsed_eq h hb hj0 hj, maxFreePage_eq h hb hj0 hj, cntPage_eq h hb hj0 hj]
    exact below_used (M b) hused hm hji
  · rw [maxFreePage_eq h hb hi hi']
    refine isLargestFree_maxFreePage h hb hi hi' (fun m => ?_)
    rcases Nat.eq_zero_or_pos (i / 2 ^ m) with h0 | hm
    · rw [h0]
      exact (M b).mark_zero
    · have := habove _ ((under_of_iff h hb hi hi' _).mpr ⟨m, hm, rfl⟩)
      rwa [isUsed_eq h hb hm (lt_of_le_of_lt (Nat.div_le_self i _) hi')] at this
  · -- the children of a node with children are `2 * i` and `2 * i + 1`
    rw [isUsed_eq h hb hi hi'] at hfree
    rw [(h.marks b hb).node i hi hi'] at hl hr'
    simp only [blockNode] at hl hr'
    split_ifs at hl hr' with hlt
    cases hl
    cases hr'
    rw [maxFreePage_eq h hb (by omega) (by omega), cntPage_eq h hb (by omega) (by omega)] at hlf hrf
    rw [maxFreePage_eq h hb hi hi', cntPage_eq h hb hi hi']
    have h9 := (log2_lt_nine_iff hi).mpr hlt
    refine (full_iff_nodeFree _ i).mp ((full_iff_children hi h9).mpr ⟨hfree, ?_, ?_⟩)
    · exact (full_iff_nodeFree _ _).mpr hlf
    · exact (full_iff_nodeFree _ _).mpr hrf

theorem tree_invariant_root :
    ∃ c, Reachable 0x80380123 c
      ∧ ((∀ q, Under c.state (c.state.blocks 0).root q → (c.state.nodesMem q).isUsed = false) →
        IsLargestFree c.state (c.state.blocks 0).root
          (c.state.nodesMem (c.state.blocks 0).root).maxFreePage) := by
  obtain ⟨-, c, -, -, hc⟩ := exists_reachable_half
  exact ⟨c, hc, (tree_invariant (b := 0) (by decide) hc (by decide) Relation.ReflTransGen.refl).2.1⟩

/-- With both halves of a block taken, the root is neither used nor below a used node
and has `maxFreePage` zero, although a node of 128 pages under it contains no used
node: that node lies below a used one. -/
theorem both_halves_taken :
    ∃ c, Reachable 0x80380123 c
      ∧ (∀ q, Under c.state (c.state.blocks 0).root q → (c.state.nodesMem q).isUsed = false)
      ∧ (c.state.nodesMem (c.state.blocks 0).root).maxFreePage = 0
      ∧ ∃ q, Under c.state q (c.state.blocks 0).root ∧ (c.state.nodesMem q).cntPage = 128
        ∧ ∀ r, Under c.state r q → (c.state.nodesMem r).isUsed = false := by
  obtain ⟨s₀, hs₀⟩ := exists_init
  -- the first half is node 2, the second node 3
  have hroom₀ : 2 ^ 8 ≤ nodeFree (Marking.empty treeHeight).mark 1 := by
    rw [nodeFree_empty]
    decide
  have hfit₀ : firstFit (Marking.empty treeHeight).mark 8 (treeHeight - 8) 1 = 2 := by
    decide +kernel
  obtain ⟨s₁, hv₁, halloc₁, hrep₁⟩ := buddyAlloc_room (b := 0) (by decide) (inv_init hs₀).rep
    (by decide : 8 ≤ treeHeight) (by decide) (fun c hc => absurd hc (Nat.not_lt_zero c)) hroom₀
  generalize hM₁ : update (fun _ => Marking.empty treeHeight) 0
    ((Marking.empty treeHeight).add _ hv₁) = M₁ at hrep₁
  have hmark₁ : (M₁ 0).mark = update (fun _ => false) 2 true := by
    rw [← hM₁, update_self, ← hfit₀]
    rfl
  have hroom₁ : 2 ^ 8 ≤ nodeFree (M₁ 0).mark 1 := by
    rw [hmark₁]
    decide +kernel
  have hfit₁ : firstFit (M₁ 0).mark 8 (treeHeight - 8) 1 = 3 := by
    rw [hmark₁]
    decide +kernel
  obtain ⟨s₂, hv₂, halloc₂, hrep₂⟩ := buddyAlloc_room (b := 0) (by decide) hrep₁
    (by decide : 8 ≤ treeHeight) (by decide) (fun c hc => absurd hc (Nat.not_lt_zero c)) hroom₁
  generalize hM₂ : update M₁ 0 ((M₁ 0).add _ hv₂) = M₂ at hrep₂
  have hmark₂ : (M₂ 0).mark = update (update (fun _ => false) 2 true) 3 true := by
    rw [← hM₂, update_self, ← hmark₁, ← hfit₁]
    rfl
  have hb : 0 < cntMemBlocks := by decide
  refine ⟨_, ((Reachable.init hs₀).alloc (by decide) halloc₁).alloc (by decide) halloc₂, ?_⟩
  dsimp only
  rw [root_eq hrep₂ hb]
  refine ⟨fun q hq => ?_, ?_, 1024 * 0 + 4, ?_, ?_, fun r hr => ?_⟩
  · obtain ⟨m, hm, rfl⟩ := (under_of_iff hrep₂ hb one_pos (by decide) q).mp hq
    have h1 : 1 / 2 ^ m = 1 := by
      have := Nat.div_le_self 1 (2 ^ m)
      omega
    rw [h1, isUsed_eq hrep₂ hb one_pos (by decide), hmark₂]
    decide
  · rw [maxFreePage_eq hrep₂ hb one_pos (by decide), hmark₂]
    decide +kernel
  · exact (under_iff hrep₂ hb one_pos (by decide) _).mpr ⟨2, 4, by decide, by decide, rfl⟩
  · rw [cntPage_eq hrep₂ hb (by decide) (by decide)]
    decide
  · obtain ⟨m, j, hj, hj4, rfl⟩ := (under_iff hrep₂ hb (by decide) (by decide) r).mp hr
    have hle := Nat.div_le_self j (2 ^ m)
    rw [isUsed_eq hrep₂ hb (by omega) hj, hmark₂, update_of_ne (by omega),
      update_of_ne (by omega)]

/-! ## The statistics -/

/-- `p` is a node of depth `d` of block `b` that is wholly free, does not lie below a
used node, and whose head, if any, is not wholly free. -/
structure CountedNode (s : State) (b d p : ℕ) : Prop where
  inBlock : InBlock s b p
  depth : (s.nodesMem p).depth = d
  full : (s.nodesMem p).maxFreePage = (s.nodesMem p).cntPage
  notBelow : ∀ q, Under s p q → q ≠ p → (s.nodesMem q).isUsed = false
  head : ∀ q, HeadOf s p q → (s.nodesMem q).maxFreePage ≠ (s.nodesMem q).cntPage

section Statistics

variable {kend : ℕ} {s : State} {M : ℕ → Marking treeHeight} {b : ℕ}

theorem countedNode_iff (h : AllocRep kend s M) (hb : b < cntMemBlocks) (d p : ℕ) :
    CountedNode s b d p ↔ ∃ i, (0 < i ∧ i < 1024) ∧ Nat.log2 i = d
      ∧ Counted (M b).mark treeHeight i ∧ p = 1024 * b + i := by
  have hcore : ∀ i, 0 < i → i < 1024 →
      (CountedNode s b d (1024 * b + i) ↔ Nat.log2 i = d ∧ Counted (M b).mark treeHeight i) := by
    intro i hi hi'
    have h9 : Nat.log2 i ≤ treeHeight := log2_le_nine hi hi'
    have hdepth : (s.nodesMem (1024 * b + i)).depth = Nat.log2 i := by
      rw [(h.marks b hb).node i hi hi']
      rfl
    rw [(M b).counted_iff hi h9]
    constructor
    · rintro ⟨-, hd, hfull, hbelow, hhead⟩
      rw [maxFreePage_eq h hb hi hi', cntPage_eq h hb hi hi'] at hfull
      refine ⟨hdepth.symm.trans hd, (full_iff_nodeFree _ i).mpr hfull, fun m hm => ?_, fun h1 hf => ?_⟩
      · rcases Nat.eq_zero_or_pos (i / 2 ^ m) with h0 | hpos
        · rw [h0]
          exact (M b).mark_zero
        · have hlt : i / 2 ^ m < i := Nat.div_lt_self hi (Nat.one_lt_two_pow (by omega))
          have := hbelow _ ((under_of_iff h hb hi hi' _).mpr ⟨m, hpos, rfl⟩) (by omega)
          rwa [isUsed_eq h hb hpos (by omega)] at this
      · refine hhead (1024 * b + i / 2)
          ((headOf_iff h hb (by omega) (by omega) _).mpr ⟨i, hi', rfl, rfl⟩) ?_
        rw [maxFreePage_eq h hb (by omega) (by omega), cntPage_eq h hb (by omega) (by omega)]
        exact (full_iff_nodeFree _ _).mp hf
    · rintro ⟨hd, hfull, hbelow, hhead⟩
      refine ⟨(inBlock_iff h hb _).mpr ⟨i, hi, hi', rfl⟩, hdepth.trans hd, ?_, fun q hq hne => ?_,
        fun q hq => ?_⟩
      · rw [maxFreePage_eq h hb hi hi', cntPage_eq h hb hi hi']
        exact (full_iff_nodeFree _ i).mp hfull
      · obtain ⟨m, hpos, rfl⟩ := (under_of_iff h hb hi hi' q).mp hq
        rw [isUsed_eq h hb hpos (lt_of_le_of_lt (Nat.div_le_self i _) hi')]
        refine hbelow m ?_
        rcases Nat.eq_zero_or_pos m with rfl | hm
        · exact absurd (by simp) hne
        · exact hm
      · unfold HeadOf at hq
        rw [(h.marks b hb).node i hi hi'] at hq
        simp only [blockNode] at hq
        split_ifs at hq with h1
        cases hq
        rw [maxFreePage_eq h hb (by omega) (by omega), cntPage_eq h hb (by omega) (by omega)]
        exact fun hf => hhead h1 ((full_iff_nodeFree _ _).mpr hf)
  constructor
  · intro hc
    obtain ⟨i, hi, hi', rfl⟩ := (inBlock_iff h hb p).mp hc.inBlock
    obtain ⟨hd, hcount⟩ := (hcore i hi hi').mp hc
    exact ⟨i, ⟨hi, hi'⟩, hd, hcount, rfl⟩
  · rintro ⟨i, ⟨hi, hi'⟩, hd, hcount, rfl⟩
    exact (hcore i hi hi').mpr ⟨hd, hcount⟩

/-- The counter of depth `d` counts those nodes. -/
theorem freeCount_eq_ncard (h : AllocRep kend s M) (hb : b < cntMemBlocks) {d : ℕ}
    (hd : d < standartDepth) :
    freeCount (M b).mark treeHeight d = Set.ncard {p | CountedNode s b d p} := by
  have hset : {p | CountedNode s b d p}
      = (fun i => 1024 * b + i) ''
        ((Finset.Ico (2 ^ d) (2 ^ (d + 1))).filter (Counted (M b).mark treeHeight) : Finset ℕ) := by
    ext p
    rw [Set.mem_ofPred_eq, countedNode_iff h hb]
    simp only [Finset.coe_filter, Set.mem_image, Set.mem_ofPred_eq]
    constructor
    · rintro ⟨i, ⟨hi, -⟩, rfl, hcount, rfl⟩
      exact ⟨i, ⟨mem_Ico_log2 hi, hcount⟩, rfl⟩
    · rintro ⟨i, ⟨hmem, hcount⟩, rfl⟩
      have hle := (Finset.mem_Ico.mp hmem).1
      have hlog := log2_eq_of_mem hmem
      have hpos : 0 < 2 ^ d := by positivity
      refine ⟨i, ⟨by omega, lt_1024_of_log2 ?_⟩, hlog, hcount, rfl⟩
      rw [hlog]
      exact Nat.le_of_lt_succ hd
  rw [hset, Set.ncard_image_of_injective _ (fun i j hij => by simpa using hij),
    Set.ncard_coe_finset]
  rfl

end Statistics

/-! ## `mem_dump` -/

/-- Adding up `uint16` values whose exact sum fits does not wrap. -/
theorem foldl_add16 (f : ℕ → ℕ) (n : ℕ) (h : ∑ b ∈ Finset.range n, f b < 2 ^ 16) :
    (List.range n).foldl (fun acc b => add16 acc (f b)) 0 = ∑ b ∈ Finset.range n, f b := by
  induction n with
  | zero => rfl
  | succ n ih =>
    rw [Finset.sum_range_succ] at h ⊢
    rw [List.range_succ, List.foldl_append, ih (by omega)]
    exact add16_of_lt h

theorem memDump_eq (s : State) :
    (memDump s).total
        = (List.range cntMemBlocks).foldl (fun acc b => add16 acc (s.blocks b).info.total) 0
      ∧ (memDump s).free
        = (List.range cntMemBlocks).foldl (fun acc b => add16 acc (s.blocks b).info.free) 0
      ∧ ∀ d, (memDump s).freeBySize d = (List.range cntMemBlocks).foldl
          (fun acc b => add16 acc ((s.blocks b).info.freeBySize d)) 0 :=
  ⟨(List.foldl_hom BlocksInfo.total (fun _ _ => rfl)).symm,
    (List.foldl_hom BlocksInfo.free (fun _ _ => rfl)).symm,
    fun d => (List.foldl_hom (fun i : BlocksInfo => i.freeBySize d) (fun _ _ => rfl)).symm⟩

theorem sum_lt_of_le_512 (f : ℕ → ℕ) (h : ∀ b, b < cntMemBlocks → f b ≤ 512) :
    ∑ b ∈ Finset.range cntMemBlocks, f b < 2 ^ 16 := by
  have hle := Finset.sum_le_card_nsmul (Finset.range cntMemBlocks) f 512
    (fun b hb => h b (Finset.mem_range.mp hb))
  rw [Finset.card_range, smul_eq_mul] at hle
  exact lt_of_le_of_lt hle (by decide)

/-- **The statistics are exact.**  In every reachable state, for every block, `free` is
what the outstanding allocations leave of its 512 pages, `free_by_size[d]` is the number
of nodes of depth `d` that are wholly free, not below a used node, and whose parent is
not wholly free, and these numbers weigh up to `free`; the totals of `mem_dump` are the
exact sums over the blocks. -/
theorem heap_statistics_exact {kend : ℕ} {c : Client} (hkend : kernBase ≤ kend)
    (hr : Reachable kend c) :
    (∀ b, b < cntMemBlocks →
        usedPages c.state.memSeparator b c.outstanding ≤ 512
        ∧ (c.state.blocks b).info.free
          = 512 - usedPages c.state.memSeparator b c.outstanding
        ∧ (∀ d, d < standartDepth → (c.state.blocks b).info.freeBySize d
          = Set.ncard {p | CountedNode c.state b d p})
        ∧ ∑ d ∈ Finset.range standartDepth, (c.state.blocks b).info.freeBySize d * 2 ^ (9 - d)
          = (c.state.blocks b).info.free)
      ∧ (memDump c.state).total
          = ∑ b ∈ Finset.range cntMemBlocks, (c.state.blocks b).info.total
      ∧ (memDump c.state).free
          = ∑ b ∈ Finset.range cntMemBlocks, (c.state.blocks b).info.free
      ∧ ∀ d, d < standartDepth → (memDump c.state).freeBySize d
          = ∑ b ∈ Finset.range cntMemBlocks, (c.state.blocks b).info.freeBySize d := by
  have hpos : 0 < kend := lt_of_lt_of_le (by decide) hkend
  obtain ⟨M, hinv⟩ := hr.inv hpos
  have h := hinv.rep
  have hinfo : ∀ b, b < cntMemBlocks → (c.state.blocks b).info
      = ⟨2 ^ treeHeight, freePages (M b).mark treeHeight 1, freeCount (M b).mark treeHeight⟩ := by
    intro b hb
    rw [(h.marks b hb).block]
  obtain ⟨htotal, hfree, hsize⟩ := memDump_eq c.state
  refine ⟨fun b hb => ?_, ?_, ?_, fun d hd => ?_⟩
  · have hpages := hinv.ledger.pages b hb
    rw [hinfo b hb, h.sep]
    refine ⟨by omega, ?_, fun d hd => freeCount_eq_ncard h hb hd, ?_⟩
    · show freePages (M b).mark treeHeight 1 = _
      omega
    · exact sum_freeCount (M b).antichain treeHeight
  · rw [htotal, foldl_add16 _ _ (sum_lt_of_le_512 _ (fun b hb => ?_))]
    rw [hinfo b hb]
    exact le_rfl
  · rw [hfree, foldl_add16 _ _ (sum_lt_of_le_512 _ (fun b hb => ?_))]
    rw [hinfo b hb]
    exact freePages_le (M b).mark treeHeight 1
  · rw [hsize d, foldl_add16 _ _ (sum_lt_of_le_512 _ (fun b hb => ?_))]
    rw [hinfo b hb]
    exact (freeCount_le (M b).mark treeHeight d).trans
      (Nat.pow_le_pow_right (by decide) (Nat.le_of_lt_succ hd))

theorem heap_statistics_exact_half :
    ∃ c, Reachable 0x80380123 c ∧ (c.state.blocks 0).info.free
      = 512 - usedPages c.state.memSeparator 0 c.outstanding := by
  obtain ⟨-, c, -, -, hc⟩ := exists_reachable_half
  exact ⟨c, hc, ((heap_statistics_exact (by decide) hc).1 0 (by decide)).2.1⟩

end Xv6.Buddy
