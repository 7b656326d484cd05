/-
# What a client of the buddy allocator can rely on

Statements about addresses and pages only, for every run of `buddy_alloc` and
`buddy_free` from `buddy_init`: outstanding allocations are exclusive
(`outstanding_exclusive`), an allocation is the lowest one possible
(`buddyAlloc_first_fit`), and the state depends on the outstanding allocations and
not on the history (`state_history_free`).
-/
import Xv6.BuddyRuns

open HeapTree

namespace Xv6.Buddy

open Function

variable {c : Client} {b i k kend : ℕ}

/-! ## Exclusive allocations -/

/-- The byte ranges of two allocations are disjoint. -/
def PagesDisjoint (a a' : ℕ × ℕ) : Prop :=
  a.1 + a.2 * pgSize ≤ a'.1 ∨ a'.1 + a'.2 * pgSize ≤ a.1

/-- The allocation lies inside one block of the memory from `sep` on. -/
def InOneBlock (sep : ℕ) (a : ℕ × ℕ) : Prop :=
  ∃ b, b < cntMemBlocks ∧ sep + b * 512 * pgSize ≤ a.1
    ∧ a.1 + a.2 * pgSize ≤ sep + (b + 1) * 512 * pgSize

/-- Distinct used nodes hold disjoint ranges. -/
theorem pagesDisjoint_of_marks (sep : ℕ) {c j : ℕ} {M : ℕ → Marking treeHeight}
    (hi : (M b).mark i = true) (hj : (M c).mark j = true) (hne : ¬ (b = c ∧ i = j)) :
    PagesDisjoint (nodeAddr sep b i, nodeSize i) (nodeAddr sep c j, nodeSize j) := by
  obtain ⟨hi0, hi1⟩ := (M b).inTree i hi
  obtain ⟨hj0, hj1⟩ := (M c).inTree j hj
  have h1 := nodePage_add_nodeSize_le hi0 hi1
  have h2 := nodePage_add_nodeSize_le hj0 hj1
  unfold PagesDisjoint nodeAddr pgSize treeHeight standartDepth
  by_cases hbc : b = c
  · subst hbc
    have := mark_disjoint (M b) hi hj (fun hij => hne ⟨rfl, hij⟩)
    omega
  · omega

theorem nodeSize_dvd_nodePage (hi : 0 < i) (hi' : i < 1024) : nodeSize i ∣ nodePage i := by
  have h1 := nodePage_add hi hi'
  have h2 : nodeSize i ∣ 512 := by
    rw [show 512 = 2 ^ treeHeight by decide]
    exact pow_dvd_pow 2 (Nat.sub_le _ _)
  exact (Nat.dvd_add_left h2).mp (h1 ▸ Dvd.intro_left i rfl)

theorem nodeSize_dvd_nodeAddr (sep b : ℕ) (hi : 0 < i) (hi' : i < 1024) :
    nodeSize i * pgSize ∣ nodeAddr sep b i - sep := by
  have h1 := nodeSize_dvd_nodePage hi hi'
  have h2 : nodeSize i ∣ 2 ^ treeHeight := pow_dvd_pow 2 (Nat.sub_le _ _)
  unfold nodeAddr
  rw [Nat.add_sub_cancel_left, Nat.mul_comm pgSize]
  exact Nat.mul_dvd_mul_right ((h2.mul_right b).add h1) pgSize

/-- **Exclusivity.**  After any sequence of calls the outstanding allocations are
pairwise disjoint, each lies inside one block, and each is aligned to its size.  No
call in the sequence faults. -/
theorem outstanding_exclusive {kend : ℕ} {s₀ : State} (hkend : kernBase ≤ kend)
    (hinit : buddyInit (kinit kend) = .ok s₀) (ops : List Op)
    (hops : ∀ op ∈ ops, Op.Valid kend op) :
    ∃ c, callRun kend ⟨s₀, []⟩ ops = .ok c
      ∧ c.state.memSeparator = pgRoundUp kend
      ∧ c.outstanding.Pairwise PagesDisjoint
      ∧ ∀ a ∈ c.outstanding, InOneBlock c.state.memSeparator a
          ∧ a.2 * pgSize ∣ a.1 - c.state.memSeparator := by
  have hpos : 0 < kend := lt_of_lt_of_le (by decide) hkend
  obtain ⟨c, M, hrun, hinv⟩ := inv_run hpos (inv_init hinit) ops hops
  have hled := hinv.ledger
  refine ⟨c, hrun, hinv.rep.sep, ?_, fun a ha => ?_⟩
  · refine List.Pairwise.imp_of_mem ?_ hled.nodup
    intro a a' ha ha' hne
    obtain ⟨b, -, i, hi, rfl⟩ := (hled.mem a).mp ha
    obtain ⟨b', -, i', hi', rfl⟩ := (hled.mem a').mp ha'
    refine pagesDisjoint_of_marks _ hi hi' ?_
    rintro ⟨rfl, rfl⟩
    exact hne rfl
  · obtain ⟨b, hb, i, hi, rfl⟩ := (hled.mem a).mp ha
    obtain ⟨hi0, hi1⟩ := (M b).inTree i hi
    rw [hinv.rep.sep]
    refine ⟨⟨b, hb, ?_⟩, nodeSize_dvd_nodeAddr _ b hi0 hi1⟩
    have := nodeAddr_mem_block (pgRoundUp kend) b hi0 hi1
    unfold pgSize at *
    dsimp only
    omega

/-- A kernel image of 3.5 MiB leaves room for the blocks. -/
theorem exists_init : ∃ s₀, buddyInit (kinit 0x80380123) = .ok s₀ :=
  (buddyInit_ok_iff 0x80380123).mpr (by decide)

theorem outstanding_exclusive_run :
    ∃ s₀ c, buddyInit (kinit 0x80380123) = .ok s₀
      ∧ callRun 0x80380123 ⟨s₀, []⟩
          [.alloc 256, .alloc 1, .free 0x80381000, .alloc 2, .free 0x80381000] = .ok c
      ∧ c.outstanding.Pairwise PagesDisjoint := by
  obtain ⟨s₀, hs₀⟩ := exists_init
  obtain ⟨c, hrun, -, hdisj, -⟩ := outstanding_exclusive (by decide) hs₀
    [.alloc 256, .alloc 1, .free 0x80381000, .alloc 2, .free 0x80381000] (by decide)
  exact ⟨s₀, c, hs₀, hrun, hdisj⟩

/-! ## First fit -/

/-- The range of `n` pages from page `p` of block `b` could be handed out: it is
aligned, inside the block, and disjoint from every outstanding allocation. -/
structure Fits (c : Client) (n b p : ℕ) : Prop where
  block : b < cntMemBlocks
  aligned : n ∣ p
  inside : p + n ≤ 512
  disjoint : ∀ a ∈ c.outstanding,
    PagesDisjoint (c.state.memSeparator + (b * 512 + p) * pgSize, n) a

/-- The node that covers an aligned range of a block. -/
theorem exists_node_of_aligned {p : ℕ} (hk : k ≤ treeHeight) (hal : 2 ^ k ∣ p)
    (hin : p + 2 ^ k ≤ 512) : ∃ v, 0 < v ∧ v < 1024 ∧ nodePage v = p ∧ nodeSize v = 2 ^ k := by
  have hpos : 0 < 2 ^ k := by positivity
  have hdvd : 2 ^ k ∣ 512 + p := by
    refine Dvd.dvd.add ?_ hal
    rw [show 512 = 2 ^ treeHeight by decide]
    exact pow_dvd_pow 2 hk
  obtain ⟨hv0, hv1, hsize⟩ := nodeSize_div (show 512 ≤ 512 + p by omega) (by omega) hk
  refine ⟨(512 + p) / 2 ^ k, hv0, hv1, ?_, hsize⟩
  have := nodePage_add hv0 hv1
  rw [hsize, Nat.div_mul_cancel hdvd] at this
  omega

/-- The ranges that could be handed out are those of the available nodes. -/
theorem fits_iff_avail {v : ℕ} {M : ℕ → Marking treeHeight} (h : Inv kend c M) (hk : k ≤ treeHeight)
    (hb : b < cntMemBlocks) (hv0 : 0 < v) (hv1 : v < 1024) (hsize : nodeSize v = 2 ^ k) :
    Fits c (2 ^ k) b (nodePage v) ↔ Avail (M b).mark (treeHeight - k) k 1 v := by
  have hled := h.ledger
  have hlog : Nat.log2 v + k = treeHeight := by
    have h1 := log2_le_nine hv0 hv1
    have h2 := Nat.pow_right_injective (le_refl 2) hsize
    unfold treeHeight standartDepth at *
    omega
  have haddr : c.state.memSeparator + (b * 512 + nodePage v) * pgSize
      = nodeAddr (pgRoundUp kend) b v := by
    rw [h.rep.sep]
    unfold nodeAddr treeHeight standartDepth pgSize
    omega
  constructor
  · intro hf
    -- a used node above or below `v` would overlap it
    have hoff : ∀ j, (M b).mark j = true → (∀ m, j / 2 ^ m ≠ v) ∧ ∀ m, v / 2 ^ m ≠ j := by
      intro j hj
      obtain ⟨hj0, hj1⟩ := (M b).inTree j hj
      have hdis := hf.disjoint _ ((hled.mem _).mpr ⟨b, hb, j, hj, rfl⟩)
      have hpj := nodeSize_pos j
      have hpv := nodeSize_pos v
      rw [haddr, ← hsize] at hdis
      unfold PagesDisjoint nodeAddr pgSize at hdis
      dsimp only at hdis
      refine ⟨fun m hm => ?_, fun m hm => ?_⟩
      · have := nodePage_of_div hj1 hv0 hm
        omega
      · have := nodePage_of_div hv1 hj0 hm
        omega
    refine ⟨?_, fun m _ j hj => ?_, fun m _ => ?_⟩
    · rw [← hlog, Nat.add_sub_cancel]
      obtain ⟨h1, h2⟩ := Finset.mem_Ico.mp (mem_Ico_log2 hv0)
      rw [pow_succ] at h2
      rw [Nat.div_eq_iff (by positivity)]
      omega
    · by_contra hne
      exact (hoff j (by simpa using hne)).1 m hj
    · by_contra hne
      exact (hoff (v / 2 ^ m) (by simpa using hne)).2 m rfl
  · intro hav
    refine ⟨hb, hsize ▸ nodeSize_dvd_nodePage hv0 hv1, hsize ▸ nodePage_add_nodeSize_le hv0 hv1,
      fun a ha => ?_⟩
    obtain ⟨b', -, j, hj, rfl⟩ := (hled.mem a).mp ha
    rw [haddr, ← hsize]
    -- `v` and the used nodes together are again a marking
    have hadd := pagesDisjoint_of_marks (pgRoundUp kend) (b := b) (c := b') (i := v) (j := j)
      (M := update M b ((M b).add (Nat.add_sub_of_le hk) hav))
      (by simp [Marking.add])
    refine hadd ?_ ?_
    · by_cases hbb : b' = b
      · subst hbb
        rw [update_self]
        by_cases hjv : j = v
        · simp [Marking.add, hjv]
        · simpa [Marking.add, update_of_ne hjv] using hj
      · rwa [update_of_ne hbb]
    · rintro ⟨rfl, rfl⟩
      have := hav.path 0 (Nat.zero_le _)
      rw [pow_zero, Nat.div_one, hj] at this
      simp at this

/-- A block whose root has no room has no range for the request. -/
theorem not_fits_of_full {M : ℕ → Marking treeHeight} (h : Inv kend c M) (hk : k ≤ treeHeight)
    (hfull : nodeFree (M b).mark 1 < 2 ^ k) (p : ℕ) : ¬ Fits c (2 ^ k) b p := by
  intro hf
  obtain ⟨v, hv0, hv1, rfl, hsize⟩ := exists_node_of_aligned hk hf.aligned hf.inside
  have hav := (fits_iff_avail h hk hf.block hv0 hv1 hsize).mp hf
  have := (two_pow_le_maxFree_iff (M b).mark (treeHeight - k) k 1).mpr ⟨v, hav⟩
  rw [Nat.add_sub_of_le hk] at this
  exact absurd this (Nat.not_le.mpr hfull)

/-- **Completeness and first fit.**  In every reachable state `buddy_alloc` of a power
of two returns; it returns `0` exactly when no range fits, and otherwise the lowest
range that fits in the first block that has one. -/
theorem buddyAlloc_first_fit {kend k : ℕ} {c : Client} (hkend : kernBase ≤ kend)
    (hr : Reachable kend c) (hk : k ≤ treeHeight) :
    ∃ pa s', buddyAlloc c.state (2 ^ k) = .ok (pa, s')
      ∧ (pa = 0 ↔ ∀ b p, ¬ Fits c (2 ^ k) b p)
      ∧ (pa ≠ 0 → ∃ b p, Fits c (2 ^ k) b p
          ∧ pa = c.state.memSeparator + (b * 512 + p) * pgSize
          ∧ ∀ b' p', Fits c (2 ^ k) b' p' → b < b' ∨ b = b' ∧ p ≤ p') := by
  have hpos : 0 < kend := lt_of_lt_of_le (by decide) hkend
  obtain ⟨M, h⟩ := hr.inv hpos
  rcases full_or_first_room M k with hfull | ⟨b, hb, hfull, hroom⟩
  · refine ⟨0, c.state, buddyAlloc_full h.rep hk hfull, ?_, fun h0 => absurd rfl h0⟩
    refine ⟨fun _ b p hf => ?_, fun _ => rfl⟩
    exact not_fits_of_full h hk (hfull b hf.block) p hf
  · obtain ⟨s', hv, hrun, -⟩ := buddyAlloc_room hpos h.rep hk hb hfull hroom
    have hH := Nat.add_sub_of_le hk
    have hv0 := hv.pos
    have hv1 := lt_of_avail hH hv
    have hsize := nodeSize_of_avail hH hv
    have hfit := (fits_iff_avail h hk hb hv0 hv1 hsize).mpr hv
    have hne := nodeAddr_ne_zero hpos b (firstFit (M b).mark k (treeHeight - k) 1)
    refine ⟨_, s', hrun, ⟨fun h0 => absurd h0 hne, fun hno => absurd hfit (hno b _)⟩, fun _ => ?_⟩
    refine ⟨b, nodePage (firstFit (M b).mark k (treeHeight - k) 1), hfit, ?_, fun b' p' hf => ?_⟩
    · rw [h.rep.sep]
      unfold nodeAddr treeHeight standartDepth pgSize
      omega
    · rcases Nat.lt_trichotomy b b' with hlt | rfl | hgt
      · exact Or.inl hlt
      · refine Or.inr ⟨rfl, ?_⟩
        -- within the block, nodes of one size are ordered as their pages are
        obtain ⟨v', hv0', hv1', rfl, hsize'⟩ := exists_node_of_aligned hk hf.aligned hf.inside
        have hle := firstFit_le ((fits_iff_avail h hk hb hv0' hv1' hsize').mp hf)
        have h1 := nodePage_add hv0 hv1
        have h2 := nodePage_add hv0' hv1'
        have h3 := Nat.mul_le_mul_right (2 ^ k) hle
        rw [hsize] at h1
        rw [hsize'] at h2
        omega
      · exact absurd hf (not_fits_of_full h hk (hfull b' hgt) p')

/-- A reachable state with half of the first block taken. -/
theorem exists_reachable_half :
    ∃ s₀ c, buddyInit (kinit 0x80380123) = .ok s₀
      ∧ callRun 0x80380123 ⟨s₀, []⟩ [.alloc 256] = .ok c ∧ Reachable 0x80380123 c := by
  obtain ⟨s₀, hs₀⟩ := exists_init
  obtain ⟨c, M, hrun, -⟩ := inv_run (by decide) (inv_init hs₀) [.alloc 256] (by decide)
  exact ⟨s₀, c, hs₀, hrun, (Reachable.init hs₀).run _ (by decide) hrun⟩

theorem buddyAlloc_first_fit_eight :
    ∃ c, Reachable 0x80380123 c ∧ ∃ pa s', buddyAlloc c.state (2 ^ 3) = .ok (pa, s')
      ∧ (pa = 0 ↔ ∀ b p, ¬ Fits c (2 ^ 3) b p) := by
  obtain ⟨-, c, -, -, hc⟩ := exists_reachable_half
  obtain ⟨pa, s', hrun, hzero, -⟩ := buddyAlloc_first_fit (k := 3) (by decide) hc (by decide)
  exact ⟨c, hc, pa, s', hrun, hzero⟩

/-! ## History-free states -/

/-- Equal ledgers come from equal states. -/
theorem state_eq_of_mem_iff {c' : Client} {M M' : ℕ → Marking treeHeight} (h : Inv kend c M)
    (h' : Inv kend c' M') (hmem : ∀ a, a ∈ c.outstanding ↔ a ∈ c'.outstanding) :
    c.state = c'.state := by
  -- a used node of one run is listed in both ledgers, hence used in the other run
  have hsub : ∀ {c c' : Client} {M M' : ℕ → Marking treeHeight}, Inv kend c M → Inv kend c' M' →
      (∀ a, a ∈ c.outstanding → a ∈ c'.outstanding) →
      ∀ b, b < cntMemBlocks → ∀ j, (M b).mark j = true → (M' b).mark j = true := by
    intro c c' M M' h h' hsub b hb j hj
    have hin := hsub _ ((h.ledger.mem _).mpr ⟨b, hb, j, hj, rfl⟩)
    obtain ⟨b', -, j', hj', heq⟩ := (h'.ledger.mem _).mp hin
    obtain ⟨haddr, hsize⟩ := Prod.mk.inj heq
    obtain ⟨hj0, hj1⟩ := (M b).inTree j hj
    obtain ⟨hj0', hj1'⟩ := (M' b').inTree j' hj'
    obtain ⟨rfl, hpage⟩ := nodeAddr_inj hj0 hj1 hj0' hj1' haddr
    have h1 := nodePage_add hj0 hj1
    have h2 := nodePage_add hj0' hj1'
    rw [hpage, h2, hsize] at h1
    obtain rfl : j' = j := Nat.eq_of_mul_eq_mul_right (nodeSize_pos j') h1
    exact hj'
  refine h.rep.unique h'.rep (fun b hb => ?_)
  funext j
  rw [Bool.eq_iff_iff]
  exact ⟨hsub h h' (fun a => (hmem a).mp) b hb j, hsub h' h (fun a => (hmem a).mpr) b hb j⟩

theorem valid_free_of_mem (hkend : 0 < kend) (hr : Reachable kend c) {a : ℕ × ℕ}
    (ha : a ∈ c.outstanding) : Op.Valid kend (.free a.1) := by
  obtain ⟨M, h⟩ := hr.inv hkend
  obtain ⟨s₀, -, hinit, -, -⟩ := hr
  have hend := (allocRep_buddyInit hinit).2
  obtain ⟨b, hb, j, hj, rfl⟩ := (h.ledger.mem a).mp ha
  obtain ⟨hj0, hj1⟩ := (M b).inTree j hj
  have hblock := nodeAddr_mem_block (pgRoundUp kend) b hj0 hj1
  have hpos := nodeSize_pos j
  refine ⟨?_, ?_, ?_⟩
  · unfold nodeAddr pgRoundUp
    rw [Nat.add_mul_mod_self_left]
    exact Nat.mul_mod_left _ _
  · unfold pgRoundUp pgSize at *
    dsimp only
    omega
  · unfold pgSize cntMemBlocks at *
    dsimp only
    omega

/-- No older allocation starts where the newest one does. -/
theorem ne_of_mem_of_alloc {pa n : ℕ} {s : State} {L : List (ℕ × ℕ)} (hkend : 0 < kend)
    (hr : Reachable kend ⟨s, (pa, n) :: L⟩) {a : ℕ × ℕ} (ha : a ∈ L) : a.1 ≠ pa := by
  intro heq
  obtain ⟨M, h⟩ := hr.inv hkend
  obtain ⟨b, -, i, hi, hai⟩ := (h.ledger.mem a).mp (List.mem_cons_of_mem _ ha)
  obtain ⟨b', -, i', hi', hai'⟩ := (h.ledger.mem (pa, n)).mp List.mem_cons_self
  rw [hai, (Prod.mk.inj hai').1] at heq
  obtain ⟨rfl, rfl⟩ := mark_inj hi hi' heq
  rw [← hai'] at hai
  subst hai
  exact (List.nodup_cons.mp h.ledger.nodup).1 ha

/-- Freeing a list of addresses leaves the allocations at other addresses. -/
theorem callRun_frees {c' : Client} (l : List ℕ) (h : callRun kend c (l.map .free) = .ok c') :
    c'.outstanding = c.outstanding.filter (fun a => a.1 ∉ l) := by
  induction l generalizing c with
  | nil =>
    cases h
    simp
  | cons pa l ih =>
    unfold callRun at h ih
    rw [List.map_cons, List.foldlM_cons] at h
    obtain ⟨c₁, hstep, hrun⟩ := bind_eq_ok_iff.mp h
    obtain ⟨s, hfree, hret⟩ := bind_eq_ok_iff.mp hstep
    cases hret
    rw [ih hrun, List.filter_filter]
    refine List.filter_congr (fun a _ => ?_)
    simp [not_or, Bool.and_comm]

/-- **History-free states.**  Runs that end with the same outstanding allocations
end in the same state; freeing all of them in any order gives the state after
`buddy_init`; and freeing what was just allocated gives the state before. -/
theorem state_history_free {kend : ℕ} (hkend : kernBase ≤ kend) :
    (∀ c c', Reachable kend c → Reachable kend c' →
        (∀ a, a ∈ c.outstanding ↔ a ∈ c'.outstanding) → c.state = c'.state)
      ∧ (∀ s₀ c (l : List ℕ), buddyInit (kinit kend) = .ok s₀ → Reachable kend c →
          l.Perm (c.outstanding.map Prod.fst) → callRun kend c (l.map .free) = .ok ⟨s₀, []⟩)
      ∧ (∀ c k pa s', Reachable kend c → k ≤ treeHeight →
          buddyAlloc c.state (2 ^ k) = .ok (pa, s') → pa ≠ 0 →
          buddyFree kend s' pa = .ok c.state) := by
  have hpos : 0 < kend := lt_of_lt_of_le (by decide) hkend
  have hfirst : ∀ c c', Reachable kend c → Reachable kend c' →
      (∀ a, a ∈ c.outstanding ↔ a ∈ c'.outstanding) → c.state = c'.state := by
    intro c c' hr hr' hmem
    obtain ⟨M, h⟩ := hr.inv hpos
    obtain ⟨M', h'⟩ := hr'.inv hpos
    exact state_eq_of_mem_iff h h' hmem
  refine ⟨hfirst, fun s₀ c l hinit hr hl => ?_, fun c k pa s' hr hk hrun hne => ?_⟩
  · obtain ⟨M, h⟩ := hr.inv hpos
    have hvalid : ∀ op ∈ l.map Op.free, op.Valid kend := by
      intro op hop
      obtain ⟨pa, hpa, rfl⟩ := List.mem_map.mp hop
      obtain ⟨a, ha, rfl⟩ := List.mem_map.mp (hl.mem_iff.mp hpa)
      exact valid_free_of_mem hpos hr ha
    obtain ⟨c', M', hrun, -⟩ := inv_run hpos h _ hvalid
    have hempty : c'.outstanding = [] := by
      rw [callRun_frees l hrun]
      refine List.filter_eq_nil_iff.mpr (fun a ha => ?_)
      have : a.1 ∈ l := hl.mem_iff.mpr (List.mem_map_of_mem ha)
      simpa using this
    have hstate := hfirst c' ⟨s₀, []⟩ (hr.run _ hvalid hrun) (Reachable.init hinit) (by simp [hempty])
    exact hrun.trans (congrArg Except.ok (Client.ext hstate hempty))
  · -- allocate and free as a run of two calls that ends with the ledger it started with
    have hr₁ := hr.alloc hk hrun
    rw [if_neg hne] at hr₁
    have hop := valid_free_of_mem hpos hr₁ (a := (pa, 2 ^ k)) List.mem_cons_self
    obtain ⟨M₁, h₁⟩ := hr₁.inv hpos
    obtain ⟨s₂, N, hfree, -, -⟩ := buddyFree_spec h₁.rep hop.1 hop.2.1 hop.2.2
    have hr₂ := hr₁.run [.free pa] (by simpa using hop)
      ((callRun_singleton _ _ _).trans (callStep_free hfree))
    refine hfree.trans (congrArg Except.ok (hfirst _ c hr₂ hr (fun a => ?_)))
    have hold := ne_of_mem_of_alloc hpos hr₁ (a := a)
    simp only [List.mem_filter, List.mem_cons, decide_eq_true_eq]
    constructor
    · rintro ⟨rfl | ha, hpa⟩
      · exact absurd rfl hpa
      · exact ha
    · exact fun ha => ⟨Or.inr ha, hold ha⟩

theorem state_history_free_half :
    ∃ s₀ c pa s', buddyInit (kinit 0x80380123) = .ok s₀
      ∧ callRun 0x80380123 ⟨s₀, []⟩ [.alloc 256] = .ok c
      ∧ callRun 0x80380123 c ((c.outstanding.map Prod.fst).map .free) = .ok ⟨s₀, []⟩
      ∧ buddyAlloc s₀ (2 ^ 3) = .ok (pa, s') ∧ pa ≠ 0
      ∧ buddyFree 0x80380123 s' pa = .ok s₀ := by
  obtain ⟨s₀, c, hs₀, hrun, hc⟩ := exists_reachable_half
  obtain ⟨-, hall, hone⟩ := state_history_free (show kernBase ≤ 0x80380123 by decide)
  have hroom : 2 ^ 3 ≤ nodeFree (Marking.empty treeHeight).mark 1 := by
    rw [nodeFree_empty]
    decide
  obtain ⟨s', -, halloc, -⟩ := buddyAlloc_room (b := 0) (by decide) (inv_init hs₀).rep
    (by decide : 3 ≤ treeHeight) (by decide) (fun c hc => absurd hc (Nat.not_lt_zero c)) hroom
  have hne := nodeAddr_ne_zero (show 0 < 0x80380123 by decide) 0
    (firstFit (Marking.empty treeHeight).mark 3 (treeHeight - 3) 1)
  exact ⟨s₀, c, _, s', hs₀, hrun, hall s₀ c _ hs₀ hc (List.Perm.refl _), halloc, hne,
    hone ⟨s₀, []⟩ 3 _ _ (Reachable.init hs₀) (by decide) halloc hne⟩

end Xv6.Buddy
