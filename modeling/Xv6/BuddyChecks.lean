/-
# What the allocator checks

`checker_cnt_page` tests `2 * cnt` in 32 bits and halves until the number is odd; on `0` it never
ends, and `2 ^ 31`, whose double is `0`, passes and reaches the blocks as the size `0`
(`checkerCntPage_exact_iff`).

`buddy_free` tests only that the address is a page address behind the kernel.  Within that range it
gives back the one allocation that starts there, or changes nothing (`buddyFree_frees_one`), and it
does not notice that there is none (`buddyFree_panics_iff`).
-/
import Xv6.BuddyTree

open HeapTree

namespace Xv6.Buddy

variable {c : Client} {s : State} {cnt fuel kend : ℕ}

/-! ## Page counts -/

/-- The halving loop ends with the odd part. -/
theorem halveWhileEven_eq_ok {m : ℕ} (h : halveWhileEven fuel cnt = .ok m) :
    m % 2 = 1 ∧ ∃ j, cnt = 2 ^ j * m := by
  induction fuel generalizing cnt with
  | zero => cases h
  | succ fuel ih =>
    rw [halveWhileEven] at h
    split_ifs at h with heven
    · obtain ⟨hm, j, hj⟩ := ih h
      refine ⟨hm, j + 1, ?_⟩
      rw [pow_succ', mul_assoc, ← hj]
      omega
    · cases h
      exact ⟨by omega, 0, by simp⟩

theorem halveWhileEven_terminates (hpos : 0 < cnt) (hlt : cnt < 2 ^ fuel) :
    ∃ m, halveWhileEven fuel cnt = .ok m := by
  induction fuel generalizing cnt with
  | zero => omega
  | succ fuel ih =>
    rw [halveWhileEven]
    split_ifs with heven
    · exact ih (by omega) (by omega)
    · exact ⟨cnt, rfl⟩

/-- On `0` it does not end, however many turns it takes. -/
theorem halveWhileEven_zero (fuel : ℕ) : halveWhileEven fuel 0 = .error .noReturn := by
  induction fuel with
  | zero => rfl
  | succ fuel ih =>
    rw [halveWhileEven, if_pos (Nat.zero_mod 2), Nat.zero_div]
    exact ih

/-- The sizes that should be accepted. -/
def PageCount (cnt : ℕ) : Prop := 1 ≤ cnt ∧ cnt ≤ 512 ∧ ∃ k, cnt = 2 ^ k

theorem exists_pow_of_checkerCntPage (h : checkerCntPage cnt = .ok true) :
    2 * cnt % 2 ^ 32 ≤ 1024 ∧ ∃ k, cnt = 2 ^ k := by
  unfold checkerCntPage at h
  split_ifs at h with hbig
  · cases h
  have h1024 : 2 ^ standartDepth = 1024 := by decide
  refine ⟨by omega, ?_⟩
  obtain ⟨m, hm, hret⟩ := bind_eq_ok_iff.mp h
  obtain ⟨-, j, hj⟩ := halveWhileEven_eq_ok hm
  have hone : m = 1 := by simpa using Except.ok.inj hret
  exact ⟨j, by rw [hj, hone, mul_one]⟩

theorem checkerCntPage_terminates (hpos : 0 < cnt) (hlt : cnt < 2 ^ 32) :
    ∃ r, checkerCntPage cnt = .ok r := by
  unfold checkerCntPage
  split_ifs with hbig
  · exact ⟨false, rfl⟩
  · obtain ⟨m, hm⟩ := halveWhileEven_terminates hpos hlt
    exact ⟨m == 1, by rw [hm]; rfl⟩

theorem checkerCntPage_of_pageCount (h : PageCount cnt) : checkerCntPage cnt = .ok true := by
  obtain ⟨-, hle, k, rfl⟩ := h
  have hk : k < 10 := by
    by_contra hk
    have := Nat.pow_le_pow_right (n := 2) (by decide) (Nat.not_lt.mp hk)
    omega
  have h1024 : 2 ^ standartDepth = 1024 := by decide
  unfold checkerCntPage
  rw [if_neg (by omega), halveWhileEven_two_pow (by omega)]
  rfl

theorem pageCount_of_checkerCntPage (hlt : cnt < 2 ^ 32) (hne : cnt ≠ 2 ^ 31)
    (h : checkerCntPage cnt = .ok true) : PageCount cnt := by
  obtain ⟨hle, k, rfl⟩ := exists_pow_of_checkerCntPage h
  have hk : k < 32 := (Nat.pow_lt_pow_iff_right (by decide)).mp hlt
  have hk31 : k < 31 := by
    rcases Nat.lt_or_ge k 31 with hk31 | hk31
    · exact hk31
    · exact absurd (by rw [show k = 31 by omega]) hne
  have h31 : 2 ^ k < 2 ^ 31 := Nat.pow_lt_pow_right (by decide) hk31
  exact ⟨Nat.one_le_two_pow, by omega, k, rfl⟩

theorem checkerCntPage_zero : checkerCntPage 0 = .error .noReturn := by
  unfold checkerCntPage
  rw [if_neg (by decide), halveWhileEven_zero]
  rfl

theorem checkerCntPage_two_pow_31 : checkerCntPage (2 ^ 31) = .ok true := by
  unfold checkerCntPage
  rw [if_neg (by decide), halveWhileEven_two_pow (by decide)]
  rfl

/-- A number that is not a page count makes `buddy_alloc` return `0`, if it returns. -/
theorem buddyAlloc_of_not_pageCount {r : ℕ × State} (hlt : cnt < 2 ^ 32) (hne : cnt ≠ 2 ^ 31)
    (hnot : ¬ PageCount cnt) (h : buddyAlloc s cnt = .ok r) : r = (0, s) := by
  unfold buddyAlloc at h
  obtain ⟨ok, hok, hret⟩ := bind_eq_ok_iff.mp h
  have hfalse : ok = false := by
    refine Bool.eq_false_iff.mpr ?_
    rintro rfl
    exact hnot (pageCount_of_checkerCntPage hlt hne hok)
  rw [hfalse] at hret
  exact (Except.ok.inj hret).symm

/-- For every `uint32`: the check ends and accepts exactly the powers of two up to `512`, every
other number makes `buddy_alloc` return `0` without touching a block, and an accepted number
reaches `alloc_in_block` unchanged, if and only if the number is neither `0` nor `2 ^ 31`. -/
theorem checkerCntPage_exact_iff {cnt : ℕ} (hlt : cnt < 2 ^ 32) :
    (∃ r, checkerCntPage cnt = .ok r ∧ (r = true ↔ PageCount cnt)) ∧
      (¬ PageCount cnt → ∀ s, buddyAlloc s cnt = .ok (0, s)) ∧
      (checkerCntPage cnt = .ok true → cnt % 2 ^ 16 = cnt) ↔ cnt ≠ 0 ∧ cnt ≠ 2 ^ 31 := by
  constructor
  · rintro ⟨⟨r, hr, -⟩, -, hsize⟩
    constructor
    · rintro rfl
      rw [checkerCntPage_zero] at hr
      cases hr
    · rintro rfl
      have := hsize checkerCntPage_two_pow_31
      norm_num at this
  · rintro ⟨hzero, h31⟩
    obtain ⟨r, hr⟩ := checkerCntPage_terminates (Nat.pos_of_ne_zero hzero) hlt
    have hiff : r = true ↔ PageCount cnt := by
      constructor
      · rintro rfl
        exact pageCount_of_checkerCntPage hlt h31 hr
      · intro hcount
        rw [checkerCntPage_of_pageCount hcount] at hr
        exact (Except.ok.inj hr).symm
    refine ⟨⟨r, hr, hiff⟩, fun hnot s => ?_, fun hok => ?_⟩
    · have hfalse : r = false := Bool.eq_false_iff.mpr fun htrue => hnot (hiff.mp htrue)
      unfold buddyAlloc
      rw [hr, hfalse]
      rfl
    · have hle := (pageCount_of_checkerCntPage hlt h31 hok).2.1
      exact Nat.mod_eq_of_lt (by omega)

theorem checkerCntPage_exact_three :
    checkerCntPage 3 = .ok false ∧ ∀ s, buddyAlloc s 3 = .ok (0, s) := by
  have hnot : ¬ PageCount 3 := by
    rintro ⟨-, -, k, hk⟩
    rcases k with _ | k
    · cases hk
    · rw [pow_succ] at hk
      omega
  exact ⟨by decide, ((checkerCntPage_exact_iff (by decide)).mpr (by decide)).2.1 hnot⟩

/-- `checker_cnt_page(0)` does not end, and `2 ^ 31` is accepted with the size `0`. -/
theorem checkerCntPage_wrong :
    checkerCntPage 0 = .error .noReturn ∧ (∀ fuel, halveWhileEven fuel 0 = .error .noReturn) ∧
      checkerCntPage (2 ^ 31) = .ok true ∧ 2 ^ 31 % 2 ^ 16 = 0 :=
  ⟨checkerCntPage_zero, halveWhileEven_zero, checkerCntPage_two_pow_31, by norm_num⟩

/-- With the size `0` the descent runs past a leaf. -/
theorem allocInNode_zero {b i : ℕ} {U : ℕ → Bool} (hm : HasMarks s b U) (hi : 0 < i)
    (hi' : i < 1024) (r : ℕ × State) : allocInNode fuel s (1024 * b + i) 0 b ≠ .ok r := by
  induction fuel generalizing i with
  | zero => simp [allocInNode]
  | succ fuel ih =>
    have hbig : ¬ (nodeFree U i = 0 ∧ nodeSize i = 0) := fun h => (nodeSize_pos i).ne' h.2
    rw [allocInNode]
    simp only [hm.node i hi hi', blockNode]
    rw [if_neg hbig]
    by_cases hleaf : i < 512
    · simp only [if_pos hleaf, deref_some, ok_bind, ge_iff_le, Nat.zero_le, if_true]
      exact ih (by omega) (by omega)
    · simp only [if_neg hleaf, deref_none, error_bind]
      simp

/-- The accepted number `2 ^ 31` makes `buddy_alloc` dereference a null child. -/
theorem buddyAlloc_two_pow_31 {M : ℕ → Marking treeHeight} (h : AllocRep kend s M) (r : ℕ × State) :
    buddyAlloc s (2 ^ 31) ≠ .ok r := by
  intro hrun
  unfold buddyAlloc at hrun
  rw [checkerCntPage_two_pow_31] at hrun
  -- the first block has room for a request of size `0`
  have hmarks := h.marks 0 (by decide)
  have hloop : allocLoop (0 :: (List.range 61).map (· + 1)) s 0 = .ok r := hrun
  rw [allocLoop] at hloop
  obtain ⟨a, ha, -⟩ := bind_eq_ok_iff.mp hloop
  unfold allocInBlock at ha
  simp only [hmarks.root.1, Nat.not_lt_zero, if_false] at ha
  exact allocInNode_zero hmarks one_pos (by decide) a ha

/-- Every call that returns, admissible or not, leads from a reachable state to a reachable one. -/
theorem Reachable.call {c' : Client} {op : Op} (hkend : 0 < kend) (hr : Reachable kend c)
    (hop : ∀ cnt, op = .alloc cnt → cnt < 2 ^ 32) (hrun : callStep kend c op = .ok c') :
    Reachable kend c' := by
  by_cases hvalid : op.Valid kend
  · exact hr.run [op] (by simpa using hvalid) ((callRun_singleton _ _ _).trans hrun)
  cases op with
  | alloc cnt =>
    obtain ⟨⟨pa, s⟩, halloc, hret⟩ := bind_eq_ok_iff.mp hrun
    obtain ⟨M, hinv⟩ := hr.inv hkend
    have hlt := hop cnt rfl
    have hcount : ¬ PageCount cnt := by
      rintro ⟨-, hle, k, rfl⟩
      have h512 : 2 ^ treeHeight = 512 := by decide
      exact hvalid ⟨k, (Nat.pow_le_pow_iff_right (by decide)).mp (hle.trans_eq h512.symm), rfl⟩
    have h31 : cnt ≠ 2 ^ 31 := by
      rintro rfl
      exact buddyAlloc_two_pow_31 hinv.rep _ halloc
    rw [buddyAlloc_of_not_pageCount hlt h31 hcount halloc] at hret
    exact (Except.ok.inj hret) ▸ hr
  | free pa =>
    obtain ⟨s, hfree, -⟩ := bind_eq_ok_iff.mp hrun
    have hcheck : ¬ (pa % pgSize ≠ 0 ∨ pa < kend ∨ pa ≥ physTop) := by
      intro hcheck
      rw [buddyFree, if_pos hcheck] at hfree
      cases hfree
    exact absurd ⟨by omega, by omega, by omega⟩ hvalid

/-- So misuse breaks no invariant, in runs with any sizes and addresses. -/
theorem reachable_of_callRun {c' : Client} (hkend : 0 < kend) (hr : Reachable kend c)
    (ops : List Op) (hops : ∀ cnt, .alloc cnt ∈ ops → cnt < 2 ^ 32)
    (hrun : callRun kend c ops = .ok c') : Reachable kend c' := by
  induction ops generalizing c with
  | nil =>
    cases hrun
    exact hr
  | cons op ops ih =>
    unfold callRun at hrun
    rw [List.foldlM_cons] at hrun
    obtain ⟨c₁, hstep, hrest⟩ := bind_eq_ok_iff.mp hrun
    refine ih (hr.call hkend ?_ hstep) (fun cnt hcnt => ?_) hrest
    · rintro cnt rfl
      exact hops cnt List.mem_cons_self
    · exact hops cnt (List.mem_cons_of_mem _ hcnt)

theorem reachable_of_callRun_three : ∃ c, callRun 0x80380123 c [.alloc 3, .alloc 3] = .ok c
    ∧ Reachable 0x80380123 c := by
  obtain ⟨s₀, hs₀⟩ := exists_init
  exact ⟨_, rfl, reachable_of_callRun (by decide) (.init hs₀) [.alloc 3, .alloc 3] (by simp) rfl⟩

/-! ## Addresses -/

/-- A used node of some block's tree, with its first address and its size. -/
def UsedNode (s : State) (a : ℕ × ℕ) : Prop :=
  ∃ b, b < cntMemBlocks ∧ ∃ p, InBlock s b p ∧ (s.nodesMem p).isUsed = true ∧
    a = ((s.nodesMem p).startPtr, (s.nodesMem p).cntPage)

theorem startPtr_eq {b : ℕ} {M : ℕ → Marking treeHeight} (h : AllocRep kend s M)
    (hb : b < cntMemBlocks) {i : ℕ} (hi : 0 < i) (hi' : i < 1024) :
    (s.nodesMem (1024 * b + i)).startPtr = nodeAddr (pgRoundUp kend) b i := by
  rw [(h.marks b hb).node i hi hi', ← h.sep]
  rfl

theorem usedNode_iff {M : ℕ → Marking treeHeight} (h : AllocRep kend s M) (a : ℕ × ℕ) :
    UsedNode s a ↔ ∃ b, b < cntMemBlocks ∧ ∃ j, (M b).mark j = true ∧
      a = (nodeAddr (pgRoundUp kend) b j, nodeSize j) := by
  constructor
  · rintro ⟨b, hb, p, hp, hused, rfl⟩
    obtain ⟨i, hi, hi', rfl⟩ := (inBlock_iff h hb p).mp hp
    rw [isUsed_eq h hb hi hi'] at hused
    exact ⟨b, hb, i, hused, by rw [startPtr_eq h hb hi hi', cntPage_eq h hb hi hi']⟩
  · rintro ⟨b, hb, j, hj, rfl⟩
    obtain ⟨hj0, hj1⟩ := (M b).inTree j hj
    refine ⟨b, hb, 1024 * b + j, (inBlock_iff h hb _).mpr ⟨j, hj0, hj1, rfl⟩, ?_, ?_⟩
    · rw [isUsed_eq h hb hj0 hj1]
      exact hj
    · rw [startPtr_eq h hb hj0 hj1, cntPage_eq h hb hj0 hj1]

/-- The used nodes of a reachable state are the outstanding allocations. -/
theorem usedNode_iff_mem {M : ℕ → Marking treeHeight} (h : Inv kend c M) (a : ℕ × ℕ) :
    UsedNode c.state a ↔ a ∈ c.outstanding :=
  (usedNode_iff h.rep a).trans (h.ledger.mem a).symm

/-- `buddy_free` drops the used nodes that start at `pa`. -/
theorem usedNode_buddyFree (pa : ℕ) {M : ℕ → Marking treeHeight} (h : Inv kend c M)
    (hpa : pa % pgSize = 0) (hlo : kend ≤ pa) (hhi : pa < physTop) :
    ∃ s, buddyFree kend c.state pa = .ok s ∧ (∀ a, UsedNode s a ↔ a ∈ c.outstanding ∧ a.1 ≠ pa) ∧
      ((∀ n, (pa, n) ∉ c.outstanding) → s = c.state) := by
  obtain ⟨s, N, hrun, hrep, hN⟩ := buddyFree_spec h.rep hpa hlo hhi
  refine ⟨s, hrun, fun a => ?_, fun hnone => ?_⟩
  · rw [usedNode_iff hrep, h.ledger.mem]
    constructor
    · rintro ⟨b, hb, j, hj, rfl⟩
      obtain ⟨hmark, hne⟩ := (hN b hb j).mp hj
      exact ⟨⟨b, hb, j, hmark, rfl⟩, hne⟩
    · rintro ⟨⟨b, hb, j, hmark, rfl⟩, hne⟩
      exact ⟨b, hb, j, (hN b hb j).mpr ⟨hmark, hne⟩, rfl⟩
  · -- no used node starts at `pa`, so the used nodes are as before
    refine hrep.unique h.rep fun b hb => ?_
    funext j
    rw [Bool.eq_iff_iff, hN b hb j]
    refine ⟨fun hj => hj.1, fun hj => ⟨hj, fun heq => ?_⟩⟩
    exact hnone (nodeSize j) ((h.ledger.mem _).mpr ⟨b, hb, j, hj, by rw [heq]⟩)

/-- **`buddy_free` frees one allocation or nothing.**  In every reachable state, for every page
address of the RAM behind the kernel: if an outstanding allocation starts there, the used nodes
afterwards are the outstanding allocations without it; otherwise the whole state is as before. -/
theorem buddyFree_frees_one {kend pa : ℕ} {c : Client} (hkend : kernBase ≤ kend)
    (hr : Reachable kend c) (hpa : pa % pgSize = 0) (hlo : kend ≤ pa) (hhi : pa < physTop) :
    (∀ a, UsedNode c.state a ↔ a ∈ c.outstanding) ∧
    (∀ n, (pa, n) ∈ c.outstanding → ∃ s, buddyFree kend c.state pa = .ok s ∧
      ∀ a, UsedNode s a ↔ a ∈ c.outstanding ∧ a ≠ (pa, n)) ∧
    ((∀ n, (pa, n) ∉ c.outstanding) → buddyFree kend c.state pa = .ok c.state) := by
  have hpos : 0 < kend := lt_of_lt_of_le (by decide) hkend
  obtain ⟨M, hinv⟩ := hr.inv hpos
  obtain ⟨s, hrun, hused, hsame⟩ := usedNode_buddyFree pa hinv hpa hlo hhi
  refine ⟨usedNode_iff_mem hinv, fun n hn => ⟨s, hrun, fun a => ?_⟩, fun hnone => ?_⟩
  · rw [hused]
    refine and_congr_right fun ha => not_congr ?_
    constructor
    · intro heq
      -- two outstanding allocations do not start at one address
      obtain ⟨b, -, i, hi, hai⟩ := (hinv.ledger.mem a).mp ha
      obtain ⟨b', -, i', hi', hpai⟩ := (hinv.ledger.mem (pa, n)).mp hn
      have hstart : nodeAddr (pgRoundUp kend) b i = nodeAddr (pgRoundUp kend) b' i' := by
        rw [← (Prod.mk.inj hpai).1, ← heq, hai]
      obtain ⟨rfl, rfl⟩ := mark_inj hi hi' hstart
      rw [hai, hpai]
    · rintro rfl
      rfl
  · rw [hrun, hsame hnone]

theorem buddyFree_frees_one_half :
    ∃ c pa, Reachable 0x80380123 c ∧ (pa, 256) ∈ c.outstanding ∧
      ∃ s, buddyFree 0x80380123 c.state pa = .ok s ∧
        ∀ a, UsedNode s a ↔ a ∈ c.outstanding ∧ a ≠ (pa, 256) := by
  obtain ⟨s₀, hinit⟩ := exists_init
  have hroom : 2 ^ 8 ≤ nodeFree (Marking.empty treeHeight).mark 1 := by
    rw [nodeFree_empty]
    decide
  obtain ⟨s, -, halloc, -⟩ := buddyAlloc_room (by decide) (inv_init hinit).rep (by decide)
    (by decide : 0 < cntMemBlocks) (fun c hc => absurd hc (Nat.not_lt_zero c)) hroom
  have hc := (Reachable.init hinit).alloc (by decide) halloc
  rw [if_neg (nodeAddr_ne_zero (by decide) _ _)] at hc
  have hvalid := valid_free_of_mem (by decide) hc List.mem_cons_self
  obtain ⟨-, hone, -⟩ := buddyFree_frees_one (by decide) hc hvalid.1 hvalid.2.1 hvalid.2.2
  exact ⟨_, _, hc, List.mem_cons_self, hone 256 List.mem_cons_self⟩

/-- In every reachable state and for every address, whether an outstanding allocation starts there
or not, `buddy_free` panics exactly if the address is not a page address or not in the RAM behind
the kernel. -/
theorem buddyFree_panics_iff {kend pa : ℕ} {c : Client} (hkend : kernBase ≤ kend)
    (hr : Reachable kend c) :
    (∃ msg, buddyFree kend c.state pa = .error (.panic msg)) ↔
      pa % pgSize ≠ 0 ∨ pa < kend ∨ physTop ≤ pa := by
  have hpos : 0 < kend := lt_of_lt_of_le (by decide) hkend
  obtain ⟨M, hinv⟩ := hr.inv hpos
  constructor
  · rintro ⟨msg, hmsg⟩
    by_contra hcheck
    obtain ⟨s, hrun, -⟩ := usedNode_buddyFree pa hinv (by omega) (by omega) (by omega)
    rw [hrun] at hmsg
    cases hmsg
  · intro hcheck
    exact ⟨"buddy_free_pa", if_pos hcheck⟩

theorem buddyFree_panics_null :
    ∃ c, Reachable 0x80380123 c ∧
      ∃ msg, buddyFree 0x80380123 c.state 0 = .error (.panic msg) := by
  obtain ⟨s₀, hs₀⟩ := exists_init
  have hr := Reachable.init hs₀
  exact ⟨_, hr, (buddyFree_panics_iff (by decide) hr).mpr (by decide)⟩

/-- Right after `buddy_init`, freeing the first page, which was never allocated, returns. -/
theorem buddyFree_accepts_unallocated :
    ∃ c, Reachable 0x80380123 c ∧ c.outstanding = [] ∧
      buddyFree 0x80380123 c.state 0x80381000 = .ok c.state := by
  obtain ⟨s₀, hs₀⟩ := exists_init
  have hr := Reachable.init hs₀
  obtain ⟨M, hinv⟩ := hr.inv (by decide)
  obtain ⟨s, hrun, -, hsame⟩ :=
    usedNode_buddyFree 0x80381000 hinv (by decide) (by decide) (by decide)
  exact ⟨_, hr, rfl, hrun.trans (congrArg Except.ok (hsame (by simp)))⟩

end Xv6.Buddy
