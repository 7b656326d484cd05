/-
# Pages for the rest of the kernel (`kernel/kalloc.c`)

`kalloc` and `kfree` are `buddy_alloc(1)` and `buddy_free`.  The rest of the kernel
sees no more of the allocator than a set of outstanding pages, so its model works on
a `PagePool`: the outstanding pages, and the values that the next calls of `kalloc`
return.  A value that is not a free page stands for a failure, as `0` does.

`kalloc_of_buddyAlloc` and `kfree_of_buddyFree` connect the pool to the allocator:
whatever `buddy_alloc(1)` and `buddy_free` do in a reachable state, the pool can do.
-/
import Xv6.BuddyClient

namespace Xv6

/-- The allocator as its clients see it. -/
structure PagePool where
  /-- The linker symbol `end`. -/
  kend : ℕ
  outstanding : Finset ℕ
  /-- The return values of the calls of `kalloc` to come. -/
  supply : List ℕ

namespace PagePool

/-- A page address that `buddy_free` accepts. -/
def IsPage (m : PagePool) (pa : ℕ) : Prop :=
  pa % pgSize = 0 ∧ m.kend ≤ pa ∧ pa < physTop

instance (m : PagePool) (pa : ℕ) : Decidable (m.IsPage pa) :=
  inferInstanceAs (Decidable (_ ∧ _))

end PagePool

/-- `kalloc()`, with `none` for a null result. -/
def kalloc (m : PagePool) : Option ℕ × PagePool :=
  match m.supply with
  | [] => (none, m)
  | pa :: rest =>
    if pa ≠ 0 ∧ m.IsPage pa ∧ pa ∉ m.outstanding then
      (some pa, { m with outstanding := insert pa m.outstanding, supply := rest })
    else (none, { m with supply := rest })

theorem kalloc_of_supply {m : PagePool} {pa : ℕ} {rest : List ℕ} (h : m.supply = pa :: rest) :
    kalloc m = if pa ≠ 0 ∧ m.IsPage pa ∧ pa ∉ m.outstanding then
        (some pa, { m with outstanding := insert pa m.outstanding, supply := rest })
      else (none, { m with supply := rest }) := by
  unfold kalloc
  rw [h]

/-- What `kalloc` can do: fail, or hand out a page that is not outstanding. -/
theorem kalloc_cases (m : PagePool) :
    (∃ m', kalloc m = (none, m') ∧ m'.outstanding = m.outstanding ∧ m'.kend = m.kend)
      ∨ ∃ pa m', kalloc m = (some pa, m') ∧ m.IsPage pa ∧ pa ∉ m.outstanding
        ∧ m'.outstanding = insert pa m.outstanding ∧ m'.kend = m.kend := by
  cases hs : m.supply with
  | nil =>
    refine Or.inl ⟨m, ?_, rfl, rfl⟩
    unfold kalloc
    rw [hs]
  | cons pa rest =>
    rw [kalloc_of_supply hs]
    split_ifs with hcond
    · exact Or.inr ⟨pa, _, rfl, hcond.2.1, hcond.2.2, rfl, rfl⟩
    · exact Or.inl ⟨_, rfl, rfl, rfl⟩

/-- `kfree(pa)`. -/
def kfree (m : PagePool) (pa : ℕ) : Except Fault PagePool :=
  if ¬ m.IsPage pa then .error (.panic "buddy_free_pa")
  else .ok { m with outstanding := m.outstanding.erase pa }

/-! ## The pool and the allocator -/

open Buddy

/-- The pool of a client of the allocator that holds single pages. -/
def poolOf (kend : ℕ) (c : Client) (supply : List ℕ) : PagePool where
  kend := kend
  outstanding := (c.outstanding.map Prod.fst).toFinset
  supply := supply

/-- **`kalloc` on the pool is `buddy_alloc(1)`.** -/
theorem kalloc_of_buddyAlloc {kend pa : ℕ} {c : Client} {s : State} (hkend : kernBase ≤ kend)
    (hr : Reachable kend c) (h : buddyAlloc c.state 1 = .ok (pa, s)) (rest : List ℕ) :
    kalloc (poolOf kend c (pa :: rest))
      = (if pa = 0 then none else some pa,
        poolOf kend ⟨s, if pa = 0 then c.outstanding else (pa, 1) :: c.outstanding⟩ rest) := by
  have hpos : 0 < kend := lt_of_lt_of_le (by decide) hkend
  have hr' := hr.alloc (k := 0) (by decide) h
  by_cases hpa : pa = 0
  · subst hpa
    simp [kalloc, poolOf]
  · rw [if_neg hpa] at hr'
    -- the new page is none of the outstanding ones and may be freed again
    have hpage := valid_free_of_mem hpos hr' (a := (pa, 2 ^ 0)) List.mem_cons_self
    have hfresh : pa ∉ (c.outstanding.map Prod.fst).toFinset := by
      intro hmem
      obtain ⟨a, ha, haeq⟩ := List.mem_map.mp (List.mem_toFinset.mp hmem)
      exact ne_of_mem_of_alloc hpos hr' ha haeq
    have hcond : pa ≠ 0 ∧ (poolOf kend c (pa :: rest)).IsPage pa
        ∧ pa ∉ (poolOf kend c (pa :: rest)).outstanding := ⟨hpa, hpage, hfresh⟩
    rw [kalloc_of_supply rfl, if_pos hcond, if_neg hpa, if_neg hpa]
    simp [poolOf]

/-- **`kfree` on the pool is `buddy_free`.** -/
theorem kfree_of_buddyFree {kend pa : ℕ} {c : Client} (hkend : kernBase ≤ kend)
    (hr : Reachable kend c) (hpa : Op.Valid kend (.free pa)) (rest : List ℕ) :
    ∃ c', callStep kend c (.free pa) = .ok c' ∧ Reachable kend c'
      ∧ kfree (poolOf kend c rest) pa = .ok (poolOf kend c' rest) := by
  have hpos : 0 < kend := lt_of_lt_of_le (by decide) hkend
  obtain ⟨M, hinv⟩ := hr.inv hpos
  obtain ⟨s, -, hfree, -, -⟩ := buddyFree_spec hinv.rep hpa.1 hpa.2.1 hpa.2.2
  refine ⟨_, callStep_free hfree, ?_, ?_⟩
  · refine hr.run [.free pa] ?_ ((callRun_singleton _ _ _).trans (callStep_free hfree))
    simpa using hpa
  · have hpage : (poolOf kend c rest).IsPage pa := hpa
    unfold kfree
    rw [if_neg (not_not_intro hpage)]
    congr 1
    simp only [poolOf, PagePool.mk.injEq, true_and, and_true]
    ext x
    simp only [Finset.mem_erase, List.mem_toFinset, List.mem_map, List.mem_filter,
      decide_eq_true_eq]
    constructor
    · rintro ⟨hne, a, ha, rfl⟩
      exact ⟨a, ⟨ha, hne⟩, rfl⟩
    · rintro ⟨a, ⟨ha, hne⟩, rfl⟩
      exact ⟨hne, a, ha, rfl⟩

/-- A call of `kalloc` or `kfree`. -/
def poolStep (m : PagePool) : Op → Except Fault PagePool
  | .alloc _ => .ok (kalloc m).2
  | .free pa => kfree m pa

variable {kend : ℕ} {c : Client}

theorem poolStep_of_callStep (hkend : kernBase ≤ kend) (hr : Reachable kend c) {op : Op}
    (hop : op.Valid kend ∧ ∀ cnt, op = .alloc cnt → cnt = 1) :
    ∃ c' l, callStep kend c op = .ok c' ∧ Reachable kend c'
      ∧ ∀ rest, poolStep (poolOf kend c (l ++ rest)) op = .ok (poolOf kend c' rest) := by
  cases op with
  | alloc cnt =>
    obtain rfl := hop.2 cnt rfl
    have hpos : 0 < kend := lt_of_lt_of_le (by decide) hkend
    obtain ⟨M, hinv⟩ := hr.inv hpos
    obtain ⟨c', -, hstep, -⟩ := inv_step hpos hinv hop.1
    obtain ⟨⟨pa, s⟩, halloc, -⟩ := bind_eq_ok_iff.mp hstep
    refine ⟨_, [pa], callStep_alloc halloc, hr.alloc (k := 0) (by decide) halloc, fun rest => ?_⟩
    exact congrArg (Except.ok ·.2) (kalloc_of_buddyAlloc hkend hr halloc rest)
  | free pa =>
    obtain ⟨c', hstep, hr', -⟩ := kfree_of_buddyFree hkend hr hop.1 []
    refine ⟨c', [], hstep, hr', fun rest => ?_⟩
    obtain ⟨c'', hstep', -, hfree⟩ := kfree_of_buddyFree hkend hr hop.1 rest
    cases hstep.symm.trans hstep'
    exact hfree

/-- Whatever the allocator does in a run of `kalloc` and `kfree`, the pool does with some answers. -/
theorem pool_simulates_runs (hkend : kernBase ≤ kend) (hr : Reachable kend c) (ops : List Op)
    (hops : ∀ op ∈ ops, op.Valid kend ∧ ∀ cnt, op = .alloc cnt → cnt = 1) :
    ∃ c' supply, callRun kend c ops = .ok c' ∧ ∀ rest,
      ops.foldlM poolStep (poolOf kend c (supply ++ rest)) = .ok (poolOf kend c' rest) := by
  induction ops generalizing c with
  | nil => exact ⟨c, [], rfl, fun _ => rfl⟩
  | cons op ops ih =>
    obtain ⟨c₁, l, hstep, hr₁, hpool⟩ := poolStep_of_callStep hkend hr (hops op List.mem_cons_self)
    obtain ⟨c', supply, hrun, hpools⟩ := ih hr₁ fun op hop => hops op (List.mem_cons_of_mem _ hop)
    refine ⟨c', l ++ supply, ?_, fun rest => ?_⟩
    · unfold callRun
      rw [List.foldlM_cons, hstep]
      exact hrun
    · rw [List.foldlM_cons, List.append_assoc, hpool]
      exact hpools rest

theorem pool_simulates_runs_init : ∃ s₀ c' supply, buddyInit (kinit 0x80380123) = .ok s₀
    ∧ callRun 0x80380123 ⟨s₀, []⟩ [.alloc 1, .free 0x80381000, .alloc 1] = .ok c'
    ∧ [.alloc 1, .free 0x80381000, .alloc 1].foldlM poolStep (poolOf 0x80380123 ⟨s₀, []⟩ supply)
      = .ok (poolOf 0x80380123 c' []) := by
  obtain ⟨s₀, hs₀⟩ := exists_init
  obtain ⟨c', supply, hrun, hpool⟩ := pool_simulates_runs (by decide) (Reachable.init hs₀)
    [.alloc 1, .free 0x80381000, .alloc 1] (by simp; decide)
  exact ⟨s₀, c', supply, hs₀, hrun, List.append_nil supply ▸ hpool []⟩

end Xv6
