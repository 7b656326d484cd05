/-
# Any sequence of calls on a page table

Every call that changes a user page table leads from an address space to an address
space over the same `B`, on every failing path too, and `proc_freepagetable` leaves
`B`; so no sequence of calls loses a page (`no_page_leak`).
-/
import Xv6.VmBytes

namespace Xv6

variable {B : Multiset ℕ} {m m' : PagePool} {pt pt' : PageTable} {oldsz sz : ℕ}

/-! ## `uvmalloc` and `uvmcopy` without the bytes -/

/-- **`uvmalloc`** returns the larger size and has mapped the pages below it, or returns `0`
and has mapped nothing. -/
theorem uvmalloc_spec (h : AddressSpace m B pt (pageCount oldsz)) (newsz : ℕ) (w x : Bool) :
    ∃ r pt' m', uvmalloc pt m oldsz newsz w x = .ok (r, pt', m') ∧ m'.kend = m.kend
      ∧ ((r = max oldsz newsz ∧ AddressSpace m' B pt' (pageCount r))
        ∨ r = 0 ∧ AddressSpace m' B pt' (pageCount oldsz)) := by
  obtain ⟨r, pt', m', ram', hrun, hkend, hor⟩ := uvmallocBytes_spec h (fun _ => 0) newsz w x
  have hfst := uvmallocBytes_fst pt m (fun _ => 0) oldsz newsz w x
  rw [hrun] at hfst
  refine ⟨r, pt', m', hfst.symm, hkend, ?_⟩
  rcases hor with ⟨hr, hspace, -⟩ | ⟨hr, hspace, -⟩
  · exact Or.inl ⟨hr, hspace⟩
  · exact Or.inr ⟨hr, hspace⟩

/-- **`uvmcopy`** into an empty address space maps as many pages, or none. -/
theorem uvmcopy_space {old new : PageTable} (hold : MapsBelow old sz) (h : AddressSpace m B new 0) :
    ∃ ok new' m', uvmcopy old new m sz = .ok (ok, new', m') ∧ m'.kend = m.kend
      ∧ AddressSpace m' B new' (if ok then pageCount sz else 0) := by
  obtain ⟨ok, new', m', ram', hrun, hkend, hspace, -⟩ := uvmcopyBytes_spec hold (fun _ => 0) h
  have hfst := uvmcopyBytes_fst old new m (fun _ => 0) sz
  rw [hrun] at hfst
  exact ⟨ok, new', m', hfst.symm, hkend, hspace⟩

/-! ## Any sequence of calls -/

/-- A call on a user page table. -/
inductive VmCall where
  | uvmalloc (newsz : ℕ) (w x : Bool)
  | uvmdealloc (newsz : ℕ)
  /-- `uvmcopy` with this page table as the destination. -/
  | uvmcopy (old : PageTable) (sz : ℕ)
  /-- `sz = PGROUNDUP(sz)` in `exec`. -/
  | roundUp

/-- A page table, the pool, and the size the caller has noted. -/
structure VmState where
  pt : PageTable
  mem : PagePool
  sz : ℕ

variable {s : VmState}

/-- A call, with the caller's treatment of the result: `growproc` and `exec` keep their size
when `uvmalloc` returns `0`, `fork` notes the size when `uvmcopy` has succeeded. -/
def vmCall (s : VmState) : VmCall → Except Fault VmState
  | .uvmalloc newsz w x => do
    let (sz, pt, m) ← uvmalloc s.pt s.mem s.sz newsz w x
    return ⟨pt, m, if sz = 0 then s.sz else sz⟩
  | .uvmdealloc newsz => do
    let (sz, pt, m) ← uvmdealloc s.pt s.mem s.sz newsz
    return ⟨pt, m, sz⟩
  | .uvmcopy old sz => do
    let (ok, pt, m) ← uvmcopy old s.pt s.mem sz
    return ⟨pt, m, if ok then sz else s.sz⟩
  | .roundUp => .ok { s with sz := pgRoundUp s.sz }

/-- `fork` copies the memory of a process into a page table that has none. -/
def VmCall.Fits (s : VmState) : VmCall → Prop
  | .uvmcopy old sz => s.sz = 0 ∧ MapsBelow old sz
  | _ => True

/-- `VmRun s t`: some sequence of calls leads from `s` to `t`. -/
inductive VmRun (s : VmState) : VmState → Prop
  | refl : VmRun s s
  | call {t u : VmState} {c : VmCall} : VmRun s t → c.Fits t → vmCall t c = .ok u → VmRun s u

/-- The state holds an address space over `B`. -/
def VmState.Space (s : VmState) (B : Multiset ℕ) : Prop := AddressSpace s.mem B s.pt (pageCount s.sz)

/-- Every call returns and leads to an address space over the same account. -/
theorem vmCall_space (h : s.Space B) {c : VmCall} (hc : c.Fits s) :
    ∃ t, vmCall s c = .ok t ∧ t.Space B := by
  cases c with
  | uvmalloc newsz w x =>
    obtain ⟨r, pt', m', hrun, -, hor⟩ := uvmalloc_spec h newsz w x
    refine ⟨⟨pt', m', if r = 0 then s.sz else r⟩, ?_, ?_⟩
    · simp only [vmCall, hrun, ok_bind]
      rfl
    · unfold VmState.Space
      rcases hor with ⟨hr, hspace⟩ | ⟨rfl, hspace⟩
      · simp only
        split_ifs with h0
        · -- a new size `0` is also the old one
          have hs : s.sz = r := by omega
          rwa [hs]
        · exact hspace
      · rwa [if_pos rfl]
  | uvmdealloc newsz =>
    obtain ⟨pt', m', hrun, -, hspace, -⟩ := uvmdealloc_spec h newsz
    refine ⟨⟨pt', m', min s.sz newsz⟩, ?_, hspace⟩
    simp only [vmCall, hrun, ok_bind]
    rfl
  | uvmcopy old sz =>
    obtain ⟨hsz, hold⟩ := hc
    unfold VmState.Space at h
    rw [hsz] at h
    obtain ⟨ok, pt', m', hrun, -, hspace⟩ := uvmcopy_space hold h
    refine ⟨⟨pt', m', if ok then sz else s.sz⟩, ?_, ?_⟩
    · simp only [vmCall, hrun, ok_bind]
      rfl
    · unfold VmState.Space
      cases ok with
      | true => exact hspace
      | false =>
        rw [hsz]
        simpa using hspace
  | roundUp =>
    refine ⟨{ s with sz := pgRoundUp s.sz }, rfl, ?_⟩
    unfold VmState.Space
    rwa [pgRoundUp_eq, pageCount_mul]

theorem VmRun.space {t : VmState} (hrun : VmRun s t) (h : s.Space B) : t.Space B := by
  induction hrun with
  | refl => exact h
  | call _ hfits hcall ih =>
    obtain ⟨u, hcall', hspace⟩ := vmCall_space ih hfits
    rw [hcall] at hcall'
    cases hcall'
    exact hspace

/-- **No page leaks and no cleanup panic.**  After any calls on a page table made by
`proc_pagetable` the next call returns, and `proc_freepagetable` returns and leaves exactly
the pages outstanding that were before the page table was made. -/
theorem no_page_leak {m m₁ : PagePool} {trampoline trapframe : ℕ} {pt : PageTable}
    (hpt : procPagetable trampoline trapframe m = .ok (some pt, m₁)) {s : VmState}
    (hrun : VmRun ⟨pt, m₁, 0⟩ s) :
    (∀ c : VmCall, c.Fits s → ∃ t, vmCall s c = .ok t)
      ∧ ∃ m', procFreepagetable s.pt s.mem s.sz = .ok m' ∧ m'.outstanding = m.outstanding := by
  have hspace₁ : (⟨pt, m₁, 0⟩ : VmState).Space m.outstanding.val := by
    rcases procPagetable_space (show Holds m m.outstanding.val from rfl) trampoline trapframe with
      ⟨m', hrun', -⟩ | ⟨pt', m', hrun', -, hspace⟩
    · rw [hpt] at hrun'
      cases hrun'
    · rw [hpt] at hrun'
      obtain ⟨hpt', rfl⟩ := Prod.mk.inj (Except.ok.inj hrun')
      cases hpt'
      unfold VmState.Space
      rwa [pageCount_zero]
  have hspace := hrun.space hspace₁
  constructor
  · intro c hc
    obtain ⟨t, ht, -⟩ := vmCall_space hspace hc
    exact ⟨t, ht⟩
  · obtain ⟨m', hfree, -, hholds⟩ := procFreepagetable_space hspace
    exact ⟨m', hfree, Finset.val_injective hholds⟩

theorem VmRun.foldlM {t u : VmState} (h : VmRun s t) {l : List VmCall} (hl : ∀ c ∈ l, ∀ v, c.Fits v)
    (hrun : l.foldlM vmCall t = .ok u) : VmRun s u := by
  induction l generalizing t with
  | nil =>
    obtain rfl : t = u := Except.ok.inj hrun
    exact h
  | cons c l ih =>
    rw [List.foldlM_cons] at hrun
    obtain ⟨v, hcall, hrun⟩ := bind_eq_ok_iff.mp hrun
    exact ih (h.call (hl c List.mem_cons_self t) hcall)
      (fun d hd => hl d (List.mem_cons_of_mem c hd)) hrun

/-- Make a page table and then calls on it. -/
def vmCalls (m : PagePool) (l : List VmCall) : Except Fault VmState := do
  let (pt, m) ← procPagetable 0 0 m
  let pt ← deref pt
  l.foldlM vmCall ⟨pt, m, 0⟩

theorem vmRun_of_vmCalls {l : List VmCall} (hl : ∀ c ∈ l, ∀ v, c.Fits v) (test : VmState → Bool)
    (h : (vmCalls m l).toOption.any test = true) :
    ∃ pt m₁ s, procPagetable 0 0 m = .ok (some pt, m₁) ∧ VmRun ⟨pt, m₁, 0⟩ s ∧ test s = true := by
  cases hrun : vmCalls m l with
  | error e =>
    rw [hrun] at h
    cases h
  | ok s =>
    rw [hrun] at h
    obtain ⟨⟨o, m₁⟩, hpt, hrun⟩ := bind_eq_ok_iff.mp hrun
    obtain ⟨pt, ho, hrun⟩ := bind_eq_ok_iff.mp hrun
    cases o with
    | none => cases ho
    | some pt' =>
      obtain rfl : pt' = pt := Except.ok.inj ho
      exact ⟨pt', m₁, s, hpt, VmRun.refl.foldlM hl hrun, h⟩

/-- Seven pages are enough for a page table, two user pages and their tables; after the size
has been reduced, the last call fails at its first page. -/
theorem no_page_leak_seven_pages :
    ∃ pt m₁ s, procPagetable 0 0 ⟨kernBase, ∅, (List.range 7).map (kernBase + · * pgSize)⟩
        = .ok (some pt, m₁)
      ∧ VmRun ⟨pt, m₁, 0⟩ s ∧ s.sz = 100
      ∧ ∃ m', procFreepagetable s.pt s.mem s.sz = .ok m' ∧ m'.outstanding = ∅ := by
  obtain ⟨pt, m₁, s, hpt, hrun, hsz⟩ := vmRun_of_vmCalls
    (m := ⟨kernBase, ∅, (List.range 7).map (kernBase + · * pgSize)⟩)
    (l := [.uvmalloc 5000 true false, .uvmdealloc 100, .uvmalloc 10000 true false])
    (by
      intro c hc v
      fin_cases hc <;> trivial)
    (fun s => s.sz = 100) (by decide +kernel)
  exact ⟨pt, m₁, s, hpt, hrun, by simpa using hsz, (no_page_leak hpt hrun).2⟩

end Xv6
