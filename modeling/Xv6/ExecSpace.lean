/-
# `sbrk` and `exec` keep the pages in order

Both calls replace the address space of the caller, or leave it as it was
(`Respaced`), and every page they have taken on the way is given back: the pages of a
new page table on each path to `bad`, those of the old one when `exec` succeeds, and
the pages into which `sys_exec` has copied the arguments.
-/
import Xv6.PageOwners

namespace Xv6

open Function

variable {img : Image} {s : Kernel} {B boot : Multiset ℕ} {m : PagePool} {pt : PageTable} {p : ℕ}

/-! ## Address spaces -/

/-- Only permissions have changed. -/
theorem AddressSpace.remap {pt' : PageTable} {n : ℕ} (h : AddressSpace m B pt n)
    (htables : pt'.tables = pt.tables)
    (hlook : ∀ b, b < vaSpan → (pt'.lookup b).map Pte.pa = (pt.lookup b).map Pte.pa) :
    AddressSpace m B pt' n := by
  have hsome : ∀ {b pte}, b < vaSpan → pt.lookup b = some pte →
      ∃ pte', pt'.lookup b = some pte' ∧ pte'.pa = pte.pa := by
    intro b pte hb hl
    have heq := hlook b hb
    rw [hl, Option.map_some] at heq
    exact Option.map_eq_some_iff.mp heq
  have huser : pt'.user n = pt.user n := by
    unfold PageTable.user PageTable.segment
    refine Finset.sum_congr rfl fun i hi => ?_
    rw [Nat.zero_add]
    have hva := lt_vaSpan (h.user.page_lt (Finset.mem_range.mp hi))
    obtain ⟨pte, hl, -⟩ := h.user.mapped i (Nat.zero_le i) (Finset.mem_range.mp hi)
    obtain ⟨pte', hl', hpa⟩ := hsome hva hl
    rw [hl, hl', Option.elim_some, Option.elim_some, hpa]
  constructor
  · constructor
    · exact h.user.bound
    · intro i hlo hi
      obtain ⟨pte, hl, hpage⟩ := h.user.mapped i hlo hi
      obtain ⟨pte', hl', hpa⟩ := hsome (lt_vaSpan (h.user.page_lt hi)) hl
      exact ⟨pte', hl', hpa ▸ hpage⟩
    · obtain ⟨pte, hl⟩ := h.user.trampoline
      obtain ⟨pte', hl', -⟩ := hsome (by decide) hl
      exact ⟨pte', hl'⟩
    · obtain ⟨pte, hl⟩ := h.user.trapframe
      obtain ⟨pte', hl', -⟩ := hsome (by decide) hl
      exact ⟨pte', hl'⟩
    · intro b hb hlo hne hne'
      have heq := hlook b hb
      rw [h.user.only b hb hlo hne hne', Option.map_none] at heq
      exact Option.map_eq_none_iff.mp heq
    · intro pa hpa
      rw [← PageTable.mem_tables, htables, PageTable.mem_tables] at hpa
      exact h.user.tables pa hpa
  · rw [htables, huser]
    exact h.holds

/-- **`uvmclear`** takes a page away from the user and changes nothing else. -/
theorem uvmclear_space {pt' : PageTable} {n va : ℕ} (h : AddressSpace m B pt n)
    (hrun : uvmclear pt va = .ok pt') : AddressSpace m B pt' n := by
  obtain ⟨o, hwalk, hrun⟩ := bind_eq_ok_iff.mp hrun
  unfold walk at hwalk
  split_ifs at hwalk with hva
  have hspan : va < vaSpan := lt_vaSpan (not_le.mp hva)
  cases hleaf : pt.leafTable va with
  | none =>
    rw [hleaf] at hwalk
    cases hwalk
    cases hrun
  | some leaf =>
    rw [hleaf] at hwalk
    cases hwalk
    have htab : pt.HasTable va := Option.isSome_iff_exists.mpr ⟨leaf, hleaf⟩
    have hself : pt.lookup va = leaf.pte (px 0 va) := by
      unfold PageTable.lookup
      rw [hleaf]
      rfl
    cases hrun
    refine h.remap (PageTable.tables_setPte _ _ _) fun b hb => ?_
    rw [PageTable.lookup_setPte pt hspan htab _ hb]
    split_ifs with hpage
    · rw [pt.lookup_congr hpage, hself, Option.map_map]
      rfl
    · rfl

/-! ## Changing the address space of a process -/

/-- The memory of `p` has been replaced, and every page is accounted for. -/
def Respaced (boot : Multiset ℕ) (s : Kernel) (p : ℕ) (t : Kernel) : Prop :=
  ∃ m pt sz, t = { s with mem := m }.updProc p (fun q => { q with pagetable := some pt, sz := sz })
    ∧ m.kend = s.mem.kend ∧ UserSpace m ∅ pt (pageCount sz) ∧ Accounts boot t

/-- The address space of a running process, and how to account for a new one. -/
theorem exists_space (h : KInv s) (ha : Accounts boot s) (hp : p < nproc)
    (hrun : (s.proc p).state = .running) :
    ∃ B pt tf, (s.proc p).pagetable = some pt ∧ (s.proc p).trapframe = some tf
      ∧ AddressSpace s.mem B pt (pageCount (s.proc p).sz)
      ∧ ∀ m pt' sz, m.kend = s.mem.kend → AddressSpace m B pt' (pageCount sz) →
        Respaced boot s p
          ({ s with mem := m }.updProc p fun q => { q with pagetable := some pt', sz := sz }) := by
  obtain ⟨pt, tf, hpt, htf, -, hspace⟩ := (h.slots p).space (live_of_running hrun).1
  obtain ⟨B, hB, hback⟩ := ha.slot hp
  refine ⟨B + {tf}, pt, tf, hpt, htf, ⟨hspace, hB.congr ?_⟩, fun m pt' sz hkend hnew => ?_⟩
  · rw [Proc.owned_space hpt htf]
    abel
  · refine ⟨m, pt', sz, rfl, hkend, hnew.user, hback _ (fun q hq => ?_) (hnew.holds.congr ?_)⟩
    · simp only [Kernel.updProc, update_of_ne hq]
    · simp only [Kernel.updProc, update_self, Proc.owned, htf, Option.elim_some]
      abel

/-- Only the pool has changed. -/
theorem Kernel.updProc_same (s : Kernel) (m : PagePool) (hpt : (s.proc p).pagetable = some pt) :
    { s with mem := m }.updProc p (fun q => { q with pagetable := some pt, sz := (s.proc p).sz })
      = { s with mem := m } := by
  unfold Kernel.updProc
  simp only [← hpt]
  rw [update_eq_self]

/-- **`growproc`** returns, and has changed at most the memory of the caller. -/
theorem growproc_spec (h : KInv s) (ha : Accounts boot s) (hp : p < nproc)
    (hrun : (s.proc p).state = .running) (n : ℤ) :
    ∃ r t, growproc s p n = .ok (r, t) ∧ Respaced boot s p t := by
  obtain ⟨B, pt, tf, hpt, -, hspace, hnew⟩ := exists_space h ha hp hrun
  unfold growproc
  simp only [hpt, deref_some, ok_bind]
  split_ifs with hpos hneg
  · obtain ⟨r, pt', m', hrun', hkend, hor⟩ :=
      uvmalloc_spec hspace (uint64 ((s.proc p).sz + n)) true false
    simp only [hrun', ok_bind]
    by_cases h0 : r = 0
    · -- the size stays, and so do the pages
      rw [if_pos h0]
      refine ⟨-1, _, rfl, ?_⟩
      have hspace' : AddressSpace m' B pt' (pageCount (s.proc p).sz) := by
        rcases hor with ⟨hr, hs⟩ | ⟨-, hs⟩
        · have hsz : (s.proc p).sz = r := by omega
          rwa [hsz]
        · exact hs
      exact hnew m' pt' (s.proc p).sz hkend hspace'
    · rw [if_neg h0]
      refine ⟨0, _, rfl, ?_⟩
      have hspace' : AddressSpace m' B pt' (pageCount r) := by
        rcases hor with ⟨-, hs⟩ | ⟨hr, -⟩
        · exact hs
        · exact absurd hr h0
      have hgoal := hnew m' pt' r hkend hspace'
      simpa only [Kernel.updProc, update_self, update_idem] using hgoal
  · obtain ⟨pt', m', hrun', hkend, hspace', -⟩ :=
      uvmdealloc_spec hspace (uint64 ((s.proc p).sz + n))
    simp only [hrun', ok_bind]
    exact ⟨0, _, rfl, hnew m' pt' _ hkend hspace'⟩
  · refine ⟨0, s, rfl, ?_⟩
    have hgoal := hnew s.mem pt (s.proc p).sz rfl hspace
    rwa [Kernel.updProc_same s s.mem hpt] at hgoal

/-! ## `exec` -/

/-- The page table that is being filled is an address space. -/
def Loading.Space (l : Loading) (k : ℕ) (B : Multiset ℕ) : Prop :=
  AddressSpace l.mem B l.pt (pageCount l.sz) ∧ l.mem.kend = k

theorem execLoad_space {k : ℕ} (n i : ℕ) {l l' : Loading} {ok : Bool} (h : l.Space k B)
    (hrun : execLoad img n i l = .ok (ok, l')) : l'.Space k B := by
  induction n generalizing i l with
  | zero =>
    cases hrun
    exact h
  | succ n ih =>
    unfold execLoad at hrun
    cases hph : img.ph i with
    | none =>
      simp only [hph] at hrun
      cases hrun
      exact h
    | some ph =>
      simp only [hph] at hrun
      split_ifs at hrun
      · exact ih (i + 1) h hrun
      · cases hrun
        exact h
      · cases hrun
        exact h
      · cases hrun
        exact h
      · -- a segment: its pages are added, then it is read
        obtain ⟨r, pt', m', hrun', hkend, hor⟩ := uvmalloc_spec h.1 (ph.vaddr + ph.memsz).toNat
          (flags2perm ph.flags).1 (flags2perm ph.flags).2
        rw [hrun'] at hrun
        simp only [ok_bind] at hrun
        split_ifs at hrun with h0
        · cases hrun
          refine ⟨?_, hkend.trans h.2⟩
          rcases hor with ⟨hr, hs⟩ | ⟨-, hs⟩
          · have hsz : l.sz = r := by omega
            rwa [hsz]
          · exact hs
        · have hspace : (⟨pt', m', r⟩ : Loading).Space k B := by
            refine ⟨?_, hkend.trans h.2⟩
            rcases hor with ⟨-, hs⟩ | ⟨hr, -⟩
            · exact hs
            · exact absurd hr h0
          obtain ⟨ok', -, hrun⟩ := bind_eq_ok_iff.mp hrun
          cases ok' with
          | true => exact ih (i + 1) hspace hrun
          | false =>
            cases hrun
            exact hspace

theorem execStack_space {k : ℕ} {l l' : Loading} {args : List ℕ} {r : Option ℕ} (h : l.Space k B)
    (hrun : execStack l args = .ok (r, l')) : l'.Space k B := by
  have hround : AddressSpace l.mem B l.pt (pageCount (pgRoundUp l.sz)) := by
    rw [pgRoundUp_eq, pageCount_mul]
    exact h.1
  obtain ⟨sz, pt', m', hrun', hkend, hor⟩ :=
    uvmalloc_spec hround (pgRoundUp l.sz + 2 * pgSize) true false
  unfold execStack at hrun
  simp only [hrun', ok_bind] at hrun
  split_ifs at hrun with h0
  · cases hrun
    refine ⟨?_, hkend.trans h.2⟩
    rcases hor with ⟨hr, hs⟩ | ⟨-, hs⟩
    · have hsz : pgRoundUp l.sz = sz := by omega
      rwa [hsz]
    · exact hs
  · obtain ⟨pt₂, hclear, hrun⟩ := bind_eq_ok_iff.mp hrun
    have hspace : (⟨pt₂, m', sz⟩ : Loading).Space k B := by
      refine ⟨uvmclear_space ?_ hclear, hkend.trans h.2⟩
      rcases hor with ⟨-, hs⟩ | ⟨hr, -⟩
      · exact hs
      · exact absurd hr h0
    -- pushing the arguments writes into the stack page and nothing else
    have hl' : l' = ⟨pt₂, m', sz⟩ := by
      split at hrun
      · exact (Prod.mk.inj (Except.ok.inj hrun)).2.symm
      · split_ifs at hrun
        · exact (Prod.mk.inj (Except.ok.inj hrun)).2.symm
        · exact (Prod.mk.inj (Except.ok.inj hrun)).2.symm
        · exact (Prod.mk.inj (Except.ok.inj hrun)).2.symm
    rw [hl']
    exact hspace

/-- **`exec`** changes at most the memory of the caller. -/
theorem exec_respaced {t : Kernel} (h : KInv s) (ha : Accounts boot s) (hp : p < nproc)
    (hstate : (s.proc p).state = .running) {args : List ℕ} {r : ℤ}
    (hrun : exec s p img args = .ok (r, t)) : Respaced boot s p t := by
  obtain ⟨B, pt, tf, hpt, -, hspace, hnew⟩ := exists_space h ha hp hstate
  -- a failing call keeps the memory of the process
  have hsame : ∀ m, m.kend = s.mem.kend →
      Holds m (B + pt.tables + pt.user (pageCount (s.proc p).sz)) →
      Respaced boot s p { s with mem := m } := by
    intro m hkend hm
    have hgoal := hnew m pt (s.proc p).sz hkend ⟨hspace.user.of_kend hkend, hm⟩
    rwa [Kernel.updProc_same s m hpt] at hgoal
  have hfail : Respaced boot s p s := hsame s.mem rfl hspace.holds
  unfold exec at hrun
  split_ifs at hrun with hfound
  · cases hrun
    exact hfail
  cases hheader : img.header with
  | none =>
    simp only [hheader] at hrun
    cases hrun
    exact hfail
  | some elf =>
    simp only [hheader] at hrun
    split_ifs at hrun with hmagic
    · cases hrun
      exact hfail
    rcases procPagetable_space hspace.holds s.trampoline ((s.proc p).trapframe.getD 0) with
      ⟨m₁, hrun₁, hkend₁, hm₁⟩ | ⟨pt₁, m₁, hrun₁, hkend₁, hspace₁⟩
    · rw [hrun₁] at hrun
      cases hrun
      exact hsame m₁ hkend₁ hm₁
    rw [hrun₁] at hrun
    simp only [ok_bind] at hrun
    unfold execImage at hrun
    obtain ⟨⟨ok, l₂⟩, hload, hrun⟩ := bind_eq_ok_iff.mp hrun
    have hl₁ : (⟨pt₁, m₁, 0⟩ : Loading).Space s.mem.kend
        (B + pt.tables + pt.user (pageCount (s.proc p).sz)) := by
      refine ⟨?_, hkend₁⟩
      rw [pageCount_zero]
      exact hspace₁
    have hl₂ := execLoad_space elf.phnum.toNat 0 hl₁ hload
    -- the label `bad`
    have hbad : ∀ l : Loading,
        l.Space s.mem.kend (B + pt.tables + pt.user (pageCount (s.proc p).sz)) →
        execBad s l = .ok (r, t) → Respaced boot s p t := by
      intro l hl hrun
      obtain ⟨m₄, hfree, hret⟩ := bind_eq_ok_iff.mp hrun
      cases hret
      obtain ⟨m', hfree', hkend', hm'⟩ := procFreepagetable_space hl.1
      rw [hfree] at hfree'
      cases hfree'
      exact hsame m₄ (hkend'.trans hl.2) hm'
    cases ok with
    | false => exact hbad l₂ hl₂ hrun
    | true =>
      obtain ⟨⟨argc, l₃⟩, hstack, hrun⟩ := bind_eq_ok_iff.mp hrun
      have hl₃ := execStack_space hl₂ hstack
      cases argc with
      | none => exact hbad l₃ hl₃ hrun
      | some argc =>
        -- the old page table is freed, and the new one takes its place
        obtain ⟨_, -, hrun⟩ := bind_eq_ok_iff.mp hrun
        rw [hpt, deref_some, ok_bind] at hrun
        obtain ⟨m₄, hfree, hret⟩ := bind_eq_ok_iff.mp hrun
        cases hret
        have hold : AddressSpace l₃.mem (B + l₃.pt.tables + l₃.pt.user (pageCount l₃.sz)) pt
            (pageCount (s.proc p).sz) :=
          ⟨hspace.user.of_kend hl₃.2, hl₃.1.holds.congr (by abel)⟩
        obtain ⟨m', hfree', hkend', hm'⟩ := procFreepagetable_space hold
        rw [hfree] at hfree'
        cases hfree'
        exact hnew m₄ l₃.pt l₃.sz (hkend'.trans hl₃.2)
          ⟨hl₃.1.user.of_kend hkend', hm'⟩

/-! ## `sys_exec` -/

/-- The pages of the arguments. -/
def argPages (argv : List (ℕ × ℕ)) : Multiset ℕ := (argv.map fun a => ({a.1} : Multiset ℕ)).sum

theorem fetchArgs_holds {args : ℕ → Fetched} (n i : ℕ) {m' : PagePool} {S : Multiset ℕ} {ok : Bool}
    {argv : List (ℕ × ℕ)} (h : Holds m S) (hrun : fetchArgs args n i m = (ok, argv, m')) :
    Holds m' (S + argPages argv) ∧ m'.kend = m.kend := by
  induction n generalizing i m S ok argv with
  | zero =>
    obtain ⟨-, rfl, rfl⟩ : false = ok ∧ [] = argv ∧ m = m' := by simpa [fetchArgs] using hrun
    exact ⟨by simpa [argPages] using h, rfl⟩
  | succ n ih =>
    unfold fetchArgs at hrun
    cases hi : args i with
    | badAddr =>
      obtain ⟨-, rfl, rfl⟩ : false = ok ∧ [] = argv ∧ m = m' := by simpa [hi] using hrun
      exact ⟨by simpa [argPages] using h, rfl⟩
    | null =>
      obtain ⟨-, rfl, rfl⟩ : true = ok ∧ [] = argv ∧ m = m' := by simpa [hi] using hrun
      exact ⟨by simpa [argPages] using h, rfl⟩
    | str len =>
      simp only [hi] at hrun
      rcases kalloc_moves m with ⟨m₁, hk, hmoves⟩ | ⟨page, m₁, hk, -, -, hmoves⟩
      · obtain ⟨-, rfl, rfl⟩ : false = ok ∧ [] = argv ∧ m₁ = m' := by simpa [hk] using hrun
        exact ⟨h.of_outstanding hmoves.outstanding |>.congr (add_zero S).symm, hmoves.kend⟩
      · simp only [hk] at hrun
        have h₁ := kalloc_holds h hk
        have hkend := hmoves.kend
        cases len with
        | none =>
          obtain ⟨-, rfl, rfl⟩ : false = ok ∧ [(page, 0)] = argv ∧ m₁ = m' := by simpa using hrun
          exact ⟨by simpa [argPages] using h₁, hkend⟩
        | some len =>
          simp only at hrun
          cases hrest : fetchArgs args n (i + 1) m₁ with
          | mk ok' rest =>
            obtain ⟨argv', m₂⟩ := rest
            rw [hrest] at hrun
            obtain ⟨-, rfl, rfl⟩ : ok' = ok ∧ (page, len) :: argv' = argv ∧ m₂ = m' := by
              simpa using hrun
            obtain ⟨h₂, hkend₂⟩ := ih (i + 1) h₁ hrest
            refine ⟨h₂.congr ?_, hkend₂.trans hkend⟩
            simp only [argPages, List.map_cons, List.sum_cons]
            abel

theorem kfree_argPages {m' : PagePool} {argv : List (ℕ × ℕ)} (h : Holds m (B + argPages argv))
    (hrun : argv.foldlM (fun m a => kfree m a.1) m = .ok m') : Holds m' B ∧ m'.kend = m.kend := by
  constructor
  · exact Ledger.foldlM_settle (a := fun m : PagePool => m.outstanding.val)
      (g := fun a : ℕ × ℕ => {a.1}) (fun a m m' B h hrun => kfree_holds h hrun) h hrun
  · exact foldlM_ok_induction (fun m₁ a m₂ hfree h₁ => (kfree_kend hfree).trans h₁) hrun rfl

/-- Only the pool differs, and its pages are the same kind of addresses. -/
theorem KInv.setMem (h : KInv s) (hkend : m.kend = s.mem.kend) :
    KInv { s with mem := m } where
  slots := fun q => (h.slots q).of_kend hkend
  files := h.files.congr (fun _ => rfl) (fun _ => rfl)
  ns := h.ns
  noded := h.noded

/-- **`sys_exec`** gives back the pages of the arguments and changes at most the memory of the
caller. -/
theorem sysExec_respaced {t : Kernel} (h : KInv s) (ha : Accounts boot s) (hp : p < nproc)
    (hstate : (s.proc p).state = .running) {path : Bool} {args : ℕ → Fetched} {r : ℤ}
    (hrun : sysExec s p path args img = .ok (r, t)) : Respaced boot s p t := by
  obtain ⟨B, pt, tf, hpt, htf, hspace, hnew⟩ := exists_space h ha hp hstate
  unfold sysExec at hrun
  split_ifs at hrun with hpath
  · cases hrun
    have hgoal := hnew s.mem pt (s.proc p).sz rfl hspace
    rwa [Kernel.updProc_same s s.mem hpt] at hgoal
  cases hfetch : fetchArgs args maxArg 0 s.mem with
  | mk ok rest =>
    obtain ⟨argv, m₁⟩ := rest
    rw [hfetch] at hrun
    obtain ⟨h₁, hkend₁⟩ := fetchArgs_holds maxArg 0 ha hfetch
    -- while `exec` runs, the arguments are pages of the kernel
    have ha₁ : Accounts (boot + argPages argv) { s with mem := m₁ } := h₁.congr (by abel)
    -- the loops at the end of the call
    have hend : ∀ {u : Kernel} {ret : ℤ},
        Respaced (boot + argPages argv) { s with mem := m₁ } p u →
        freeArgs u argv ret = .ok (r, t) → Respaced boot s p t := by
      rintro u ret ⟨m₂, pt', sz, rfl, hkend₂, hspace₂, ha₂⟩ hrun
      obtain ⟨m₃, hfree, hret⟩ := bind_eq_ok_iff.mp hrun
      cases hret
      have ha₂' : Holds m₂ (boot + argPages argv + _) := ha₂
      obtain ⟨h₃, hkend₃⟩ := kfree_argPages (ha₂'.congr (add_right_comm _ _ _)) hfree
      exact ⟨m₃, pt', sz, rfl, (hkend₃.trans hkend₂).trans hkend₁,
        hspace₂.of_kend hkend₃, h₃⟩
    cases ok with
    | true =>
      obtain ⟨⟨ret, u⟩, hexec, hrun⟩ := bind_eq_ok_iff.mp hrun
      exact hend (exec_respaced (h.setMem hkend₁) ha₁ hp hstate hexec) hrun
    | false =>
      refine hend ?_ hrun
      have hspace₁ : UserSpace m₁ ∅ pt (pageCount (s.proc p).sz) :=
        hspace.user.of_kend hkend₁
      exact ⟨m₁, pt, (s.proc p).sz, (Kernel.updProc_same { s with mem := m₁ } m₁ hpt).symm, rfl,
        hspace₁, ha₁⟩

end Xv6
