/-
# Address spaces are isolated

In every run every page is accounted for (`SysReach.accounts`), and an account has no
duplicates.  So a user page is mapped once, by one process, and is neither a table nor
a trapframe nor a page of the kernel; and what a process maps below the trapframe are
exactly the pages below its size.
-/
import Xv6.ExecSpace

namespace Xv6

open Function

variable {s t : Kernel} {boot : Multiset ℕ} {pt : PageTable} {pte : Pte} {q va : ℕ}

/-! ## The invariant -/

/-- **A new address space** keeps the invariant of the tables. -/
theorem Respaced.inv (h : KInv s) {p : ℕ} (hp : (s.proc p).Live) (hr : Respaced boot s p t) :
    KInv t := by
  obtain ⟨m, pt, sz, rfl, hkend, hspace, -⟩ := hr
  set t := ({ s with mem := m } : Kernel).updProc p fun q => { q with pagetable := some pt, sz := sz }
  have htp : t.proc p = { s.proc p with pagetable := some pt, sz := sz } := update_self _ _ _
  have hother : ∀ q, q ≠ p → t.proc q = s.proc q := fun q hq => update_of_ne hq _ _
  have hlive : ∀ q, liveNode t q = liveNode s q := by
    intro q
    by_cases hq : q = p
    · subst hq
      rw [liveNode_of_live hp, liveNode_of_live (by rw [htp]; exact hp), htp]
    · unfold liveNode
      rw [hother q hq]
  constructor
  · intro q
    show SlotOk m (t.proc q)
    by_cases hq : q = p
    · subst hq
      obtain ⟨-, tf, -, htf, hpage, -⟩ := (h.slots q).space hp.1
      rw [htp]
      exact ⟨fun hu => absurd hu hp.1,
        fun _ => ⟨pt, tf, rfl, htf, isPage_of_kend hpage hkend, hspace⟩, fun hn => absurd hp hn,
        fun _ => (h.slots q).dir hp⟩
    · rw [hother q hq]
      exact (h.slots q).of_kend hkend
  · refine h.files.congr (fun q => ?_) (fun _ => rfl)
    by_cases hq : q = p
    · subst hq
      rw [htp]
    · rw [hother q hq]
  · rw [funext hlive]
    exact h.ns
  · intro q hq
    by_cases hqp : q = p
    · subst hqp
      rw [htp]
      exact h.noded q hp
    · rw [hother q hqp] at hq ⊢
      exact h.noded q hq

/-- The slot that `kill` with a pid other than `0` marks is in use. -/
theorem killTarget_used (h : KInv s) {pid : ℤ} (hpid : pid ≠ 0) (hq : killTarget s pid = some q) :
    (s.proc q).state ≠ .unused := by
  intro hunused
  have hmatch : (s.proc q).pid = pid := by simpa using List.find?_some hq
  rw [← (h.slots q).clear hunused] at hmatch
  exact hpid hmatch.symm

theorem kill_inv (h : KInv s) {pid : ℤ} (hpid : pid ≠ 0) : KInv (kill s pid).2 := by
  unfold kill
  cases hq : killTarget s pid with
  | none => exact h
  | some i =>
    have hused := killTarget_used h hpid hq
    set t := s.updProc i fun x =>
      { x with killed := true, state := if x.state = .sleeping then .runnable else x.state }
    have hti : t.proc i = { s.proc i with
        killed := true,
        state := if (s.proc i).state = .sleeping then .runnable else (s.proc i).state } :=
      update_self _ _ _
    have hother : ∀ q, q ≠ i → t.proc q = s.proc q := fun q hq => update_of_ne hq _ _
    have hlive : ∀ q, (t.proc q).Live ↔ (s.proc q).Live := by
      intro q
      by_cases hqi : q = i
      · subst hqi
        rw [hti]
        unfold Proc.Live
        simp only
        split_ifs with hs
        · rw [hs]
          simp
        · exact Iff.rfl
      · rw [hother q hqi]
    have hnode : ∀ q, liveNode t q = liveNode s q := by
      intro q
      unfold liveNode
      rw [if_congr (hlive q) rfl rfl]
      by_cases hqi : q = i
      · rw [hqi, hti]
      · rw [hother q hqi]
    constructor
    · intro q
      show SlotOk s.mem (t.proc q)
      by_cases hqi : q = i
      · subst hqi
        constructor
        · intro hu
          rw [hti] at hu
          simp only at hu
          split_ifs at hu
          exact absurd hu hused
        · rw [hti]
          exact fun _ => (h.slots q).space hused
        · rw [hlive q, hti]
          exact (h.slots q).closed
        · rw [hlive q, hti]
          exact (h.slots q).dir
      · rw [hother q hqi]
        exact h.slots q
    · refine h.files.congr (fun q => ?_) (fun _ => rfl)
      by_cases hqi : q = i
      · rw [hqi, hti]
      · rw [hother q hqi]
    · rw [funext hnode]
      exact h.ns
    · intro q hq
      have hq' := h.noded q ((hlive q).mp hq)
      by_cases hqi : q = i
      · subst hqi
        rw [hti]
        exact hq'
      · rw [hother q hqi]
        exact hq'

/-- **The step lemma.** -/
theorem sysStep_inv (h : KInv s) (ha : Accounts boot s) {e : SysEvent} (he : SysEnabled s e)
    (hrun : sysStep s e = .ok t) : KInv t ∧ Accounts boot t := by
  cases e with
  | proc e =>
    obtain ⟨⟨r, u⟩, hstep, hret⟩ := bind_eq_ok_iff.mp hrun
    cases hret
    exact ⟨(stepped_of_ok h he hstep).inv h he, step_owned h he ha hstep⟩
  | sbrk p n supply =>
    obtain ⟨⟨r, u⟩, hgrow, hret⟩ := bind_eq_ok_iff.mp hrun
    cases hret
    obtain ⟨r', u', hgrow', hspaced⟩ :=
      growproc_spec (h.refill supply) (ha.refill supply) he.1 he.2 n
    rw [hgrow] at hgrow'
    cases hgrow'
    have hinv := hspaced.inv (h.refill supply) (live_of_running he.2)
    obtain ⟨_, _, _, _, _, _, hacc⟩ := hspaced
    exact ⟨hinv, hacc⟩
  | exec p path args img supply =>
    obtain ⟨⟨r, u⟩, hexec, hret⟩ := bind_eq_ok_iff.mp hrun
    cases hret
    have hspaced := sysExec_respaced (h.refill supply) (ha.refill supply) he.1 he.2 hexec
    have hinv := hspaced.inv (h.refill supply) (live_of_running he.2)
    obtain ⟨_, _, _, _, _, _, hacc⟩ := hspaced
    exact ⟨hinv, hacc⟩
  | kill p pid =>
    cases hrun
    refine ⟨kill_inv h he.2, ?_⟩
    unfold kill
    cases killTarget s pid with
    | none => exact ha
    | some q => exact ha.kept (PagesKept.updProc s q rfl)

/-- **The account at the start.** -/
theorem StartedFrom.accounts {boot : Finset ℕ} (h : StartedFrom boot s) : Accounts boot.val s := by
  obtain ⟨tf, pt, hproc, -, -, hinitproc, -⟩ := started_spec h.started
  obtain ⟨⟨kend, trampoline, supply, hinit⟩, p, pt', pte, hp, hpt, hlook⟩ := h
  obtain rfl : p = 0 := (Option.some.inj (hinitproc.symm.trans hp)).symm
  rw [hproc, update_self] at hpt
  obtain rfl : pt = pt' := Option.some.inj hpt
  set b := bootState kend trampoline boot supply
  -- the first slot is taken, then its page table gets its page
  obtain ⟨⟨slot, s₁⟩, halloc, hinit⟩ := bind_eq_ok_iff.mp hinit
  have hfound : allocprocFound b 0 = .ok (slot, s₁) := halloc
  rcases allocprocFound_spec (s := b) (i := 0) rfl with
    ⟨m, hfound', -⟩ | ⟨m, tf₁, pt₁, hfound', -, -, hspace⟩
  · rw [hfound] at hfound'
    cases hfound'
    cases hinit
  rw [hfound] at hfound'
  cases hfound'
  simp only [deref_some, ok_bind, update_self] at hinit
  obtain ⟨pt₂, hpt₂, hinit⟩ := bind_eq_ok_iff.mp hinit
  obtain rfl : pt₁ = pt₂ := Except.ok.inj hpt₂
  obtain ⟨⟨pt₃, m₃⟩, hfirst, hinit⟩ := bind_eq_ok_iff.mp hinit
  obtain ⟨n, -, hinit⟩ := bind_eq_ok_iff.mp hinit
  have hs := (Except.ok.inj hinit).symm
  have hmem : s.mem = m₃ := by
    rw [hs]
    rfl
  have hfirstproc : (s.proc 0).pagetable = some pt₃ ∧ (s.proc 0).trapframe = some tf₁ := by
    rw [hs]
    exact ⟨rfl, rfl⟩
  rw [hproc, update_self] at hfirstproc
  obtain rfl : pt = pt₃ := Option.some.inj hfirstproc.1
  have hspace₃ : AddressSpace m₃ (boot.val + {tf₁}) pt 1 := by
    rcases uvmfirst_spec (hspace boot.val rfl) with hfault | ⟨pt', m', hfirst', -, hmapped⟩
    · rw [hfirst] at hfault
      cases hfault
    · rw [hfirst] at hfirst'
      cases hfirst'
      exact hmapped pte hlook
  unfold Accounts
  rw [hmem]
  refine hspace₃.holds.congr ?_
  rw [Finset.sum_eq_single_of_mem 0 (Finset.mem_range.mpr (by decide)) fun q _ hq => by
    rw [hproc, update_of_ne hq]
    rfl]
  rw [hproc, update_self, Proc.owned_space rfl hfirstproc.2]
  show _ = _ + ({tf₁} + pt.tables + pt.user (pageCount pgSize))
  rw [show pageCount pgSize = 1 by decide]
  abel

/-- **The run lemma.** -/
theorem SysReach.inv {boot : Finset ℕ} (h : SysReach boot s) : KInv s ∧ Accounts boot.val s := by
  induction h with
  | start hs => exact ⟨hs.started.inv, hs.accounts⟩
  | step _ he hstep ih => exact sysStep_inv ih.1 ih.2 he hstep

/-! ## Isolation -/

/-- An entry of a process below the trapframe. -/
structure Mapped (s : Kernel) (q : ℕ) (pt : PageTable) (va : ℕ) (pte : Pte) : Prop where
  lt : q < nproc
  table : (s.proc q).pagetable = some pt
  below : va < trapframeVa
  entry : pt.lookup va = some pte

/-- A process with a page table maps exactly the pages below its size. -/
theorem KInv.maps_iff (h : KInv s) (hpt : (s.proc q).pagetable = some pt) (hva : va < trapframeVa) :
    (∃ pte, pt.lookup va = some pte) ↔ va < pgRoundUp (s.proc q).sz := by
  have hused : (s.proc q).state ≠ .unused := by
    intro hu
    rw [← (h.slots q).clear hu] at hpt
    cases hpt
  obtain ⟨pt', tf, hpt', -, -, hspace⟩ := (h.slots q).space hused
  rw [hpt] at hpt'
  cases hpt'
  have hpage : va / pgSize * pgSize / pgSize = va / pgSize := mul_pgSize_div _
  have hlt : va < pgRoundUp (s.proc q).sz ↔ va / pgSize < pageCount (s.proc q).sz := by
    rw [pgRoundUp_eq, Nat.div_lt_iff_lt_mul (by decide)]
  rw [hlt, ← pt.lookup_congr hpage]
  constructor
  · rintro ⟨pte, hl⟩
    by_contra hge
    have hva' : va / pgSize * pgSize ≤ va := Nat.div_mul_le_self va pgSize
    have hspan : va / pgSize * pgSize < vaSpan :=
      lt_vaSpan ((hva'.trans_lt hva).trans_le trapframeVa_le)
    obtain ⟨hne, hne'⟩ := page_ne_top (n := trapframeVa / pgSize) (i := va / pgSize)
      (Nat.div_mul_le_self _ _) (Nat.div_lt_div_of_lt_of_dvd (by decide) hva)
    rw [hspace.only _ hspan (by rw [hpage]; omega) (by rwa [hpage]) (by rwa [hpage])] at hl
    cases hl
  · intro hin
    obtain ⟨pte, hl, -⟩ := hspace.mapped _ (Nat.zero_le _) hin
    exact ⟨pte, hl⟩

/-- A mapped page is one of the user pages of its process. -/
theorem Mapped.mem_user (h : KInv s) (hm : Mapped s q pt va pte) :
    va / pgSize < pageCount (s.proc q).sz ∧ pt.lookup (va / pgSize * pgSize) = some pte := by
  have hlt := (h.maps_iff hm.table hm.below).mp ⟨pte, hm.entry⟩
  rw [pgRoundUp_eq] at hlt
  refine ⟨(Nat.div_lt_iff_lt_mul (by decide)).mpr hlt, ?_⟩
  rw [← hm.entry]
  exact pt.lookup_congr (mul_pgSize_div _)

theorem Mapped.mem_owned (h : KInv s) (hm : Mapped s q pt va pte) :
    pte.pa ∈ pt.user (pageCount (s.proc q).sz)
      ∧ pte.pa ∈ (s.proc q).owned := by
  obtain ⟨hlt, hl⟩ := hm.mem_user h
  have huser := PageTable.mem_user hlt hl
  refine ⟨huser, ?_⟩
  unfold Proc.owned
  rw [hm.table, Option.elim_some]
  exact Multiset.mem_add.mpr (Or.inl (Multiset.mem_add.mpr (Or.inr huser)))

theorem Mapped.eq_of_pa (hinv : KInv s) (hacc : Accounts boot s) {q' va' : ℕ} {pt' : PageTable}
    {pte' : Pte} (hm : Mapped s q pt va pte) (hm' : Mapped s q' pt' va' pte')
    (hpa : pte.pa = pte'.pa) : q = q' ∧ va / pgSize = va' / pgSize := by
  have hslots : (∑ q ∈ Finset.range nproc, (s.proc q).owned).Nodup := Ledger.nodup_right hacc.nodup
  obtain rfl : q = q' :=
    Ledger.eq_of_mem hslots (Finset.mem_range.mpr hm.lt) (Finset.mem_range.mpr hm'.lt)
      (hm.mem_owned hinv).2 (by rw [hpa]; exact (hm'.mem_owned hinv).2)
  obtain rfl : pt = pt' := Option.some.inj (hm.table.symm.trans hm'.table)
  obtain ⟨hlt, hl⟩ := hm.mem_user hinv
  obtain ⟨hlt', hl'⟩ := hm'.mem_user hinv
  have hown := Ledger.nodup_of_mem hslots (Finset.mem_range.mpr hm.lt)
  unfold Proc.owned at hown
  rw [hm.table, Option.elim_some] at hown
  exact ⟨rfl, PageTable.user_inj (Ledger.nodup_right (Ledger.nodup_left hown)) hlt hlt' hl hl' hpa⟩

theorem Mapped.isPage (hinv : KInv s) (hm : Mapped s q pt va pte) : s.mem.IsPage pte.pa := by
  have hused : (s.proc q).state ≠ .unused := by
    intro hu
    have htable := hm.table
    rw [← (hinv.slots q).clear hu] at htable
    cases htable
  obtain ⟨pt', tf, hpt', -, -, hspace⟩ := (hinv.slots q).space hused
  obtain rfl : pt = pt' := Option.some.inj (hm.table.symm.trans hpt')
  obtain ⟨hlt, hl⟩ := hm.mem_user hinv
  obtain ⟨pte', hl', hpage, -⟩ := hspace.mapped _ (Nat.zero_le _) hlt
  obtain rfl : pte = pte' := Option.some.inj (hl.symm.trans hl')
  exact hpage

/-- **Address-space isolation.**  In every reachable state a page is mapped below the trapframe
by at most one entry of one process; it is then no table, no trapframe and no page that the
kernel had allocated before, and lies in the memory that the allocator manages; and every
process with a page table maps exactly the pages below its size there. -/
theorem address_space_isolation {boot : Finset ℕ} {s : Kernel} (h : SysReach boot s) :
    (∀ q q' pt pt' va va' pte pte', Mapped s q pt va pte → Mapped s q' pt' va' pte' →
        pte.pa = pte'.pa → q = q' ∧ va / pgSize = va' / pgSize)
      ∧ (∀ q pt va pte, Mapped s q pt va pte →
        (∀ q' pt', q' < nproc → (s.proc q').pagetable = some pt' → pte.pa ∉ pt'.tablePages)
          ∧ (∀ q', q' < nproc → (s.proc q').trapframe ≠ some pte.pa)
          ∧ pte.pa ∉ boot ∧ s.mem.IsPage pte.pa)
      ∧ ∀ q pt, q < nproc → (s.proc q).pagetable = some pt → ∀ va, va < trapframeVa →
        ((∃ pte, pt.lookup va = some pte) ↔ va < pgRoundUp (s.proc q).sz) := by
  obtain ⟨hinv, hacc⟩ := h.inv
  have hnodup := hacc.nodup
  have hslots : (∑ q ∈ Finset.range nproc, (s.proc q).owned).Nodup := Ledger.nodup_right hnodup
  -- two processes own no page in common
  have hone : ∀ {q q' pa}, q < nproc → q' < nproc → pa ∈ (s.proc q).owned →
      pa ∈ (s.proc q').owned → q = q' := fun hq hq' hpa hpa' =>
    Ledger.eq_of_mem hslots (Finset.mem_range.mpr hq) (Finset.mem_range.mpr hq') hpa hpa'
  have hnodup' : ∀ {q}, q < nproc → (s.proc q).owned.Nodup := fun hq =>
    Ledger.nodup_of_mem hslots (Finset.mem_range.mpr hq)
  refine ⟨?_, ?_, fun q pt _ hpt va hva => hinv.maps_iff hpt hva⟩
  · intro q q' pt pt' va va' pte pte' hm hm' hpa
    exact hm.eq_of_pa hinv hacc hm' hpa
  · intro q pt va pte hm
    obtain ⟨huser, howned⟩ := hm.mem_owned hinv
    have hown := hnodup' hm.lt
    unfold Proc.owned at hown
    rw [hm.table, Option.elim_some] at hown
    refine ⟨fun q' pt' hq' hpt' htab => ?_, fun q' hq' htf => ?_, fun hboot => ?_, ?_⟩
    · rw [← PageTable.mem_tables] at htab
      have howned' : pte.pa ∈ (s.proc q').owned := by
        unfold Proc.owned
        rw [hpt', Option.elim_some]
        exact Multiset.mem_add.mpr (Or.inl (Multiset.mem_add.mpr (Or.inl htab)))
      obtain rfl := hone hm.lt hq' howned howned'
      obtain rfl : pt = pt' := Option.some.inj (hm.table.symm.trans hpt')
      exact Ledger.not_mem_both (Ledger.nodup_left hown) htab huser
    · have howned' : pte.pa ∈ (s.proc q').owned := by
        unfold Proc.owned
        rw [htf, Option.elim_some]
        exact Multiset.mem_add.mpr (Or.inr (Multiset.mem_singleton_self _))
      obtain rfl := hone hm.lt hq' howned howned'
      refine Ledger.not_mem_both hown (Multiset.mem_add.mpr (Or.inr huser)) ?_
      rw [htf, Option.elim_some]
      exact Multiset.mem_singleton_self _
    · exact Ledger.not_mem_both hnodup hboot
        (Ledger.mem_sum_of_mem (Finset.mem_range.mpr hm.lt) howned)
    · exact hm.isPage hinv

/-- Run events one after the other, as long as each is enabled and returns. -/
def runSysEvents : List SysEvent → Kernel → Option Kernel
  | [], s => some s
  | e :: l, s =>
    if SysEnabled s e then
      match sysStep s e with
      | .ok t => runSysEvents l t
      | .error _ => none
    else none

theorem SysReach.of_runSysEvents {boot : Finset ℕ} {l : List SysEvent} (h : SysReach boot s)
    (hrun : runSysEvents l s = some t) : SysReach boot t := by
  induction l generalizing s with
  | nil =>
    cases hrun
    exact h
  | cons e l ih =>
    rw [runSysEvents] at hrun
    split_ifs at hrun with he
    split at hrun
    · next u hstep => exact ih (h.step he hstep) hrun
    · cases hrun

theorem bootRun_startedFrom {x : ℕ × Kernel} (h : bootRun = some x) : StartedFrom ∅ x.2 := by
  obtain ⟨-, -, hmapped⟩ := bootRun_started h
  refine ⟨?_, hmapped⟩
  unfold bootRun at h
  split at h
  · next s hinit =>
    cases h
    exact ⟨kernBase, 0, tenPages 0, hinit⟩
  · cases h

theorem sysReach_of_run (l : List SysEvent) (check : Kernel → Bool)
    (h : (bootRun.bind fun x => runSysEvents l x.2).any check = true) :
    ∃ s, SysReach ∅ s ∧ check s = true := by
  obtain ⟨t, ht, hcheck⟩ := (Option.any_eq_true _ _).mp h
  obtain ⟨x, hx, hrun⟩ := Option.bind_eq_some_iff.mp ht
  exact ⟨t, SysReach.of_runSysEvents (SysReach.start (bootRun_startedFrom hx)) hrun, hcheck⟩

/-- A program of one segment of two pages. -/
def twoPageImage : Image where
  found := true
  header := some ⟨elfMagic, 1⟩
  ph := fun _ => some ⟨elfProgLoad, 7, 0, 100, 5000⟩
  reads := fun _ _ => true

/-- The first page of a process. -/
def firstPte (s : Kernel) (q : ℕ) : Option Pte :=
  (s.proc q).pagetable.bind fun pt => pt.lookup 0

theorem mapped_of_firstPte (hq : q < nproc) (h : (firstPte s q).isSome = true) :
    ∃ pt pte, Mapped s q pt 0 pte := by
  obtain ⟨pte, hpte⟩ := Option.isSome_iff_exists.mp h
  obtain ⟨pt, hpt, hlook⟩ := Option.bind_eq_some_iff.mp hpte
  exact ⟨pt, pte, hq, hpt, by decide, hlook⟩

/-- After `sbrk`, `fork` and `exec`, parent and child have different first pages. -/
theorem address_space_isolation_exec :
    ∃ s pt pt' pte pte', SysReach ∅ s ∧ Mapped s 0 pt 0 pte ∧ Mapped s 1 pt' 0 pte'
      ∧ (s.proc 0).sz = 4 * pgSize ∧ pte.pa ≠ pte'.pa := by
  obtain ⟨s, hreach, hcheck⟩ := sysReach_of_run
    [.proc (.dispatch 0), .sbrk 0 5000 (tenPages 1), .proc (.fork 0 (tenPages 2)),
      .exec 0 true (fun _ => .null) twoPageImage (tenPages 3)]
    (fun s => (firstPte s 0).isSome && (firstPte s 1).isSome && (s.proc 0).sz == 4 * pgSize)
    (by decide +kernel)
  simp only [Bool.and_eq_true, beq_iff_eq] at hcheck
  obtain ⟨pt, pte, hm⟩ := mapped_of_firstPte (by decide) hcheck.1.1
  obtain ⟨pt', pte', hm'⟩ := mapped_of_firstPte (by decide) hcheck.1.2
  refine ⟨s, pt, pt', pte, pte', hreach, hm, hm', hcheck.2, fun hpa => ?_⟩
  have heq := ((address_space_isolation hreach).1 0 1 pt pt' 0 0 pte pte' hm hm' hpa).1
  exact absurd heq (by decide)

end Xv6
