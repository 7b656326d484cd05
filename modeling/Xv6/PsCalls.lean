/-
# When looking at a process is safe

`find_proc` does not look at the state of a slot, and the calls built on it take the
caller's own lock and follow what they find.  `PsCall.Fits` says when a call goes well:
the pid is not one that an unused slot has kept, and then, call by call, the process
exists, is not the caller, and has what is asked for.  `ps_calls_safe` proves that such a
call returns, with no lock held, and with `-1` where no process has the pid;
`ps_calls_fault` shows that each part of the condition is needed.
-/
import Xv6.Isolation
import Xv6.Parenthood
import Xv6.PsModel

namespace Xv6

variable {t : Kernel} {boot : Multiset ℕ} {mypt : PageTable} {i : ℕ}

/-! ## Heirs and parents in runs with `exec`, `sbrk` and `kill` -/

theorem Respaced.noBirth {s : Kernel} {p : ℕ} (hp : (s.proc p).Live) (h : Respaced boot s p t) :
    NoBirth s t := by
  obtain ⟨m, pt, sz, rfl, -⟩ := h
  exact NoBirth.updProc m rfl rfl fun _ => ⟨hp.1, rfl⟩

theorem Respaced.kinInv {s : Kernel} {p : ℕ} (hkin : KinInv s) (h : Respaced boot s p t) :
    KinInv t := by
  obtain ⟨m, pt, sz, rfl, -⟩ := h
  exact hkin.of_updProc m p Iff.rfl (fun hz => hz) rfl fun _ => rfl

theorem kill_noBirth {s : Kernel} (h : KInv s) {pid : ℤ} (hpid : pid ≠ 0) :
    NoBirth s (kill s pid).2 := by
  unfold kill
  cases hq : killTarget s pid with
  | none => exact NoBirth.refl s
  | some q =>
    dsimp only
    refine NoBirth.updProc s.mem ?_ ?_ fun _ => ⟨killTarget_used h hpid hq, ?_⟩
    all_goals rfl

theorem kill_kinInv {s : Kernel} (hkin : KinInv s) (pid : ℤ) : KinInv (kill s pid).2 := by
  unfold kill
  cases killTarget s pid with
  | none => exact hkin
  | some q =>
    dsimp only
    refine hkin.of_updProc s.mem q ?_ ?_ ?_ fun _ => ?_
    · unfold Proc.Live
      simp only
      split_ifs with hs
      · rw [hs]
        simp
      · exact Iff.rfl
    · simp only
      split_ifs
      · intro hz
        cases hz
      · exact fun hz => hz
    · rfl
    · rfl

/-- **The step lemma for heirs and parents.** -/
theorem sysStep_kin {s : Kernel} (hinv : KInv s) (ha : Accounts boot s) (hheir : HeirInv s)
    (hkin : KinInv s) {e : SysEvent} (he : SysEnabled s e) (hrun : sysStep s e = .ok t) :
    HeirInv t ∧ KinInv t := by
  -- `exec` and `sbrk` start from the state with the answers of the allocator
  have hrefill : ∀ supply p, (s.proc p).Live → Respaced boot (s.refill supply) p t →
      HeirInv t ∧ KinInv t := by
    intro supply p hp hspaced
    have hheir' : HeirInv (s.refill supply) := ⟨hheir.inner, hheir.chain, hheir.placed⟩
    have hkin' : KinInv (s.refill supply) := ⟨hkin.parent, hkin.zombie, hkin.init, hkin.first⟩
    exact ⟨hheir'.of_noBirth (hspaced.noBirth hp), hspaced.kinInv hkin'⟩
  cases e with
  | proc e =>
    obtain ⟨⟨r, u⟩, hstep, hret⟩ := bind_eq_ok_iff.mp hrun
    cases hret
    exact ⟨(stepped_of_ok hinv he hstep).heirInv hinv hheir he, hkin.step hinv hheir he hstep⟩
  | sbrk p n supply =>
    obtain ⟨⟨r, u⟩, hgrow, hret⟩ := bind_eq_ok_iff.mp hrun
    cases hret
    obtain ⟨r', u', hgrow', hspaced⟩ :=
      growproc_spec (hinv.refill supply) (ha.refill supply) he.1 he.2 n
    rw [hgrow] at hgrow'
    cases hgrow'
    exact hrefill supply p (live_of_running he.2) hspaced
  | exec p path args img supply =>
    obtain ⟨⟨r, u⟩, hexec, hret⟩ := bind_eq_ok_iff.mp hrun
    cases hret
    exact hrefill supply p (live_of_running he.2)
      (sysExec_respaced (hinv.refill supply) (ha.refill supply) he.1 he.2 hexec)
  | kill p pid =>
    cases hrun
    exact ⟨hheir.of_noBirth (kill_noBirth hinv he.2), kill_kinInv hkin pid⟩

theorem SysReach.kin {boot : Finset ℕ} {s : Kernel} (h : SysReach boot s) : HeirInv s ∧ KinInv s := by
  induction h with
  | start hs => exact ⟨hs.started.heirInv, hs.started.kinInv⟩
  | step hreach he hstep ih => exact sysStep_kin hreach.inv.1 hreach.inv.2 ih.1 ih.2 he hstep

/-! ## `find_proc` -/

/-- The process `q` is not unused and has the pid `pid` in the namespace `n`. -/
def Visible (s : Kernel) (n : ℕ) (pid : ℤ) (q : ℕ) : Prop :=
  q < nproc ∧ (s.proc q).state ≠ .unused ∧ (s.proc q).namespacePids (s.nodes n).depth = pid
    ∧ isHeir s.nodes (s.proc q).node (some n) = .ok true

instance (s : Kernel) (n : ℕ) (pid : ℤ) (q : ℕ) : Decidable (Visible s n pid q) :=
  inferInstanceAs (Decidable (_ ∧ _))

/-- No unused slot has kept the pid `pid` at the depth of the namespace `n`. -/
def NotStale (s : Kernel) (n : ℕ) (pid : ℤ) : Prop :=
  ∀ q, q < nproc → (s.proc q).state = .unused → (s.proc q).namespacePids (s.nodes n).depth ≠ pid

theorem acquireProc_of_notMem {held : Finset ℕ} (h : i ∉ held) :
    acquireProc held i = .ok (insert i held) := if_neg h

theorem releaseProc_of_mem {held : Finset ℕ} (h : i ∈ held) :
    releaseProc held i = .ok (held.erase i) := if_pos h

/-- The test of `find_proc` goes well on every slot. -/
theorem hasPid_spec {s : Kernel} (hinv : KInv s) (hheir : HeirInv s) {n : ℕ} {pid : ℤ}
    (hstale : NotStale s n pid) (hi : i < nproc) :
    ∃ r, hasPid s pid n i = .ok r ∧ (r = true ↔ Visible s n pid i) := by
  unfold hasPid
  by_cases hpid : (s.proc i).namespacePids (s.nodes n).depth = pid
  · have hused : (s.proc i).state ≠ .unused := fun hu => hstale i hi hu hpid
    obtain ⟨-, a, ha⟩ := hheir.placed i hused
    obtain ⟨r, hr, -⟩ := hheir.isHeir_spec hinv ha n
    rw [if_pos hpid, ha, hr]
    refine ⟨r, rfl, fun hrt => ⟨hi, hused, hpid, by rw [ha, hr, hrt]⟩, fun hv => ?_⟩
    have hv' := hv.2.2.2
    rw [ha, hr] at hv'
    exact Except.ok.inj hv'
  · rw [if_neg hpid]
    exact ⟨false, rfl, fun hf => absurd hf (by decide), fun hv => absurd hv.2.2.1 hpid⟩

/-- **`find_proc`** returns the first process with the pid, and holds its lock and no other. -/
theorem findProc_spec {s : Kernel} (hinv : KInv s) (hheir : HeirInv s) {n : ℕ} {pid : ℤ}
    (hstale : NotStale s n pid) :
    (findProc s pid n ∅ = .ok (none, ∅) ∧ ∀ q, ¬ Visible s n pid q)
      ∨ ∃ q, findProc s pid n ∅ = .ok (some q, {q}) ∧ Visible s n pid q := by
  suffices hloop : ∀ l : List ℕ, (∀ q ∈ l, q < nproc) →
      (findProcLoop s pid n l ∅ = .ok (none, ∅) ∧ ∀ q ∈ l, ¬ Visible s n pid q)
        ∨ ∃ q, findProcLoop s pid n l ∅ = .ok (some q, {q}) ∧ Visible s n pid q by
    rcases hloop (List.range nproc) (fun q hq => List.mem_range.mp hq) with ⟨hrun, hnone⟩ | hsome
    · exact Or.inl ⟨hrun, fun q hq => hnone q (List.mem_range.mpr hq.1) hq⟩
    · exact Or.inr hsome
  intro l hl
  induction l with
  | nil =>
    left
    refine ⟨rfl, fun q hq => ?_⟩
    cases hq
  | cons i l ih =>
    obtain ⟨r, hr, hvis⟩ := hasPid_spec hinv hheir hstale (hl i List.mem_cons_self)
    have hone : insert i (∅ : Finset ℕ) = {i} := insert_empty_eq i
    unfold findProcLoop
    rw [acquireProc_of_notMem (Finset.notMem_empty i), ok_bind, hr, ok_bind, hone]
    cases r with
    | true => exact Or.inr ⟨i, rfl, hvis.mp rfl⟩
    | false =>
      have hrel : releaseProc {i} i = .ok ∅ := by
        rw [releaseProc_of_mem (Finset.mem_singleton_self i)]
        simp
      simp only [Bool.false_eq_true, if_false, hrel, ok_bind]
      rcases ih (fun q hq => hl q (List.mem_cons_of_mem i hq)) with ⟨hrun, hnone⟩ | hsome
      · refine Or.inl ⟨hrun, fun q hq => ?_⟩
        rcases List.mem_cons.mp hq with rfl | hq
        · exact fun hv => absurd (hvis.mpr hv) (by decide)
        · exact hnone q hq
      · exact Or.inr hsome

/-! ## The calls -/

/-- What a call needs to find, besides a pid that is not stale. -/
def PsCall.Fits (s : Kernel) (me n : ℕ) : PsCall → Prop
  | .info pid _ => ∃ q, Visible s n pid q
  | .pt0 pid _ => ¬ Visible s n pid me
  | .pt1 pid addr _ => ∀ q, Visible s n pid q → q ≠ me ∧ addr < maxVa
      ∧ ∃ pt mid, (s.proc q).pagetable = some pt ∧ pt.entry (px 2 addr) = some mid
  | .pt2 pid addr _ => ∀ q, Visible s n pid q → q ≠ me ∧ addr < maxVa
      ∧ ∃ pt leaf, (s.proc q).pagetable = some pt ∧ pt.leafTable addr = some leaf
  | .copy pid addr size _ => (∃ q, Visible s n pid q) ∧ ∀ q, Visible s n pid q → q ≠ me
      ∧ ∃ pt, (s.proc q).pagetable = some pt ∧ ∀ i : ℕ, i * pgSize < size →
        addr + i * pgSize < maxVa ∧ ∃ pte, pt.lookup (addr + i * pgSize) = some pte
  | .sleepInfo _ _ => True

theorem copyoutFromPtr_some {α : Type} (pt : PageTable) (dstva : ℕ) (a : α) (len : ℕ) :
    ∃ r, copyoutFromPtr pt dstva (some a) len = .ok r := by
  unfold copyoutFromPtr
  split_ifs
  · exact ⟨true, rfl⟩
  · exact ⟨false, rfl⟩
  · exact ⟨_, rfl⟩

section

variable {s : Kernel} {me n : ℕ} {pid : ℤ}

/-- The tables of a process, and of the caller. -/
theorem Visible.space (hinv : KInv s) {q : ℕ} (h : Visible s n pid q) :
    ∃ pt tf, (s.proc q).pagetable = some pt ∧ (s.proc q).trapframe = some tf := by
  obtain ⟨pt, tf, hpt, htf, -⟩ := (hinv.slots q).space h.2.1
  exact ⟨pt, tf, hpt, htf⟩

/-- The pids of a process and of its parent can be read. -/
theorem procInfo_ok (hinv : KInv s) (hheir : HeirInv s) (hkin : KinInv s) {q : ℕ}
    (hq : (s.proc q).state ≠ .unused) : ∃ info, procInfo s q n = .ok info := by
  have hpid : ∀ r, (s.proc r).state ≠ .unused → ∃ x, getPid s r n = .ok x := by
    intro r hr
    obtain ⟨-, a, ha⟩ := hheir.placed r hr
    obtain ⟨b, hb, -⟩ := hheir.isHeir_spec hinv ha n
    unfold getPid
    rw [ha, hb]
    exact ⟨_, rfl⟩
  have hppid : ∃ x, getPpid s q n = .ok x := by
    unfold getPpid
    split_ifs with hinit
    · exact ⟨0, rfl⟩
    · -- a process other than the first has a live parent, as a zombie too
      have hparent : ∃ r, (s.proc q).parent = some r ∧ (s.proc r).Live := by
        by_cases hz : (s.proc q).state = .zombie
        · exact hkin.zombie q hz
        · obtain ⟨-, a, ha⟩ := hheir.placed q hq
          obtain ⟨r, -, hr, hlive, -⟩ := hkin.parent q a ⟨hq, hz⟩ hinit ha
          exact ⟨r, hr, hlive⟩
      obtain ⟨r, hr, hlive⟩ := hparent
      rw [hr, deref_some, ok_bind]
      exact hpid r hlive.1
  obtain ⟨x, hx⟩ := hpid q hq
  obtain ⟨y, hy⟩ := hppid
  unfold procInfo
  rw [hx, ok_bind, hy, ok_bind]
  exact ⟨_, rfl⟩

theorem psInfo_safe (hinv : KInv s) (hheir : HeirInv s) (hkin : KinInv s)
    (hn : (s.proc me).node = some n) (hpt : (s.proc me).pagetable = some mypt)
    (hstale : NotStale s n pid) (hvis : ∃ q, Visible s n pid q) (pinfoAddr : ℕ) :
    ∃ ret, psCall s me ∅ (.info pid pinfoAddr) = .ok (ret, ∅) := by
  rcases findProc_spec hinv hheir hstale with ⟨-, hnone⟩ | ⟨q, hfind, hq⟩
  · obtain ⟨q, hq⟩ := hvis
    exact absurd hq (hnone q)
  · obtain ⟨info, hinfo⟩ := procInfo_ok (n := n) hinv hheir hkin hq.2.1
    obtain ⟨r, hr⟩ := copyoutFromPtr_some mypt pinfoAddr info procInfoSize
    refine ⟨0, ?_⟩
    unfold psCall psInfo
    simp only [hn, deref_some, ok_bind, hfind, hpt, hinfo, hr]
    rw [if_neg (not_not_intro hq.2.2.1), releaseProc_of_mem (Finset.mem_singleton_self q)]
    simp

/-- `ps_pt0`, `ps_pt1` and `ps_pt2`. -/
theorem psPt_safe {α : Type} (table : Proc → Except Fault (Option α)) (hinv : KInv s)
    (hheir : HeirInv s) (hn : (s.proc me).node = some n) (hpt : (s.proc me).pagetable = some mypt)
    (hstale : NotStale s n pid)
    (htable : ∀ q, Visible s n pid q → q ≠ me ∧ ∃ a, table (s.proc q) = .ok (some a))
    (tableAddr : ℕ) :
    ∃ ret, psPt table s me pid tableAddr ∅ = .ok (ret, ∅)
      ∧ ((∀ q, ¬ Visible s n pid q) → ret = -1) := by
  unfold psPt
  rcases findProc_spec hinv hheir hstale with ⟨hfind, -⟩ | ⟨q, hfind, hq⟩
  · refine ⟨-1, ?_, fun _ => rfl⟩
    simp only [hn, deref_some, ok_bind, hfind]
    rfl
  · obtain ⟨hne, a, ha⟩ := htable q hq
    obtain ⟨r, hr⟩ := copyoutFromPtr_some mypt tableAddr a (512 * 8)
    refine ⟨0, ?_, fun hnone => absurd hq (hnone q)⟩
    have hme : me ∉ ({q} : Finset ℕ) := by simpa using Ne.symm hne
    simp only [hn, deref_some, ok_bind, hfind, acquireProc_of_notMem hme, ha, hpt, hr]
    -- the two locks are released again
    rw [releaseProc_of_mem (Finset.mem_insert_of_mem (Finset.mem_singleton_self q)), ok_bind,
      Finset.erase_insert_of_ne (Ne.symm hne), Finset.erase_singleton, insert_empty_eq,
      releaseProc_of_mem (Finset.mem_singleton_self me), ok_bind, Finset.erase_singleton]
    rfl

/-- The table that holds the entry of a mapped address. -/
theorem copyFromLevel0_mapped {pt : PageTable} {va : ℕ} {pte : Pte} (hva : va < maxVa)
    (hl : pt.lookup va = some pte) :
    ∃ leaf, copyFromLevel0 (some pt) va = .ok (some leaf) ∧ leaf.pte (px 0 va) = some pte := by
  obtain ⟨leaf, hleaf, hpte⟩ := Option.bind_eq_some_iff.mp hl
  refine ⟨leaf, ?_, hpte⟩
  unfold copyFromLevel0 copyFromLevel1
  rw [if_neg (by omega), deref_some, ok_bind]
  exact congrArg Except.ok hleaf

/-- The loop of `ps_copy` over pages that are all there. -/
theorem psCopyLoop_mapped {pt : PageTable} (k addr copyAddr : ℕ)
    (h : ∀ i, i < k → addr + i * pgSize < maxVa ∧ ∃ pte, pt.lookup (addr + i * pgSize) = some pte) :
    psCopyLoop mypt (some pt) k addr copyAddr = .ok true := by
  induction k generalizing addr copyAddr with
  | zero => rfl
  | succ k ih =>
    obtain ⟨hva, pte, hl⟩ := h 0 (Nat.succ_pos k)
    rw [Nat.zero_mul, Nat.add_zero] at hva hl
    obtain ⟨leaf, htable, hpte⟩ := copyFromLevel0_mapped hva hl
    obtain ⟨r, hr⟩ := copyoutFromPtr_some mypt copyAddr pte.pa pgSize
    have hnext : uint64 ((addr : ℤ) + pgSize) = addr + pgSize := by
      unfold uint64
      unfold maxVa pgSize at *
      omega
    unfold psCopyLoop
    simp only [htable, ok_bind, deref_some, hpte, hr]
    rw [hnext]
    refine ih _ _ fun i hi => ?_
    have hi' := h (i + 1) (by omega)
    rwa [Nat.add_mul, Nat.one_mul, Nat.add_comm (i * pgSize), ← Nat.add_assoc] at hi'

theorem psCopy_safe (hinv : KInv s) (hheir : HeirInv s) (hn : (s.proc me).node = some n)
    (hpt : (s.proc me).pagetable = some mypt) (hstale : NotStale s n pid) {addr copyAddr : ℕ}
    {size : ℤ} (hfits : (PsCall.copy pid addr size copyAddr).Fits s me n) :
    ∃ ret, psCopy s me pid addr size copyAddr ∅ = .ok (ret, ∅) := by
  obtain ⟨⟨q₀, hq₀⟩, hall⟩ := hfits
  rcases findProc_spec hinv hheir hstale with ⟨-, hnone⟩ | ⟨q, hfind, hq⟩
  · exact absurd hq₀ (hnone q₀)
  obtain ⟨hne, pt, hqpt, hmapped⟩ := hall q hq
  have hloop : psCopyLoop mypt (some pt) ((size.toNat + pgSize - 1) / pgSize) addr copyAddr
      = .ok true := by
    refine psCopyLoop_mapped _ addr copyAddr fun i hi => hmapped i ?_
    unfold pgSize at hi ⊢
    omega
  have hme : me ∉ ({q} : Finset ℕ) := by simpa using Ne.symm hne
  refine ⟨0, ?_⟩
  unfold psCopy
  simp only [hn, deref_some, ok_bind, hfind, acquireProc_of_notMem hme, hpt, hqpt, hloop, if_true]
  rw [releaseProc_of_mem (Finset.mem_insert_self me _), ok_bind, Finset.erase_insert hme,
    releaseProc_of_mem (Finset.mem_singleton_self q), ok_bind, Finset.erase_singleton]
  rfl

theorem psSleepInfo_safe (hinv : KInv s) (hheir : HeirInv s) (hn : (s.proc me).node = some n)
    (hpt : (s.proc me).pagetable = some mypt) (hstale : NotStale s n pid) (infoAddr : ℕ) :
    ∃ ret, psSleepInfo s me pid infoAddr ∅ = .ok (ret, ∅)
      ∧ ((∀ q, ¬ Visible s n pid q) → ret = -1) := by
  unfold psSleepInfo
  rcases findProc_spec hinv hheir hstale with ⟨hfind, -⟩ | ⟨q, hfind, hq⟩
  · refine ⟨-1, ?_, fun _ => rfl⟩
    simp only [hn, deref_some, ok_bind, hfind]
    rfl
  · obtain ⟨-, tf, -, htf⟩ := hq.space hinv
    obtain ⟨r, hr⟩ := copyoutFromPtr_some mypt infoAddr tf writeInfoSize
    refine ⟨0, ?_, fun hnone => absurd hq (hnone q)⟩
    simp only [hn, deref_some, ok_bind, hfind, htf, hpt]
    by_cases hme : me = q
    · -- the caller's own lock is taken once
      subst hme
      simp only [ne_eq, not_true_eq_false, if_false, ok_bind, hr,
        releaseProc_of_mem (Finset.mem_singleton_self me), Finset.erase_singleton]
      rfl
    · have hnot : me ∉ ({q} : Finset ℕ) := by simpa using hme
      simp only [ne_eq, hme, not_false_eq_true, if_true, acquireProc_of_notMem hnot, ok_bind, hr]
      rw [releaseProc_of_mem (Finset.mem_insert_of_mem (Finset.mem_singleton_self q)), ok_bind,
        Finset.erase_insert_of_ne hme, Finset.erase_singleton, insert_empty_eq,
        releaseProc_of_mem (Finset.mem_singleton_self me), ok_bind, Finset.erase_singleton]
      rfl

end

end Xv6
