/-
# Who owns which page

Every outstanding page is accounted for: it was outstanding before `userinit`, or it is
a table, a user page or the trapframe of exactly one process (`Accounts`).  The calls
that move pages between the pool and a slot keep the account of that slot, and the
others keep every slot's account.
-/
import Xv6.ExecModel
import Xv6.KernelInv

namespace Xv6

open Function

variable {s t : Kernel} {B boot : Multiset ℕ} {r : Option ℕ} {i np p : ℕ}

/-! ## The account of a slot -/

/-- The outstanding pages are those of `boot` and those of the processes. -/
def Accounts (boot : Multiset ℕ) (s : Kernel) : Prop :=
  Holds s.mem (boot + ∑ q ∈ Finset.range nproc, (s.proc q).owned)

/-- **One slot at a time**: what the others own is a part of the account that stays. -/
theorem Accounts.slot (h : Accounts boot s) (hi : i < nproc) :
    ∃ B, Holds s.mem (B + (s.proc i).owned)
      ∧ ∀ t : Kernel, (∀ q, q ≠ i → (t.proc q).owned = (s.proc q).owned) →
        Holds t.mem (B + (t.proc i).owned) → Accounts boot t := by
  have hmem : i ∈ Finset.range nproc := Finset.mem_range.mpr hi
  refine ⟨boot + ∑ q ∈ (Finset.range nproc).erase i, (s.proc q).owned, ?_, fun t hother ht => ?_⟩
  · refine h.congr ?_
    rw [← Finset.add_sum_erase _ _ hmem]
    abel
  · refine ht.congr ?_
    rw [← Finset.add_sum_erase _ _ hmem, Finset.sum_congr rfl fun q hq =>
      hother q (Finset.ne_of_mem_erase hq)]
    abel

/-- No page moves. -/
def PagesKept (s t : Kernel) : Prop :=
  t.mem.outstanding = s.mem.outstanding ∧ ∀ q, (t.proc q).owned = (s.proc q).owned

theorem Accounts.kept (h : Accounts boot s) (ht : PagesKept s t) : Accounts boot t := by
  unfold Accounts
  rw [Finset.sum_congr rfl fun q _ => ht.2 q]
  exact h.of_outstanding ht.1

theorem PagesKept.refl (s : Kernel) : PagesKept s s := ⟨rfl, fun _ => rfl⟩

theorem PagesKept.trans {u : Kernel} (h : PagesKept s t) (h' : PagesKept t u) : PagesKept s u :=
  ⟨h'.1.trans h.1, fun q => (h'.2 q).trans (h.2 q)⟩

/-- A change of a slot that leaves its pages alone. -/
theorem PagesKept.updProc (s : Kernel) (i : ℕ) {f : Proc → Proc}
    (hf : (f (s.proc i)).owned = (s.proc i).owned) : PagesKept s (s.updProc i f) := by
  refine ⟨rfl, fun q => ?_⟩
  by_cases hq : q = i
  · rw [hq, show (s.updProc i f).proc i = f (s.proc i) from update_self _ _ _, hf]
  · rw [show (s.updProc i f).proc q = s.proc q from update_of_ne hq _ _]

/-! ## `fork` and `clone` -/

theorem PagesKept.of_proc (hproc : t.proc = s.proc) (hmem : t.mem = s.mem) : PagesKept s t := by
  refine ⟨by rw [hmem], fun q => by rw [hproc]⟩

theorem forkFinish_kept (hrun : forkFinish s p np = .ok t) : PagesKept s t := by
  obtain ⟨n, -, hrun⟩ := bind_eq_ok_iff.mp hrun
  obtain ⟨⟨nodes, pids⟩, -, hrun⟩ := bind_eq_ok_iff.mp hrun
  cases hrun
  exact (PagesKept.of_proc rfl rfl).trans (PagesKept.updProc { s with nodes := nodes } np rfl)

/-- **The beginning of `fork` and `clone`** keeps the account, wherever it runs out of pages. -/
theorem forkCopy_owned (h : KInv s) (hp : p < nproc ∧ (s.proc p).state = .running)
    (ha : Accounts boot s) (hrun : forkCopy s p = .ok (r, t)) : Accounts boot t := by
  obtain ⟨r', t', hrun', hcopied, hmoves⟩ := forkCopy_spec hp.1 hp.2 h.slots h.files
  rw [hrun] at hrun'
  cases hrun'
  cases hcopied with
  | noSlot => exact ha
  | noMemory _ _ _ hout => exact ha.kept ⟨hout, fun _ => rfl⟩
  | child hnp hunused _ ht =>
    -- the pages of the child come from the pool
    obtain ⟨B, hB, hback⟩ := ha.slot hnp
    rw [Proc.owned_of_cleared ((h.slots _).clear hunused)] at hB
    refine hback _ (fun q hq => ?_) (hmoves.holds B hB)
    rw [ht]
    simp only [update_of_ne hq]

theorem fork_owned (h : KInv s) (hp : p < nproc ∧ (s.proc p).state = .running)
    (ha : Accounts boot s) (hrun : fork s p = .ok (r, t)) : Accounts boot t := by
  obtain ⟨⟨o, u⟩, hcopy, hrun⟩ := bind_eq_ok_iff.mp hrun
  have hu := forkCopy_owned h hp ha hcopy
  cases o with
  | none =>
    cases hrun
    exact hu
  | some np =>
    obtain ⟨v, hfin, hret⟩ := bind_eq_ok_iff.mp hrun
    cases hret
    exact hu.kept ((PagesKept.updProc u np rfl).trans (forkFinish_kept hfin))

theorem clone_owned (h : KInv s) (hp : p < nproc ∧ (s.proc p).state = .running)
    (ha : Accounts boot s) (hrun : clone s p = .ok (r, t)) : Accounts boot t := by
  obtain ⟨⟨o, u⟩, hcopy, hrun⟩ := bind_eq_ok_iff.mp hrun
  have hu := forkCopy_owned h hp ha hcopy
  cases o with
  | none =>
    cases hrun
    exact hu
  | some np =>
    simp only at hrun
    -- `namespace_malloc` and the new node do not concern pages
    have hmalloc : PagesKept u (namespaceMalloc u).2 := by
      rcases namespaceMalloc_cases u with ⟨-, hm⟩ | ⟨i, -, -, hm⟩
      · rw [hm]
        exact PagesKept.refl u
      · rw [hm]
        exact PagesKept.of_proc rfl rfl
    generalize namespaceMalloc u = w at hrun hmalloc
    obtain ⟨n, -, hrun⟩ := bind_eq_ok_iff.mp hrun
    obtain ⟨head, -, hrun⟩ := bind_eq_ok_iff.mp hrun
    obtain ⟨v, hfin, hret⟩ := bind_eq_ok_iff.mp hrun
    cases hret
    refine hu.kept ((hmalloc.trans ?_).trans (forkFinish_kept hfin))
    exact PagesKept.trans (PagesKept.of_proc rfl rfl) (PagesKept.updProc _ np rfl)

/-! ## `wait` and the other events -/

theorem waitScan_owned {copyFails : Bool} (h : KInv s) (ha : Accounts boot s) {l : List ℕ}
    (hl : ∀ q ∈ l, q < nproc) {kids kids' : Bool} {v : Option ℤ}
    (hrun : waitScan s p copyFails l kids = .ok (v, kids', t)) : Accounts boot t := by
  induction l generalizing kids with
  | nil =>
    obtain ⟨-, hrest⟩ := Prod.mk.inj (Except.ok.inj hrun)
    obtain ⟨-, rfl⟩ := Prod.mk.inj hrest
    exact ha
  | cons pp l ih =>
    have hl' : ∀ q ∈ l, q < nproc := fun q hq => hl q (List.mem_cons_of_mem pp hq)
    unfold waitScan at hrun
    split_ifs at hrun with hparent hzombie hcopy
    · obtain ⟨-, hrest⟩ := Prod.mk.inj (Except.ok.inj hrun)
      obtain ⟨-, rfl⟩ := Prod.mk.inj hrest
      exact ha
    · obtain ⟨u, hfree, hret⟩ := bind_eq_ok_iff.mp hrun
      obtain ⟨-, hrest⟩ := Prod.mk.inj (Except.ok.inj hret)
      obtain ⟨-, rfl⟩ := Prod.mk.inj hrest
      obtain ⟨B, hB, hback⟩ := ha.slot (hl pp List.mem_cons_self)
      obtain ⟨m, hfree', hmoves⟩ := freeproc_spec ((h.slots pp).freeable (by rw [hzombie]; decide))
      rw [hfree] at hfree'
      cases hfree'
      refine hback _ (fun q hq => ?_) ?_
      · simp only [Kernel.updProc, update_of_ne hq]
      · simp only [Kernel.updProc, update_self, Proc.owned_cleared]
        exact hmoves.holds B hB
    · exact ih hl' hrun
    · exact ih hl' hrun

theorem wait_owned {copyFails : Bool} {r : WaitResult} (h : KInv s) (ha : Accounts boot s)
    (hrun : wait s p copyFails = .ok (r, t)) : Accounts boot t := by
  obtain ⟨⟨v, kids, u⟩, hscan, hrun⟩ := bind_eq_ok_iff.mp hrun
  have hu := waitScan_owned h ha (fun q hq => List.mem_range.mp hq) hscan
  cases v with
  | some v =>
    cases hrun
    exact hu
  | none =>
    simp only at hrun
    split_ifs at hrun
    · cases hrun
      exact hu
    · cases hrun
      exact hu.kept (PagesKept.updProc u p rfl)

theorem Accounts.refill (h : Accounts boot s) (supply : List ℕ) : Accounts boot (s.refill supply) :=
  h.kept ⟨rfl, fun _ => rfl⟩

/-- **Every event of `ProcModel`** keeps the account. -/
theorem step_owned {e : Event} (h : KInv s) (he : Enabled s e) (ha : Accounts boot s)
    (hrun : step s e = .ok (r, t)) : Accounts boot t := by
  have hst := stepped_of_ok h he hrun
  cases hst with
  | @fork p supply _ _ _ => exact fork_owned (h.refill supply) he (ha.refill supply) hrun
  | @clone p supply _ _ _ => exact clone_owned (h.refill supply) he (ha.refill supply) hrun
  | @exit p status _ hx =>
    refine ha.kept ⟨by rw [hx.mem], fun q => ?_⟩
    by_cases hq : q = p
    · rw [hq, hx.self]
      rfl
    · rw [(hx.other q hq).eq]
      rfl
  | wait _ =>
    obtain ⟨⟨v, u⟩, hwait, hret⟩ := bind_eq_ok_iff.mp hrun
    cases hret
    exact wait_owned h ha hwait
  | files _ _ honly =>
    refine ha.kept ⟨by rw [honly.rest], fun q => ?_⟩
    by_cases hq : q = e.proc
    · rw [hq, honly.self]
      rfl
    · rw [honly.other q hq]
  | @dispatch p => exact ha.kept (PagesKept.updProc s p rfl)
  | @yield p => exact ha.kept (PagesKept.updProc s p rfl)

end Xv6
