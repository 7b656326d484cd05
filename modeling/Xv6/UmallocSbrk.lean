/-
# The `sbrk` of user programs is the kernel's

The model of the allocator has `sbrk` as a function of the break; here it is compared with
`growproc`: what a program gets is what the kernel's function answers, in every state of the system.
-/
import Xv6.PsBytes
import Xv6.UmallocRuns

namespace Xv6

variable {boot : Finset ℕ} {s t : Kernel} {p : ℕ}

/-- The size of a running process is not larger than the physical memory. -/
theorem SysReach.sz_le (h : SysReach boot s) (hp : p < nproc)
    (hrun : (s.proc p).state = .running) : (s.proc p).sz ≤ physTop := by
  obtain ⟨hinv, hacc⟩ := h.inv
  obtain ⟨-, pt, -, hpt, -⟩ := exists_space hinv hacc hp hrun
  have hcount := h.pageCount_le hp hpt
  have hround := Umalloc.le_pgRoundUp (s.proc p).sz
  unfold pageCount pgRoundUp pgSize at *
  have : physTop = 2281701376 := rfl
  omega

theorem growproc_sz (h : SysReach boot s) (hp : p < nproc) (hrun : (s.proc p).state = .running)
    (n : ℤ) (supply : List ℕ) {r : ℤ} (hgrow : growproc (s.refill supply) p n = .ok (r, t)) :
    (t.proc p).state = .running ∧ if n > 0 then r = 0 ∧ (t.proc p).sz = max (s.proc p).sz (uint64 ((s.proc p).sz + n))
        ∨ r = -1 ∧ (t.proc p).sz = (s.proc p).sz
      else r = 0 ∧ (t.proc p).sz
        = if n < 0 then min (s.proc p).sz (uint64 ((s.proc p).sz + n)) else (s.proc p).sz := by
  obtain ⟨hinv, hacc⟩ := h.inv
  have hrun' : ((s.refill supply).proc p).state = .running := hrun
  obtain ⟨B, pt, -, hpt, -, hspace, -⟩ :=
    exists_space (hinv.refill supply) (hacc.refill supply) hp hrun'
  unfold growproc at hgrow
  simp only [hpt, deref_some, ok_bind] at hgrow
  split_ifs at hgrow ⊢ with hpos hneg
  · obtain ⟨r', pt', m', halloc, -, hor⟩ :=
      uvmalloc_spec hspace (uint64 (((s.refill supply).proc p).sz + n)) true false
    simp only [halloc, ok_bind] at hgrow
    split_ifs at hgrow with h0
    · cases hgrow
      refine ⟨?_, Or.inr ?_⟩ <;> simp [Kernel.updProc, Kernel.refill, hrun]
    · cases hgrow
      refine ⟨by simp [Kernel.updProc, Kernel.refill, hrun], Or.inl ⟨rfl, ?_⟩⟩
      rcases hor with ⟨hr, -⟩ | ⟨hr, -⟩
      · simpa [Kernel.updProc, Kernel.refill] using hr
      · exact absurd hr h0
  · obtain ⟨pt', m', hdealloc, -, -⟩ :=
      uvmdealloc_spec hspace (uint64 (((s.refill supply).proc p).sz + n))
    simp only [hdealloc, ok_bind] at hgrow
    cases hgrow
    simp [Kernel.updProc, Kernel.refill, hrun]
  · cases hgrow
    exact ⟨hrun, rfl, rfl⟩

/-- **`sbrk` of the model is the kernel's.** -/
theorem sbrk_of_growproc (h : SysReach boot s) (hp : p < nproc)
    (hrun : (s.proc p).state = .running) {n : ℤ} (hn : n < 2 ^ 31) (supply : List ℕ) {r : ℤ}
    (hgrow : growproc (s.refill supply) p n = .ok (r, t)) (u : Umalloc.Heap)
    (hbrk : u.brk = (s.proc p).sz) (hgrants : u.grants = [decide (r = 0)]) :
    (u.sbrk n).1 = (if r = 0 then some (s.proc p).sz else none)
      ∧ (u.sbrk n).2.brk = (t.proc p).sz := by
  obtain ⟨hstate, hsz⟩ := growproc_sz h hp hrun n supply hgrow
  have hle := h.sz_le hp hrun
  have htop : physTop = 2281701376 := rfl
  unfold Umalloc.Heap.sbrk
  rw [hbrk, hgrants]
  by_cases hpos : n > 0
  · rw [if_pos hpos] at hsz ⊢
    have hsum : uint64 ((s.proc p).sz + n) = (s.proc p).sz + n.toNat := by
      unfold uint64
      omega
    rw [hsum] at hsz
    rcases hsz with ⟨hr, hsz⟩ | ⟨hr, hsz⟩
    · -- the new size is that of a process too
      have hreach : SysReach boot t :=
        h.step (e := .sbrk p n supply) ⟨hp, hrun⟩ (by simp only [sysStep, hgrow, ok_bind]; rfl)
      have hfits := hreach.sz_le hp hstate
      rw [if_pos ⟨by simp [hr], by omega⟩, if_pos hr]
      exact ⟨rfl, by dsimp only; omega⟩
    · rw [if_neg (by simp [hr]), if_neg (by omega)]
      exact ⟨rfl, hsz.symm⟩
  · rw [if_neg hpos] at hsz ⊢
    rw [if_pos hsz.1]
    by_cases hneg : n < 0
    · rw [if_pos hneg] at hsz ⊢
      exact ⟨rfl, hsz.2.symm⟩
    · rw [if_neg hneg] at hsz ⊢
      exact ⟨rfl, hbrk.trans hsz.2.symm⟩

/-- The first process asks for two pages. -/
theorem sbrk_of_growproc_init : ∃ s t u, SysReach ∅ s
    ∧ growproc (s.refill (tenPages 1)) 0 5000 = .ok (0, t)
    ∧ (Umalloc.Heap.sbrk u 5000).1 = some (s.proc 0).sz ∧ (u.sbrk 5000).2.brk = (t.proc 0).sz := by
  obtain ⟨s, hreach, hcheck⟩ := sysReach_of_run [.proc (.dispatch 0)]
    (fun s => (s.proc 0).state = .running
      ∧ (growproc (s.refill (tenPages 1)) 0 5000).toOption.any (·.1 == 0)) (by decide +kernel)
  obtain ⟨hrun, hany⟩ := of_decide_eq_true hcheck
  cases hgrow : growproc (s.refill (tenPages 1)) 0 5000 with
  | error e =>
    rw [hgrow] at hany
    cases hany
  | ok x =>
    obtain ⟨r, t⟩ := x
    rw [hgrow] at hany
    obtain rfl : r = 0 := by simpa [Except.toOption] using hany
    exact ⟨s, t, ⟨0, id, id, 0, (s.proc 0).sz, [true]⟩, hreach, hgrow,
      sbrk_of_growproc hreach (by decide) hrun (by decide) _ hgrow _ rfl rfl⟩

end Xv6
