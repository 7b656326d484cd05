/-
# Whom `kill` finds

`kill` compares global pids, whatever the namespace of its caller, while `find_proc` reads
the pid of a process in that namespace.  The two agree for a caller in the root
namespace as long as the global pids are those of the root namespace and no two
processes share one (`PidsAgree`), as they are in every run in which no call has failed for lack of
memory (`RootInv.pidsAgree`).  In a nested namespace `kill(getpid())` can mark
the first process of the system (`kill_misses`).
-/
import Xv6.PsCalls
import Xv6.RootPids

namespace Xv6

/-- Every process has the same pid globally and in the root namespace, and no two processes share
one. -/
structure PidsAgree (s : Kernel) : Prop where
  root : ∀ q, (s.proc q).state ≠ .unused → (s.proc q).pid = (s.proc q).namespacePids 0
  inj : ∀ q q', (s.proc q).state ≠ .unused → (s.proc q').state ≠ .unused →
    (s.proc q).pid = (s.proc q').pid → q = q'

theorem RootInv.pidsAgree {n : ℕ} {k : ℕ → ℕ} {s : Kernel} (h : RootInv n k s) (hn : n < 2 ^ 31) :
    PidsAgree s where
  root := fun q hq => by
    obtain ⟨-, -, hpid, hpid0⟩ := h.pid q hq
    rw [hpid, hpid0]
  inj := fun q q' hq hq' heq => by
    obtain ⟨-, hle, hpid, -⟩ := h.pid q hq
    obtain ⟨-, hle', hpid', -⟩ := h.pid q' hq'
    rw [hpid, hpid'] at heq
    exact h.inj q q' hq hq' (int32_inj (by omega) (by omega) heq)

/-- With distinct pids, `kill` finds the process that has the pid. -/
theorem killTarget_iff {s : Kernel} (hinv : KInv s) (hpids : PidsAgree s) {x : ℤ} (hx : x ≠ 0) (q : ℕ) :
    killTarget s x = some q ↔ q < nproc ∧ (s.proc q).state ≠ .unused ∧ (s.proc q).pid = x := by
  constructor
  · intro hq
    refine ⟨List.mem_range.mp (List.mem_of_find?_eq_some hq), killTarget_used hinv hx hq, ?_⟩
    simpa using List.find?_some hq
  · rintro ⟨hlt, hused, hpid⟩
    cases hfind : killTarget s x with
    | none => simpa [hpid] using List.find?_eq_none.mp hfind q (List.mem_range.mpr hlt)
    | some q' =>
      have hpid' : (s.proc q').pid = x := by simpa using List.find?_some hfind
      rw [hpids.inj q' q (killTarget_used hinv hx hfind) hused (hpid'.trans hpid.symm)]

/-- From the root namespace every process is visible, under its pid there. -/
theorem visible_root_iff {s : Kernel} (hinv : KInv s) (hheir : HeirInv s) (x : ℤ) (q : ℕ) :
    Visible s 0 x q ↔ q < nproc ∧ (s.proc q).state ≠ .unused ∧ (s.proc q).namespacePids 0 = x := by
  unfold Visible
  rw [hinv.ns.root.2.2]
  refine and_congr_right fun _ => and_congr_right fun hused => and_iff_left ?_
  obtain ⟨-, a, ha⟩ := hheir.placed q hused
  rw [ha]
  exact (hheir.isHeir_iff hinv ha 0).mpr (hheir.chain q a ha)

theorem kill_killed_iff (s : Kernel) (x : ℤ) (q : ℕ) :
    ((kill s x).2.proc q).killed = true ↔ killTarget s x = some q ∨ (s.proc q).killed = true := by
  unfold kill
  cases killTarget s x with
  | none => simp
  | some i =>
    by_cases hq : i = q
    · subst hq
      simp [Kernel.updProc]
    · simp [Kernel.updProc, Function.update_of_ne (Ne.symm hq), hq]

theorem kill_ret (s : Kernel) (x : ℤ) : (kill s x).1 = if (killTarget s x).isSome then 0 else -1 := by
  unfold kill
  cases killTarget s x <;> rfl

end Xv6
