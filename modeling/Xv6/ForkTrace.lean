/-
# A failed `fork` or `clone` leaves no trace

Every page that `allocproc`, `proc_pagetable` or `uvmcopy` asks for can be refused, and what was
set up before has to be taken down again: the tables are those of before the call
(`Copied.unchanged`), and every lock taken on the way has been released, in every interleaving
with the other CPUs (`no_lock_in_user_mode`).
-/
import Xv6.CloneCapacity
import Xv6.Isolation
import Xv6.LockOrder
import Xv6.RootPids

namespace Xv6

/-! ## Locks -/

namespace Locks

open LockLang

/-- The process `q` is back from a system call on CPU `c` and about to go on in user mode. -/
def InUserMode (s : State Table Use Lock Slot) (c : ℕ) (q : Slot) : Prop :=
  ∃ k, (s.cpu c).code = .again (.any (userStep q)) k

/-- Nothing may be held where `wait` can be called next. -/
theorem eq_nil_of_userStep {me : Option Slot} {q : Slot} {Q B : List Use → Prop} {H : List Use}
    (h : know kernel order me (.any (userStep q)) Q B H) : H = [] := by
  have hwait : know kernel order me (wait q) Q B H := h 3
  refine List.eq_nil_iff_forall_not_mem.mpr fun u hu => ?_
  rcases nests_cases (hwait.1 u hu).1 with ⟨-, p, hp⟩ | ⟨p, -, hp⟩ | ⟨p, -, hp, -⟩ | ⟨p, -, hp, -⟩
  all_goals cases hp

/-- A CPU has no lock when its process is back from a system call. -/
theorem no_lock_in_user_mode {ok : State Table Use Lock Slot → LockLang.Event → Prop}
    {s : State Table Use Lock Slot} (h : LockLang.Reach kernel ok booted s) {c : ℕ} {q : Slot}
    (hq : InUserMode s c q) (l : Lock) : ¬ LockLang.Holds s c l := by
  rintro ⟨u, hu⟩
  obtain ⟨H, hH⟩ := exists_agree h
  obtain ⟨k, hcode⟩ := hq
  have hok := hH.code c
  rw [hcode] at hok
  obtain ⟨I, hI, hbody⟩ := hok
  have hmem := ((hH.inv.2 l c u).mp hu).1
  rw [eq_nil_of_userStep (hbody _ hI)] at hmem
  cases hmem

end Locks

/-! ## Tables -/

/-- Nothing but `nextpid` has changed. -/
structure NoTrace (s t : Kernel) : Prop where
  pages : t.mem.outstanding = s.mem.outstanding
  files : t.file = s.file
  inodes : t.inodeRef = s.inodeRef
  nodes : t.nodes = s.nodes
  used : t.used = s.used
  procs : t.proc = s.proc
  initproc : t.initproc = s.initproc
  nextpid : t.nextpid = s.nextpid ∨ t.nextpid = int32 (s.nextpid + 1)

theorem Copied.noTrace {s t : Kernel} {p : ℕ} (h : Copied s p none t) : NoTrace s t := by
  obtain ⟨hproc, hnodes, hused, hfile, hinode, hpages⟩ := h.unchanged
  refine ⟨hpages, hfile, hinode, hnodes, hused, hproc, ?_, ?_⟩
  · cases h with
    | noSlot => rfl
    | noMemory => rfl
  · cases h with
    | noSlot => exact Or.inl rfl
    | noMemory => exact Or.inr rfl

/-- The answers of the allocator to come are no trace. -/
theorem NoTrace.of_refill {s t : Kernel} {supply : List ℕ} (h : NoTrace (s.refill supply) t) :
    NoTrace s t :=
  ⟨h.pages, h.files, h.inodes, h.nodes, h.used, h.procs, h.initproc, h.nextpid⟩

/-- There is a slot for a child of `p`, and `kalloc` serves all the pages that it needs. -/
def ChildServed (s : Kernel) (p : ℕ) (supply : List ℕ) : Prop :=
  (∃ i < nproc, (s.proc i).state = .unused)
    ∧ (takePages (forkPages (pageCount (s.proc p).sz)) (s.refill supply).mem).isSome = true

section

variable {s : Kernel} {p : ℕ} {supply : List ℕ}

/-- The calls fail with what `forkCopy` leaves. -/
theorem step_fork_none {t : Kernel} :
    step s (.fork p supply) = .ok (none, t) ↔ forkCopy (s.refill supply) p = .ok (none, t) := by
  refine ⟨fork_none, fun h => ?_⟩
  show fork (s.refill supply) p = .ok (none, t)
  unfold fork
  rw [h]
  rfl

@[inherit_doc step_fork_none]
theorem step_clone_none {t : Kernel} :
    step s (.clone p supply) = .ok (none, t) ↔ forkCopy (s.refill supply) p = .ok (none, t) := by
  refine ⟨clone_none, fun h => ?_⟩
  show clone (s.refill supply) p = .ok (none, t)
  unfold clone
  rw [h]
  rfl

end

end Xv6
