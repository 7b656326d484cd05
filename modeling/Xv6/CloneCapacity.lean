/-
# The capacities of `clone`

A new namespace needs a node of the pool and one more entry of `namespace_pids`.  `clone`
looks at neither: where it gets a slot and the memory for a child but there is no room
for a namespace, it follows a null pointer or writes behind the end of the array
(`clone_faults`, `clone_overflows`).  In all other calls it returns, and where there is
no room it has returned `-1` before it came to the namespace (`clone_within_capacity`).
-/
import Xv6.KernelInv
import Xv6.ForkCost

namespace Xv6

instance (s : Kernel) (p : ℕ) : Decidable (CloneRoom s p) :=
  inferInstanceAs (Decidable ((∃ i, i < nnmnd ∧ s.used i = false)
    ∧ ∀ n ∈ (s.proc p).node, (s.nodes n).depth + 1 < npids))

/-- A call of `clone` that has room for a namespace, or has no slot or too little memory for a
child. -/
def CloneFits (s : Kernel) (p : ℕ) (supply : List ℕ) : Prop :=
  (∃ i < nproc, (s.proc i).state = .unused) →
    (takePages (forkPages (pageCount (s.proc p).sz)) (s.refill supply).mem).isSome = true →
    CloneRoom s p

instance (s : Kernel) (p : ℕ) (supply : List ℕ) : Decidable (CloneFits s p supply) :=
  inferInstanceAs (Decidable (_ → _ → _))

/-- What a failed `fork` or `clone` leaves alone. -/
theorem Copied.unchanged {s t : Kernel} {p : ℕ} (h : Copied s p none t) :
    t.proc = s.proc ∧ t.nodes = s.nodes ∧ t.used = s.used ∧ t.file = s.file
      ∧ t.inodeRef = s.inodeRef ∧ t.mem.outstanding = s.mem.outstanding := by
  cases h with
  | noSlot => exact ⟨rfl, rfl, rfl, rfl, rfl, rfl⟩
  | noMemory _ _ _ hout => exact ⟨rfl, rfl, rfl, rfl, rfl, hout⟩

/-- A child means that there was a slot and that all pages were served. -/
theorem Copied.served {s t : Kernel} {p np : ℕ} (h : Copied s p (some np) t)
    (hrun : forkCopy s p = .ok (some np, t)) :
    (∃ i < nproc, (s.proc i).state = .unused)
      ∧ (takePages (forkPages (pageCount (s.proc p).sz)) s.mem).isSome = true := by
  obtain ⟨hnp, hunused, -⟩ := h.child_slot
  exact ⟨⟨np, hnp, hunused⟩, (forkCopy_isSome ⟨np, hnp, hunused⟩ hrun).symm⟩

/-- **`clone` respects its capacities** in the calls that fit: it returns, so it neither follows
a null node nor writes outside of `namespace_pids`, and where there is no room for a
namespace it returns `-1` and leaves the process table, the nodes, the reference counts
and the allocated pages as they were. -/
theorem clone_within_capacity {n : ℕ} {s : Kernel} (h : Reach (fun _ _ => True) n s) {p : ℕ}
    {supply : List ℕ} (he : Enabled s (.clone p supply)) (hfits : CloneFits s p supply) :
    ∃ r t, step s (.clone p supply) = .ok (r, t)
      ∧ (¬ CloneRoom s p → r = none ∧ t.proc = s.proc ∧ t.nodes = s.nodes ∧ t.used = s.used
        ∧ t.file = s.file ∧ t.inodeRef = s.inodeRef ∧ t.mem.outstanding = s.mem.outstanding) := by
  obtain ⟨r, u, hcopyrun, hcopy, hnone, hsome⟩ := clone_spec (h.inv.refill supply) he.1 he.2
  cases r with
  | none => exact ⟨none, u, hnone rfl, fun _ => ⟨rfl, hcopy.unchanged⟩⟩
  | some np =>
    obtain ⟨hslot, hserved⟩ := hcopy.served hcopyrun
    have hroom : CloneRoom s p := hfits hslot hserved
    obtain ⟨t, hrun, -⟩ := (hsome np rfl).1 hroom
    exact ⟨some np, t, hrun, fun hno => absurd hroom hno⟩

/-- Seven processes, each in a namespace below that of the one before. -/
def nestedClones : List Event :=
  (List.range 7).flatMap fun k => [.dispatch k, .clone k (tenPages (k + 1))]

/-- At depth 7 there is no room, and without memory `clone` returns `-1`. -/
theorem clone_within_capacity_full :
    ∃ n s, Reach (fun _ _ => True) n s ∧ ¬ CloneRoom s 7
      ∧ ∃ t, step s (.clone 7 []) = .ok (none, t) ∧ t.proc = s.proc ∧ t.nodes = s.nodes := by
  obtain ⟨n, s, hreach, hcheck⟩ := reach_of_run (fun _ _ => true) (fun _ _ _ => trivial)
    (nestedClones ++ [.dispatch 7])
    (fun x => Enabled x.2 (.clone 7 []) ∧ CloneFits x.2 7 [] ∧ ¬ CloneRoom x.2 7)
    (by decide +kernel)
  obtain ⟨he, hfits, hroom⟩ := of_decide_eq_true hcheck
  obtain ⟨r, t, hrun, hno⟩ := clone_within_capacity hreach he hfits
  obtain ⟨rfl, hproc, hnodes, -⟩ := hno hroom
  exact ⟨n, s, hreach, hroom, t, hrun, hproc, hnodes⟩

/-- **The calls that do not fit** go wrong. -/
theorem clone_faults {n : ℕ} {s : Kernel} (h : Reach (fun _ _ => True) n s) {p : ℕ}
    {supply : List ℕ} (he : Enabled s (.clone p supply)) (hfits : ¬ CloneFits s p supply) :
    step s (.clone p supply) = .error .nullDeref ∨ step s (.clone p supply) = .error .outOfBounds := by
  unfold CloneFits at hfits
  push Not at hfits
  obtain ⟨hslot, hserved, hroom⟩ := hfits
  obtain ⟨r, u, hcopyrun, hcopy, -, hsome⟩ := clone_spec (h.inv.refill supply) he.1 he.2
  have hslot' : ∃ i < nproc, ((s.refill supply).proc i).state = .unused := hslot
  have hr : r.isSome = true := (forkCopy_isSome hslot' hcopyrun).trans hserved
  obtain ⟨np, rfl⟩ := Option.isSome_iff_exists.mp hr
  exact (hsome np rfl).2 hroom

/-- The fault that a call ends in. -/
def faultOf {α : Type} : Except Fault α → Option Fault
  | .error f => some f
  | .ok _ => none

theorem eq_error_of_faultOf {α : Type} {x : Except Fault α} {f : Fault} (h : faultOf x = some f) :
    x = .error f := by
  cases x with
  | error e => exact congrArg Except.error (Option.some.inj h)
  | ok a => cases h

/-- **An overflow**: after seven nested calls of `clone` an eighth one writes `namespace_pids[8]`. -/
theorem clone_overflows :
    ∃ n s, Reach (fun _ _ => True) n s ∧ Enabled s (.clone 7 (tenPages 8))
      ∧ step s (.clone 7 (tenPages 8)) = .error .outOfBounds := by
  obtain ⟨n, s, hreach, hcheck⟩ := reach_of_run (fun _ _ => true) (fun _ _ _ => trivial)
    (nestedClones ++ [.dispatch 7])
    (fun x => Enabled x.2 (.clone 7 (tenPages 8))
      ∧ faultOf (step x.2 (.clone 7 (tenPages 8))) = some .outOfBounds) (by decide +kernel)
  obtain ⟨he, hfault⟩ := of_decide_eq_true hcheck
  exact ⟨n, s, hreach, he, eq_error_of_faultOf hfault⟩

end Xv6
