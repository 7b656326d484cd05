/-
# Outcomes of a computation that may fail

`Outcome bad Q x` says of a computation `x` that it does not fail in a bad way, and that what it
returns satisfies `Q`.  The other failures are allowed, and nothing is said of them.  The rules
follow the ways computations are put together.
-/
import Mathlib.Logic.Basic

/-- The computation returns a value for which `Q` holds, or fails in a way that is not bad. -/
def Outcome {ε α : Type} (bad : ε → Prop) (Q : α → Prop) : Except ε α → Prop
  | .ok a => Q a
  | .error e => ¬ bad e

namespace Outcome

variable {ε α β : Type} {bad : ε → Prop} {Q : α → Prop} {R : β → Prop} {x : Except ε α}

@[simp] theorem ok_iff {a : α} : Outcome bad Q (.ok a) ↔ Q a := Iff.rfl

@[simp] theorem error_iff {e : ε} : Outcome bad Q (.error e) ↔ ¬ bad e := Iff.rfl

theorem mono {Q' : α → Prop} (h : Outcome bad Q x) (himp : ∀ a, Q a → Q' a) :
    Outcome bad Q' x := by
  cases x with
  | error e => exact h
  | ok a => exact himp a h

theorem of_ok {a : α} (h : Outcome bad Q x) (hx : x = .ok a) : Q a := by
  rw [hx] at h
  exact h

/-- **One computation after another.** -/
theorem bind {f : α → Except ε β} (h : Outcome bad Q x) (hf : ∀ a, Q a → Outcome bad R (f a)) :
    Outcome bad R (x >>= f) := by
  cases x with
  | error e => exact h
  | ok a => exact hf a h

end Outcome
