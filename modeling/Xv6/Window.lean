/-
# Windows of a memory

A window is a sequence of places, some of which may be missing.  `Filled` says what a memory is
after the first places of a window have been written; windows that are written one after the
other make up one window.
-/
import Mathlib.Data.Set.Function

namespace Window

variable {A β : Type} {place : ℕ → Option A} {m m' m'' : A → β} {src : ℕ → β} {r r' : ℕ}

/-- `m'` is `m` with the first `r` places of the window set to `src`. -/
structure Filled (place : ℕ → Option A) (m m' : A → β) (src : ℕ → β) (r : ℕ) : Prop where
  placed : ∀ i, i < r → ∃ a, place i = some a
  hit : ∀ i a, i < r → place i = some a → m' a = src i
  miss : ∀ a, (∀ i, i < r → place i ≠ some a) → m' a = m a

theorem Filled.zero (place : ℕ → Option A) (m : A → β) (src : ℕ → β) : Filled place m m src 0 where
  placed := fun _ hi => absurd hi (Nat.not_lt_zero _)
  hit := fun _ _ hi => absurd hi (Nat.not_lt_zero _)
  miss := fun _ _ => rfl

/-- No place occurs twice among the first `n`. -/
def Once (place : ℕ → Option A) (n : ℕ) : Prop :=
  ∀ i j a, i < n → j < n → place i = some a → place j = some a → i = j

/-- **Windows are appended.** -/
theorem Filled.append (h : Filled place m m' src r)
    (h' : Filled (fun i => place (r + i)) m' m'' (fun i => src (r + i)) r')
    (honce : Once place (r + r')) : Filled place m m'' src (r + r') where
  placed := by
    intro i hi
    by_cases hr : i < r
    · exact h.placed i hr
    · obtain ⟨a, ha⟩ := h'.placed (i - r) (by omega)
      exact ⟨a, by rwa [show r + (i - r) = i by omega] at ha⟩
  hit := by
    intro i a hi ha
    by_cases hr : i < r
    · -- the second window does not come back to the place
      rw [h'.miss a fun j hj hja => ?_]
      · exact h.hit i a hr ha
      · have := honce i (r + j) a hi (by omega) ha hja
        omega
    · have hsplit : r + (i - r) = i := by omega
      have hhit := h'.hit (i - r) a (by omega) (by rwa [hsplit])
      rwa [hsplit] at hhit
  miss := by
    intro a ha
    rw [h'.miss a fun j hj => ha (r + j) (by omega)]
    exact h.miss a fun i hi => ha i (by omega)

theorem Filled.congr {place' : ℕ → Option A} {src' : ℕ → β} (h : Filled place m m' src r)
    (hplace : ∀ i, i < r → place' i = place i) (hsrc : ∀ i, i < r → src' i = src i) :
    Filled place' m m' src' r where
  placed := fun i hi => by
    rw [hplace i hi]
    exact h.placed i hi
  hit := fun i a hi ha => by
    rw [hsrc i hi]
    exact h.hit i a hi (by rwa [← hplace i hi])
  miss := fun a ha => h.miss a fun i hi => by
    rw [← hplace i hi]
    exact ha i hi

end Window
