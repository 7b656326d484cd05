/-
# Kernel constants and the ways a kernel function can go wrong

The constants of `kernel/riscv.h`, `kernel/memlayout.h` and `kernel/param.h` that
the modelled functions use, and the result type of every modelled function that
can fail to return: a call ends in `Except.ok` or in a `Fault`.
-/
import Mathlib

namespace Xv6

open Function

/-! ## Memory layout -/

/-- `PGSIZE`, bytes per page. -/
def pgSize : ℕ := 4096

/-- `KERNBASE`, where the kernel is loaded (`kernel.ld` starts there). -/
def kernBase : ℕ := 0x80000000

/-- `PHYSTOP`, the end of the RAM the kernel uses. -/
def physTop : ℕ := kernBase + 128 * 1024 * 1024

/-- `PGROUNDUP`: clear the low twelve bits of `sz + PGSIZE - 1`. -/
def pgRoundUp (sz : ℕ) : ℕ := (sz + pgSize - 1) / pgSize * pgSize

/-! ## Faults -/

/-- What happens instead of a return. -/
inductive Fault where
  /-- `panic(msg)`. -/
  | panic (msg : String)
  /-- A null pointer is dereferenced. -/
  | nullDeref
  /-- An array is written outside its bounds. -/
  | outOfBounds
  /-- A loop does not end. -/
  | noReturn
  deriving DecidableEq, Repr

/-- Follow a pointer that may be null. -/
def deref {α : Type} : Option α → Except Fault α
  | some a => .ok a
  | none => .error .nullDeref

@[simp] theorem deref_some {α : Type} (a : α) : deref (some a) = .ok a := rfl

@[simp] theorem deref_none {α : Type} : deref (none : Option α) = .error .nullDeref := rfl

@[simp] theorem ok_bind {α β : Type} (a : α) (f : α → Except Fault β) :
    (Except.ok a >>= f) = f a := rfl

@[simp] theorem error_bind {α β : Type} (e : Fault) (f : α → Except Fault β) :
    (Except.error e >>= f) = .error e := rfl

/-- A computation that returns made each of its steps return. -/
theorem bind_eq_ok_iff {α β : Type} {x : Except Fault α} {f : α → Except Fault β} {b : β} :
    (x >>= f) = .ok b ↔ ∃ a, x = .ok a ∧ f a = .ok b := by
  cases x with
  | error e => simp
  | ok a => simp

/-- Two steps that return one after the other. -/
theorem exists_bind_ok {α β : Type} {x : Except Fault α} {f : α → Except Fault β} {P : α → Prop}
    {Q : β → Prop} (hx : ∃ a, x = .ok a ∧ P a) (hf : ∀ a, P a → ∃ b, f a = .ok b ∧ Q b) :
    ∃ b, (x >>= f) = .ok b ∧ Q b := by
  obtain ⟨a, hxa, ha⟩ := hx
  obtain ⟨b, hfb, hb⟩ := hf a ha
  exact ⟨b, bind_eq_ok_iff.mpr ⟨a, hxa, hfb⟩, hb⟩

/-- A property that each turn of a loop keeps. -/
theorem foldlM_ok_induction {α β : Type} {f : α → β → Except Fault α} {P : α → Prop}
    (hf : ∀ a b a', f a b = .ok a' → P a → P a') {l : List β} {a a' : α}
    (h : l.foldlM f a = .ok a') (ha : P a) : P a' := by
  induction l generalizing a with
  | nil =>
    cases h
    exact ha
  | cons b l ih =>
    rw [List.foldlM_cons] at h
    obtain ⟨a₁, h₁, h⟩ := bind_eq_ok_iff.mp h
    exact ih h (hf a b a₁ h₁ ha)

/-! ## Views of a table -/

/-- A view of a table after one entry has changed. -/
theorem view_update {ι α γ : Type} [DecidableEq ι] (f : α → γ) (g : ι → α) (i : ι) (a : α) :
    (fun j => f (update g i a j)) = update (fun j => f (g j)) i (f a) :=
  comp_update f g i a

/-- A view that a change of one entry leaves alone. -/
theorem view_eq {ι α γ : Type} [DecidableEq ι] {f : α → γ} {g : ι → α} {i : ι} {a : α}
    (h : f a = f (g i)) : (fun j => f (update g i a j)) = fun j => f (g j) := by
  rw [view_update, h]
  exact update_eq_self i _

/-- An entry of a partial table after one entry has changed. -/
theorem update_eq_some {ι α : Type} [DecidableEq ι] {f : ι → Option α} {i j : ι} {x : Option α} {a : α}
    (h : update f i x j = some a) : j = i ∧ x = some a ∨ j ≠ i ∧ f j = some a := by
  by_cases hj : j = i
  · rw [hj, update_self] at h
    exact Or.inl ⟨hj, h⟩
  · rw [update_of_ne hj] at h
    exact Or.inr ⟨hj, h⟩

theorem update_none_eq_some {ι α : Type} [DecidableEq ι] {f : ι → Option α} {i j : ι} {a : α}
    (h : update f i none j = some a) : j ≠ i ∧ f j = some a := by
  rcases update_eq_some h with ⟨-, hnone⟩ | hold
  · cases hnone
  · exact hold

/-! ## Unsigned 16-bit arithmetic -/

/-- `x += y` on a `uint16`. -/
def add16 (x y : ℕ) : ℕ := (x + y) % 2 ^ 16

/-- `x -= y` on a `uint16`, for `y` at most `2 ^ 16`. -/
def sub16 (x y : ℕ) : ℕ := (x + 2 ^ 16 - y) % 2 ^ 16

theorem add16_of_lt {x y : ℕ} (h : x + y < 2 ^ 16) : add16 x y = x + y :=
  Nat.mod_eq_of_lt h

theorem sub16_of_le {x y : ℕ} (hx : x < 2 ^ 16) (h : y ≤ x) : sub16 x y = x - y := by
  unfold sub16
  omega

end Xv6
