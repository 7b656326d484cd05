/-
# Numbers that are handed out once

Slots hold numbers, where `0` stands for none; a map has a bit for each number.  The books are
exact if no number is in two slots and the bits say which numbers are in a slot, apart from some
that are reserved and never handed out.  Nothing here is about disks: the slots are of any type.
-/
import Mathlib.Logic.Function.Basic
import Mathlib.Order.Nat

namespace Owned

open Function

variable {S : Type}

/-- No number is in two slots, and the marked numbers are those in a slot and the reserved ones. -/
structure Exact (ref : S → ℕ) (bit : ℕ → Bool) (reserved : ℕ → Prop) : Prop where
  once : ∀ x y, ref x ≠ 0 → ref x = ref y → x = y
  marked : ∀ b, bit b = true ↔ reserved b ∨ (b ≠ 0 ∧ ∃ x, ref x = b)
  apart : ∀ x, ref x ≠ 0 → ¬ reserved (ref x)

namespace Exact

variable {ref : S → ℕ} {bit : ℕ → Bool} {reserved : ℕ → Prop} {x y : S} {b : ℕ}

/-- A number in a slot is marked. -/
theorem bit_ref (h : Exact ref bit reserved) (hx : ref x ≠ 0) : bit (ref x) = true :=
  (h.marked _).mpr (Or.inr ⟨hx, x, rfl⟩)

theorem ref_ne (h : Exact ref bit reserved) (hb : bit b = false) (hx : ref x ≠ 0) :
    ref x ≠ b := by
  rintro rfl
  rw [h.bit_ref hx] at hb
  cases hb

/-- The slots of two different numbers. -/
theorem ref_ne_ref (h : Exact ref bit reserved) (hx : ref x ≠ 0) (hne : x ≠ y) : ref x ≠ ref y :=
  fun heq => hne (h.once x y hx heq)

variable [DecidableEq S]

/-- **A number is handed out** to an empty slot. -/
theorem take (h : Exact ref bit reserved) (hb : bit b = false) (h0 : b ≠ 0) (hx : ref x = 0) :
    Exact (update ref x b) (update bit b true) reserved where
  once := by
    intro y z hy heq
    by_cases hyx : y = x <;> by_cases hzx : z = x
    · rw [hyx, hzx]
    · subst hyx
      rw [update_self, update_of_ne hzx] at heq
      exact absurd heq.symm (h.ref_ne hb (by omega))
    · subst hzx
      rw [update_self, update_of_ne hyx] at heq
      exact absurd heq (h.ref_ne hb (by omega))
    · rw [update_of_ne hyx] at hy heq
      rw [update_of_ne hzx] at heq
      exact h.once y z hy heq
  marked := by
    intro c
    by_cases hc : c = b
    · subst hc
      rw [update_self]
      exact ⟨fun _ => Or.inr ⟨h0, x, update_self ..⟩, fun _ => rfl⟩
    · rw [update_of_ne hc, h.marked]
      apply or_congr_right
      apply and_congr_right
      intro hc0
      constructor
      · rintro ⟨y, rfl⟩
        refine ⟨y, update_of_ne ?_ ..⟩
        rintro rfl
        exact hc0 hx
      · rintro ⟨y, hy⟩
        by_cases hyx : y = x
        · rw [hyx, update_self] at hy
          exact absurd hy.symm hc
        · rw [update_of_ne hyx] at hy
          exact ⟨y, hy⟩
  apart := by
    intro y hy
    by_cases hyx : y = x
    · rw [hyx, update_self]
      intro hres
      rw [(h.marked b).mpr (Or.inl hres)] at hb
      cases hb
    · rw [update_of_ne hyx] at hy ⊢
      exact h.apart y hy

end Exact

end Owned
