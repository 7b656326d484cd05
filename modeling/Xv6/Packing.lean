/-
# Blocks side by side

Blocks in a stretch of addresses that do not overlap: a block is cut in two, joined with the block
behind it, taken away, or added at the end of the stretch.
-/
import Mathlib.Data.Finset.Basic
import Mathlib.Order.Nat
import Mathlib.Tactic.Common

namespace Packing

open Function

variable {B B' : Finset ℕ} {len len' : ℕ → ℕ} {lo hi a b m : ℕ}

/-- The blocks at the addresses of `B` lie in `[lo, hi)` and do not overlap. -/
structure Packed (B : Finset ℕ) (len : ℕ → ℕ) (lo hi : ℕ) : Prop where
  lower : ∀ a ∈ B, lo ≤ a
  upper : ∀ a ∈ B, a + len a ≤ hi
  pos : ∀ a ∈ B, 0 < len a
  apart : ∀ a ∈ B, ∀ b ∈ B, a < b → a + len a ≤ b

theorem packed_empty (len : ℕ → ℕ) (lo hi : ℕ) : Packed ∅ len lo hi := by
  constructor <;> simp

theorem Packed.congr (h : Packed B len lo hi) (heq : ∀ a ∈ B, len' a = len a) :
    Packed B len' lo hi where
  lower := h.lower
  upper := fun a ha => heq a ha ▸ h.upper a ha
  pos := fun a ha => heq a ha ▸ h.pos a ha
  apart := fun a ha b hb hlt => heq a ha ▸ h.apart a ha b hb hlt

/-- Different blocks do not overlap. -/
theorem Packed.disjoint (h : Packed B len lo hi) (ha : a ∈ B) (hb : b ∈ B) (hne : a ≠ b) :
    a + len a ≤ b ∨ b + len b ≤ a := by
  rcases Nat.lt_or_gt_of_ne hne with hlt | hlt
  · exact Or.inl (h.apart a ha b hb hlt)
  · exact Or.inr (h.apart b hb a ha hlt)

theorem Packed.not_mem_inside (h : Packed B len lo hi) (ha : a ∈ B) (hlt : a < b)
    (hin : b < a + len a) : b ∉ B :=
  fun hb => absurd (h.apart a ha b hb hlt) (by omega)

theorem Packed.grow (h : Packed B len lo hi) (hlo : lo ≤ hi) (hm : 0 < m) :
    Packed (insert hi B) (update len hi m) lo (hi + m) := by
  have hlt : ∀ a ∈ B, a < hi := fun a ha => by
    have := h.upper a ha
    have := h.pos a ha
    omega
  have hold : ∀ a ∈ B, update len hi m a = len a :=
    fun a ha => update_of_ne (hlt a ha).ne ..
  constructor
  · intro a ha
    rcases Finset.mem_insert.mp ha with rfl | ha
    · exact hlo
    · exact h.lower a ha
  · intro a ha
    rcases Finset.mem_insert.mp ha with rfl | ha
    · rw [update_self]
    · rw [hold a ha]
      have := h.upper a ha
      omega
  · intro a ha
    rcases Finset.mem_insert.mp ha with rfl | ha
    · rwa [update_self]
    · rw [hold a ha]
      exact h.pos a ha
  · intro a ha b hb hab
    rcases Finset.mem_insert.mp ha with rfl | haB
    · rcases Finset.mem_insert.mp hb with rfl | hb
      · exact absurd hab (lt_irrefl _)
      · exact absurd hab (hlt b hb).le.not_gt
    · rw [hold a haB]
      rcases Finset.mem_insert.mp hb with rfl | hb
      · exact h.upper a haB
      · exact h.apart a haB b hb hab

theorem Packed.join (h : Packed B len lo hi) (ha : a ∈ B) (hb : a + len a ∈ B) :
    Packed (B.erase (a + len a)) (update len a (len a + len (a + len a))) lo hi := by
  have hpos := h.pos a ha
  have hself : update len a (len a + len (a + len a)) a = len a + len (a + len a) :=
    update_self ..
  have hold : ∀ x, x ≠ a → update len a (len a + len (a + len a)) x = len x :=
    fun x hx => update_of_ne hx ..
  constructor
  · intro x hx
    exact h.lower x (Finset.mem_of_mem_erase hx)
  · intro x hx
    have hxB := Finset.mem_of_mem_erase hx
    by_cases hxa : x = a
    · rw [hxa, hself]
      have := h.upper _ hb
      omega
    · rw [hold x hxa]
      exact h.upper x hxB
  · intro x hx
    by_cases hxa : x = a
    · rw [hxa, hself]
      omega
    · rw [hold x hxa]
      exact h.pos x (Finset.mem_of_mem_erase hx)
  · intro x hx y hy hlt
    obtain ⟨hyn, hyB⟩ := Finset.mem_erase.mp hy
    by_cases hxa : x = a
    · -- the next block is behind both
      rw [hxa, hself]
      have hay := h.apart a ha y hyB (hxa ▸ hlt)
      have := h.apart _ hb y hyB (by omega)
      omega
    · rw [hold x hxa]
      exact h.apart x (Finset.mem_of_mem_erase hx) y hyB hlt

theorem Packed.cut (h : Packed B len lo hi) (ha : a ∈ B) (hm : 0 < m) (hlt : m < len a) :
    Packed (insert (a + m) B)
      (update (update len a m) (a + m) (len a - m)) lo hi := by
  have hne : a ≠ a + m := by omega
  have hnew : a + m ∉ B := h.not_mem_inside ha (by omega) (by omega)
  have hself : update (update len a m) (a + m) (len a - m) a = m := by
    rw [update_of_ne hne, update_self]
  have hcut : update (update len a m) (a + m) (len a - m) (a + m)
      = len a - m := update_self ..
  have hold : ∀ x ∈ B, x ≠ a →
      update (update len a m) (a + m) (len a - m) x = len x := by
    intro x hx hxa
    have hxm : x ≠ a + m := fun heq => hnew (heq ▸ hx)
    rw [update_of_ne hxm, update_of_ne hxa]
  have hupper := h.upper a ha
  have hlower := h.lower a ha
  constructor
  · intro x hx
    rcases Finset.mem_insert.mp hx with rfl | hx
    · omega
    · exact h.lower x hx
  · intro x hx
    rcases Finset.mem_insert.mp hx with rfl | hx
    · rw [hcut]
      omega
    · by_cases hxa : x = a
      · rw [hxa, hself]
        omega
      · rw [hold x hx hxa]
        exact h.upper x hx
  · intro x hx
    rcases Finset.mem_insert.mp hx with rfl | hx
    · rw [hcut]
      omega
    · by_cases hxa : x = a
      · rwa [hxa, hself]
      · rw [hold x hx hxa]
        exact h.pos x hx
  · intro x hx y hy hxy
    rcases Finset.mem_insert.mp hx with rfl | hx
    · rw [hcut]
      rcases Finset.mem_insert.mp hy with rfl | hy
      · omega
      · have := h.apart a ha y hy (by omega)
        omega
    · rcases Finset.mem_insert.mp hy with rfl | hy
      · by_cases hxa : x = a
        · rw [hxa, hself]
        · rw [hold x hx hxa]
          rcases h.disjoint hx ha hxa with hd | hd
          · omega
          · omega
      · have hd := h.apart x hx y hy hxy
        by_cases hxa : x = a
        · subst hxa
          rw [hself]
          omega
        · rwa [hold x hx hxa]

end Packing
