/-
# Queues in a ring with free-running counters

A ring of `cap` slots that one side fills and the other one empties.  The counters of the two
sides are not reduced modulo `cap` but wrap at a modulus `M` that `cap` divides, as fixed-width
counters do.  `contents` reads the queue off the counters; below `cap` entries, filling a slot and
advancing a counter are the queue operations, also when a counter wraps.
-/
import Mathlib

namespace RingQueue

variable {α : Type} {M cap : ℕ}

/-- The number of entries between the counters `lo` and `hi`. -/
def count (M lo hi : ℕ) : ℕ := (hi + M - lo) % M

/-- Advance a counter. -/
def next (M i : ℕ) : ℕ := (i + 1) % M

/-- The entries between the counters `lo` and `hi`, oldest first. -/
def contents (M cap : ℕ) (slot : ℕ → α) (lo hi : ℕ) : List α :=
  (List.range (count M lo hi)).map fun k => slot ((lo + k) % cap)

/-! ## Counting -/

theorem next_lt {i : ℕ} (hM : 0 < M) : next M i < M := Nat.mod_lt _ hM

theorem count_self (lo : ℕ) : count M lo lo = 0 := by
  unfold count
  rw [Nat.add_sub_cancel_left, Nat.mod_self]

theorem count_eq {lo hi : ℕ} (hlo : lo < M) (hhi : hi < M) :
    count M lo hi = if lo ≤ hi then hi - lo else hi + M - lo := by
  unfold count
  split_ifs with h
  · rw [Nat.add_comm, Nat.add_sub_assoc h, Nat.add_mod_left]
    exact Nat.mod_eq_of_lt (by omega)
  · exact Nat.mod_eq_of_lt (by omega)

theorem next_eq {i : ℕ} (hi : i < M) : next M i = if i + 1 = M then 0 else i + 1 := by
  unfold next
  split_ifs with h
  · rw [h, Nat.mod_self]
  · exact Nat.mod_eq_of_lt (by omega)

/-- Advancing the upper counter of a ring that is not full to the modulus. -/
theorem count_next_right {lo hi : ℕ} (hlo : lo < M) (hhi : hi < M) (h : count M lo hi + 1 < M) :
    count M lo (next M hi) = count M lo hi + 1 := by
  have hn : next M hi < M := next_lt (by omega)
  rw [count_eq hlo hhi] at h
  rw [count_eq hlo hhi, count_eq hlo hn, next_eq hhi]
  split_ifs at h ⊢ <;> omega

theorem count_next_left {lo hi : ℕ} (hlo : lo < M) (hhi : hi < M) (h : lo ≠ hi) :
    count M lo hi = count M (next M lo) hi + 1 := by
  have hn : next M lo < M := next_lt (by omega)
  rw [count_eq hlo hhi, count_eq hn hhi, next_eq hlo]
  split_ifs <;> omega

/-- The upper counter stands `count` slots after the lower one. -/
theorem mod_cap_eq {lo hi : ℕ} (hc : cap ∣ M) (hlo : lo < M) (hhi : hi < M) :
    hi % cap = (lo + count M lo hi) % cap := by
  obtain ⟨m, rfl⟩ := hc
  rw [count_eq hlo hhi]
  split_ifs with h
  · rw [Nat.add_sub_cancel' h]
  · have hsum : lo + (hi + cap * m - lo) = hi + cap * m := by omega
    rw [hsum, Nat.add_mul_mod_self_left]

theorem next_mod_cap (hc : cap ∣ M) (i : ℕ) : next M i % cap = (i + 1) % cap :=
  Nat.mod_mod_of_dvd _ hc

/-! ## The queue -/

variable {slot : ℕ → α} {lo hi : ℕ}

@[simp] theorem length_contents : (contents M cap slot lo hi).length = count M lo hi := by
  simp [contents]

@[simp] theorem contents_self : contents M cap slot lo lo = [] := by
  simp [contents, count_self]

/-- Filling the slot at the upper counter changes no entry, unless the ring is full. -/
theorem contents_update (hc : cap ∣ M) (hlo : lo < M) (hhi : hi < M)
    (hroom : (contents M cap slot lo hi).length < cap) (a : α) :
    contents M cap (Function.update slot (hi % cap) a) lo hi = contents M cap slot lo hi := by
  rw [length_contents] at hroom
  refine List.map_congr_left fun k hk => Function.update_of_ne ?_ a slot
  have hk : k < count M lo hi := List.mem_range.mp hk
  -- the two positions are less than `cap` apart
  rw [mod_cap_eq hc hlo hhi]
  intro heq
  have hmod : k ≡ count M lo hi [MOD cap] := Nat.ModEq.add_left_cancel' lo heq
  have hkeq := Nat.ModEq.eq_of_lt_of_lt hmod (by omega) hroom
  omega

/-- Advancing the upper counter appends the entry in its slot. -/
theorem contents_next_right (hc : cap ∣ M) (hlo : lo < M) (hhi : hi < M)
    (hroom : (contents M cap slot lo hi).length + 1 < M) :
    contents M cap slot lo (next M hi) = contents M cap slot lo hi ++ [slot (hi % cap)] := by
  rw [length_contents] at hroom
  unfold contents
  rw [count_next_right hlo hhi hroom, List.range_succ, List.map_append, List.map_singleton,
    mod_cap_eq hc hlo hhi]

theorem contents_eq_cons (hc : cap ∣ M) (hlo : lo < M) (hhi : hi < M) (h : lo ≠ hi) :
    contents M cap slot lo hi = slot (lo % cap) :: contents M cap slot (next M lo) hi := by
  unfold contents
  rw [count_next_left hlo hhi h, List.range_succ_eq_map, List.map_cons, List.map_map, Nat.add_zero]
  congr 1
  refine List.map_congr_left fun k _ => ?_
  show slot ((lo + (k + 1)) % cap) = slot ((next M lo + k) % cap)
  rw [Nat.add_mod (next M lo), next_mod_cap hc, ← Nat.add_mod, Nat.add_right_comm, Nat.add_assoc]

end RingQueue
