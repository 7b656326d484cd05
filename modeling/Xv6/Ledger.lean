/-
# Ledgers

Accounts that are kept exactly.  What is handed out is a multiset, written as a sum of
what each holder has; a step moves something from one account to another, and the sum
stays.  As the multiset that is handed out has no duplicates, nothing is in two
accounts, and nothing is twice in one.

Nothing here is about pages or processes: the holders are the indices of a finite sum,
and the things they hold are of any type.
-/
import Mathlib

namespace Ledger

variable {ι α β ε σ : Type*}

theorem sum_update [DecidableEq ι] [AddCommMonoid β] {s : Finset ι} {i : ι} (hi : i ∈ s)
    (f : ι → α) (g : α → β) (x : α) :
    ∑ j ∈ s, g (Function.update f i x j) + g (f i) = ∑ j ∈ s, g (f j) + g x := by
  have hrest : ∑ j ∈ s.erase i, g (Function.update f i x j) = ∑ j ∈ s.erase i, g (f j) := by
    refine Finset.sum_congr rfl fun j hj => ?_
    rw [Function.update_of_ne (Finset.ne_of_mem_erase hj)]
  rw [← Finset.add_sum_erase s (fun j => g (Function.update f i x j)) hi,
    ← Finset.add_sum_erase s (fun j => g (f j)) hi, hrest, Function.update_self]
  abel

theorem nodup_left {a b : Multiset α} (h : (a + b).Nodup) : a.Nodup :=
  Multiset.nodup_of_le (Multiset.le_add_right a b) h

theorem nodup_right {a b : Multiset α} (h : (a + b).Nodup) : b.Nodup :=
  Multiset.nodup_of_le (Multiset.le_add_left b a) h

/-- Nothing is in two accounts. -/
theorem not_mem_both {a b : Multiset α} (h : (a + b).Nodup) {x : α} (ha : x ∈ a) : x ∉ b :=
  fun hb => Multiset.disjoint_left.mp (Multiset.nodup_add.mp h).2.2 ha hb

theorem mem_sum_of_mem {s : Finset ι} {g : ι → Multiset α} {i : ι} (hi : i ∈ s) {x : α}
    (hx : x ∈ g i) : x ∈ ∑ j ∈ s, g j :=
  Multiset.mem_sum.mpr ⟨i, hi, hx⟩

/-- Each thing has one holder. -/
theorem eq_of_mem [DecidableEq ι] {s : Finset ι} {g : ι → Multiset α} (h : (∑ j ∈ s, g j).Nodup)
    {i j : ι} (hi : i ∈ s) (hj : j ∈ s) {x : α} (hxi : x ∈ g i) (hxj : x ∈ g j) : i = j := by
  by_contra hne
  rw [← Finset.add_sum_erase s g hi] at h
  exact not_mem_both h hxi (mem_sum_of_mem (Finset.mem_erase.mpr ⟨Ne.symm hne, hj⟩) hxj)

theorem nodup_of_mem [DecidableEq ι] {s : Finset ι} {g : ι → Multiset α}
    (h : (∑ j ∈ s, g j).Nodup) {i : ι} (hi : i ∈ s) : (g i).Nodup := by
  rw [← Finset.add_sum_erase s g hi] at h
  exact nodup_left h

/-- A loop each turn of which settles the account of one index. -/
theorem foldlM_settle {a : σ → Multiset α} {f : σ → ι → Except ε σ} {g : ι → Multiset α}
    (hf : ∀ i s s' B, a s = B + g i → f s i = .ok s' → a s' = B) {l : List ι} {s s' : σ}
    {B : Multiset α} (h : a s = B + (l.map g).sum) (hrun : l.foldlM f s = .ok s') :
    a s' = B := by
  induction l generalizing s with
  | nil =>
    obtain rfl : s = s' := Except.ok.inj hrun
    simpa using h
  | cons i l ih =>
    rw [List.foldlM_cons] at hrun
    cases hi : f s i with
    | error e =>
      rw [hi] at hrun
      cases hrun
    | ok s₁ =>
      rw [hi] at hrun
      refine ih (hf i s s₁ _ ?_ hi) hrun
      rw [h, List.map_cons, List.sum_cons]
      abel

theorem sum_map_range (g : ℕ → Multiset α) (n : ℕ) :
    ((List.range n).map g).sum = ∑ i ∈ Finset.range n, g i :=
  (Multiset.sum_coe _).symm

end Ledger
