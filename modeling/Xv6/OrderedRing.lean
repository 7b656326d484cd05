/-
# Rings of nodes in order

A finite set of nodes, each with a successor: the next larger node, or the smallest one for the
largest.  Nodes are linked in and unlinked by changing one or two successors (`Ring.link`,
`Ring.unlink`), and following the successors from any node leads to every other one
(`Ring.exists_iterate`).
-/
import Mathlib.Data.Finset.Max
import Mathlib.Logic.Function.Iterate
import Mathlib.Tactic.Common

namespace OrderedRing

open Function

variable {α : Type} [LinearOrder α] {F : Finset α} {next next' : α → α} {a b f p : α}

/-- The successors of the nodes of `F` go round in order. -/
structure Ring (F : Finset α) (next : α → α) : Prop where
  next_mem : ∀ a ∈ F, next a ∈ F
  /-- No node is between a node and its successor. -/
  gap : ∀ a ∈ F, ∀ b ∈ F, a < b → next a ≤ b
  /-- Only the largest node has a successor that is not larger, and that is the smallest. -/
  wrap : ∀ a ∈ F, next a ≤ a → ∀ b ∈ F, b ≤ a ∧ next a ≤ b

theorem ring_singleton (a : α) : Ring {a} fun _ => a where
  next_mem := fun _ _ => Finset.mem_singleton_self a
  gap := by
    intro x hx y hy hlt
    rw [Finset.mem_singleton.mp hx, Finset.mem_singleton.mp hy] at hlt
    exact absurd hlt (lt_irrefl a)
  wrap := by
    intro x hx _ y hy
    rw [Finset.mem_singleton.mp hx, Finset.mem_singleton.mp hy]
    exact ⟨le_rfl, le_rfl⟩

theorem Ring.congr (h : Ring F next) (heq : ∀ a ∈ F, next' a = next a) : Ring F next' where
  next_mem := fun a ha => heq a ha ▸ h.next_mem a ha
  gap := fun a ha b hb hlt => heq a ha ▸ h.gap a ha b hb hlt
  wrap := fun a ha hle b hb => heq a ha ▸ h.wrap a ha (heq a ha ▸ hle) b hb

/-- The place of a new node: behind `p`. -/
def Place (next : α → α) (b p : α) : Prop :=
  p < b ∧ b < next p ∨ next p ≤ p ∧ (p < b ∨ b < next p)

instance (next : α → α) (b p : α) : Decidable (Place next b p) :=
  inferInstanceAs (Decidable (_ ∨ _))

/-- A node has its place behind the largest smaller one. -/
theorem Ring.exists_place (h : Ring F next) (hb : b ∉ F) (ha : a ∈ F) (hab : a < b) :
    ∃ p ∈ F, p < b ∧ Place next b p := by
  obtain ⟨p, hp, hmax⟩ := (F.filter (· < b)).exists_max_image id ⟨a, by simp [ha, hab]⟩
  obtain ⟨hpF, hpb⟩ := Finset.mem_filter.mp hp
  refine ⟨p, hpF, hpb, ?_⟩
  rcases le_or_gt (next p) p with hdown | hup
  · exact Or.inr ⟨hdown, Or.inl hpb⟩
  · left
    refine ⟨hpb, lt_of_le_of_ne (not_lt.mp fun hlt => ?_) fun heq => hb (heq ▸ h.next_mem p hpF)⟩
    exact absurd hup (not_lt.mpr (hmax _ (Finset.mem_filter.mpr ⟨h.next_mem p hpF, hlt⟩)))

/-- A new node lies as its place says with respect to the other nodes. -/
theorem Ring.place_cases (h : Ring F next) (hp : p ∈ F) (hplace : Place next b p) :
    (p < b ∧ b < next p) ∨ (p < b ∧ ∀ x ∈ F, x ≤ p ∧ next p ≤ x)
      ∨ (b < next p ∧ next p ≤ p ∧ ∀ x ∈ F, x ≤ p ∧ next p ≤ x) := by
  rcases hplace with hbetween | ⟨hwrap, hlarge | hsmall⟩
  · exact Or.inl hbetween
  · exact Or.inr (Or.inl ⟨hlarge, h.wrap p hp hwrap⟩)
  · exact Or.inr (Or.inr ⟨hsmall, hwrap, h.wrap p hp hwrap⟩)

/-- **Linking a node** behind its place. -/
theorem Ring.link (h : Ring F next) (hp : p ∈ F) (hb : b ∉ F) (hplace : Place next b p) :
    Ring (insert b F) (update (update next b (next p)) p b) := by
  have hpb : p ≠ b := fun heq => hb (heq ▸ hp)
  have hself : update (update next b (next p)) p b p = b :=
    update_self ..
  have hnew : update (update next b (next p)) p b b = next p := by
    rw [update_of_ne hpb.symm, update_self]
  have hold : ∀ x ∈ F, x ≠ p →
      update (update next b (next p)) p b x = next x := by
    intro x hx hxp
    have hxb : x ≠ b := fun heq => hb (heq ▸ hx)
    rw [update_of_ne hxp, update_of_ne hxb]
  have hcases := h.place_cases hp hplace
  have hpgap := h.gap p hp
  constructor
  · intro x hx
    rw [Finset.mem_insert] at hx ⊢
    by_cases hxp : x = p
    · rw [hxp, hself]
      exact Or.inl rfl
    · rcases hx with rfl | hx
      · rw [hnew]
        exact Or.inr (h.next_mem p hp)
      · rw [hold x hx hxp]
        exact Or.inr (h.next_mem x hx)
  · intro x hx y hy hlt
    rw [Finset.mem_insert] at hx hy
    by_cases hxp : x = p
    · rw [hxp, hself]
      grind
    · rcases hx with rfl | hx
      · rw [hnew]
        grind
      · rw [hold x hx hxp]
        have hxgap := h.gap x hx
        grind
  · intro x hx hle y hy
    rw [Finset.mem_insert] at hx hy
    by_cases hxp : x = p
    · rw [hxp, hself] at hle ⊢
      grind
    · rcases hx with rfl | hx
      · rw [hnew] at hle ⊢
        grind
      · rw [hold x hx hxp] at hle ⊢
        have hxwrap := h.wrap x hx hle
        grind

theorem Ring.next_inj (h : Ring F next) (ha : a ∈ F) (hb : b ∈ F) (heq : next a = next b) :
    a = b := by
  rcases lt_trichotomy a b with hlt | rfl | hlt
  · have hab := h.gap a ha b hb hlt
    have hwrap := h.wrap b hb (heq ▸ hab)
    exact absurd hlt (not_lt.mpr (h.wrap a ha (heq ▸ (hwrap a ha).2) b hb).1)
  · rfl
  · have hba := h.gap b hb a ha hlt
    have hwrap := h.wrap a ha (heq ▸ hba)
    exact absurd hlt (not_lt.mpr (h.wrap b hb (heq ▸ (hwrap b hb).2) a ha).1)

theorem Ring.eq_of_next_eq (h : Ring F next) (ha : a ∈ F) (hself : next a = a) (hb : b ∈ F) :
    b = a :=
  le_antisymm (h.wrap a ha hself.le b hb).1 (hself ▸ (h.wrap a ha hself.le b hb).2)

theorem Ring.unlink (h : Ring F next) (hp : p ∈ F) (hne : next p ≠ p) :
    Ring (F.erase (next p)) (update next p (next (next p))) := by
  have hn := h.next_mem p hp
  have hself : update next p (next (next p)) p = next (next p) := update_self ..
  have hold : ∀ x, x ≠ p → update next p (next (next p)) x = next x :=
    fun x hx => update_of_ne hx ..
  have hpgap := h.gap p hp
  have hpwrap := h.wrap p hp
  have hngap := h.gap (next p) hn
  have hnwrap := h.wrap (next p) hn
  constructor
  · intro x hx
    obtain ⟨hxn, hxF⟩ := Finset.mem_erase.mp hx
    by_cases hxp : x = p
    · rw [hxp, hself, Finset.mem_erase]
      exact ⟨fun heq => hne.symm (h.eq_of_next_eq hn heq hp), h.next_mem _ hn⟩
    · rw [hold x hxp, Finset.mem_erase]
      exact ⟨fun heq => hxp (h.next_inj hxF hp heq), h.next_mem x hxF⟩
  · intro x hx y hy hlt
    obtain ⟨hxn, hxF⟩ := Finset.mem_erase.mp hx
    obtain ⟨hyn, hyF⟩ := Finset.mem_erase.mp hy
    by_cases hxp : x = p
    · rw [hxp, hself]
      grind
    · rw [hold x hxp]
      exact h.gap x hxF y hyF hlt
  · intro x hx hle y hy
    obtain ⟨hxn, hxF⟩ := Finset.mem_erase.mp hx
    obtain ⟨hyn, hyF⟩ := Finset.mem_erase.mp hy
    by_cases hxp : x = p
    · rw [hxp, hself] at hle ⊢
      rcases le_or_gt (next p) p with hdown | hup
      · -- the smallest node goes
        have hy := hpwrap hdown y hyF
        exact ⟨hy.1, hngap y hyF (lt_of_le_of_ne hy.2 hyn.symm)⟩
      · -- the largest node goes
        have hy := hnwrap (hle.trans hup.le) y hyF
        exact ⟨not_lt.mp fun hpy => hyn (le_antisymm hy.1 (hpgap y hyF hpy)), hy.2⟩
    · rw [hold x hxp] at hle ⊢
      exact h.wrap x hxF hle y hyF

/-! ## Going round -/

/-- From a node up to a larger one. -/
theorem Ring.climb (h : Ring F next) (ha : a ∈ F) (hb : b ∈ F) (hab : a ≤ b) :
    ∃ k ≤ (F.filter fun x => a < x ∧ x ≤ b).card, next^[k] a = b := by
  induction hn : (F.filter fun x => a < x ∧ x ≤ b).card using Nat.strong_induction_on
    generalizing a with
  | _ n ih =>
    rcases hab.eq_or_lt with rfl | hlt
    · exact ⟨0, Nat.zero_le n, rfl⟩
    · -- the successor is a node nearer to `b`
      have hup : a < next a := by
        by_contra hle
        exact absurd hlt (not_lt.mpr (h.wrap a ha (not_lt.mp hle) b hb).1)
      have hnb := h.gap a ha b hb hlt
      have hcard : (F.filter fun x => next a < x ∧ x ≤ b).card < n := by
        rw [← hn]
        apply Finset.card_lt_card
        rw [Finset.ssubset_iff_of_subset]
        · exact ⟨next a, by simp [h.next_mem a ha, hup, hnb], by simp⟩
        · intro x hx
          simp only [Finset.mem_filter] at hx ⊢
          exact ⟨hx.1, hup.trans hx.2.1, hx.2.2⟩
      obtain ⟨k, hk, hend⟩ := ih _ hcard (h.next_mem a ha) hnb rfl
      exact ⟨k + 1, by omega, hend⟩

theorem Ring.exists_iterate (h : Ring F next) (ha : a ∈ F) (hb : b ∈ F) :
    ∃ k ≤ 2 * F.card + 1, next^[k] a = b := by
  -- up to the largest node, to the smallest, and up from there
  obtain ⟨top, htop, hmax⟩ := F.exists_max_image id ⟨a, ha⟩
  have hdown : next top ≤ top := hmax _ (h.next_mem top htop)
  obtain ⟨k, hk, hend⟩ := h.climb ha htop (hmax a ha)
  obtain ⟨l, hl, hend'⟩ := h.climb (h.next_mem top htop) hb (h.wrap top htop hdown b hb).2
  refine ⟨l + 1 + k, ?_, ?_⟩
  · have := hk.trans (Finset.card_filter_le ..)
    have := hl.trans (Finset.card_filter_le ..)
    omega
  · rw [iterate_add_apply, hend, iterate_succ_apply, hend']

/-- From behind `f` every node is reached before `f` is passed. -/
theorem Ring.exists_iterate_before (h : Ring F next) (hf : f ∈ F) (ha : a ∈ F) :
    ∃ k ≤ 2 * F.card + 1, next^[k] (next f) = a ∧ ∀ j < k, next^[j] (next f) ≠ f := by
  have hex : ∃ k, next^[k] (next f) = a := by
    obtain ⟨k, -, hk⟩ := h.exists_iterate (h.next_mem f hf) ha
    exact ⟨k, hk⟩
  refine ⟨Nat.find hex, ?_, Nat.find_spec hex, fun j hj hjf => ?_⟩
  · obtain ⟨k, hk, hend⟩ := h.exists_iterate (h.next_mem f hf) ha
    exact (Nat.find_min' hex hend).trans hk
  · -- from `f` on the way starts again
    obtain ⟨d, hd⟩ := Nat.exists_eq_add_of_lt hj
    have hend := Nat.find_spec hex
    rw [hd, show j + d + 1 = d + 1 + j by omega, iterate_add_apply, hjf,
      iterate_succ_apply] at hend
    exact Nat.find_min hex (by omega) hend

end OrderedRing
