/-
# Doubly linked rings

Nodes with two links each, and a ring of them through a sentinel.  A ring is described by the list
of its nodes in the order of the forward links; the backward links lead through the same list from
its end.  A node is taken out with `unlink` and put behind the sentinel with `push`, two assignments
and four.
-/
import Mathlib.Data.List.Nodup
import Mathlib.Logic.Function.Basic
import Mathlib.Tactic.Common

namespace LinkedRing

open Function

variable {α : Type} {f g : α → α} {h x y z : α} {l l₁ l₂ : List α}

/-! ## Paths -/

/-- The link `f` leads from `x` through the nodes of `l` to `y`. -/
def Path (f : α → α) : α → List α → α → Prop
  | x, [], y => f x = y
  | x, a :: l, y => f x = a ∧ Path f a l y

theorem path_append : Path f x (l₁ ++ y :: l₂) z ↔ Path f x l₁ y ∧ Path f y l₂ z := by
  induction l₁ generalizing x with
  | nil => rfl
  | cons a l ih =>
    show f x = a ∧ Path f a (l ++ y :: l₂) z ↔ (f x = a ∧ Path f a l y) ∧ Path f y l₂ z
    rw [ih, and_assoc]

theorem Path.congr (hp : Path f x l y) (heq : ∀ z ∈ x :: l, g z = f z) : Path g x l y := by
  induction l generalizing x with
  | nil => exact (heq x List.mem_cons_self).trans hp
  | cons a l ih =>
    refine ⟨(heq x List.mem_cons_self).trans hp.1, ih hp.2 fun z hz => ?_⟩
    exact heq z (List.mem_cons_of_mem x hz)

/-- The first node of a path. -/
theorem Path.eq_head (hp : Path f x l y) : f x = (l ++ [y]).head (by simp) := by
  cases l with
  | nil => exact hp
  | cons a l => exact hp.1

variable [DecidableEq α]

/-- **Cutting a node out of a path.**  The node before `x` gets the link of `x`. -/
theorem Path.cut (hp : Path f h (l₁ ++ x :: l₂) y) (hnodup : (h :: (l₁ ++ x :: l₂)).Nodup) :
    Path (update f ((h :: l₁).getLast (by simp)) (f x)) h (l₁ ++ l₂) y := by
  induction l₁ generalizing h with
  | nil =>
    -- `h` is the node before `x`
    obtain ⟨-, hp⟩ := path_append.mp hp
    have hkeep : ∀ z ∈ l₂, update f h (f x) z = f z := by
      intro z hz
      apply update_of_ne
      rintro rfl
      simp [hz] at hnodup
    cases l₂ with
    | nil =>
      show update f h (f x) h = y
      rw [update_self]
      exact hp
    | cons a l =>
      refine ⟨?_, hp.2.congr hkeep⟩
      show update f h (f x) h = a
      rw [update_self]
      exact hp.1
  | cons a l ih =>
    have hlast : (h :: a :: l).getLast (by simp) = (a :: l).getLast (by simp) :=
      List.getLast_cons (by simp)
    have hne : h ≠ (a :: l).getLast (by simp) := by
      intro heq
      have hmem : h ∈ a :: l := heq ▸ List.getLast_mem (by simp)
      exact (List.nodup_cons.mp hnodup).1 (List.mem_append_left _ hmem)
    rw [hlast]
    refine ⟨?_, ih hp.2 (List.nodup_cons.mp hnodup).2⟩
    rw [update_of_ne hne]
    exact hp.1

/-! ## Links -/

/-- The links of all nodes. -/
structure Links (α : Type) where
  next : α → α
  prev : α → α

namespace Links

/-- `x->next = y`. -/
def setNext (k : Links α) (x y : α) : Links α := { k with next := update k.next x y }

/-- `x->prev = y`. -/
def setPrev (k : Links α) (x y : α) : Links α := { k with prev := update k.prev x y }

/-- Take the node `x` out. -/
def unlink (k : Links α) (x : α) : Links α :=
  let k := k.setPrev (k.next x) (k.prev x)
  k.setNext (k.prev x) (k.next x)

/-- Put the node `x` behind `h`. -/
def push (k : Links α) (h x : α) : Links α :=
  let k := k.setNext x (k.next h)
  let k := k.setPrev x h
  let k := k.setPrev (k.next h) x
  k.setNext h x

end Links

variable {k : Links α}

/-- The ring through `h` and the nodes of `l`. -/
structure Ring (k : Links α) (h : α) (l : List α) : Prop where
  nodup : (h :: l).Nodup
  next : Path k.next h l h
  prev : Path k.prev h l.reverse h

omit [DecidableEq α] in
theorem Ring.self (h : α) : Ring ⟨fun _ => h, fun _ => h⟩ h [] where
  nodup := List.nodup_singleton h
  next := rfl
  prev := rfl

omit [DecidableEq α] in
theorem Ring.prev_append (hr : Ring k h (l₁ ++ x :: l₂)) :
    Path k.prev h (l₂.reverse ++ x :: l₁.reverse) h := by
  have hprev := hr.prev
  rwa [List.reverse_append, List.reverse_cons, List.append_assoc] at hprev

omit [DecidableEq α] in
theorem Ring.next_eq (hr : Ring k h (l₁ ++ x :: l₂)) :
    k.next x = (h :: l₂.reverse).getLast (by simp) := by
  rw [(path_append.mp hr.next).2.eq_head]
  simp [List.getLast_eq_head_reverse]

omit [DecidableEq α] in
theorem Ring.prev_eq (hr : Ring k h (l₁ ++ x :: l₂)) :
    k.prev x = (h :: l₁).getLast (by simp) := by
  rw [(path_append.mp hr.prev_append).2.eq_head]
  simp [List.getLast_eq_head_reverse]

theorem unlink_next (k : Links α) (x : α) :
    (k.unlink x).next = update k.next (k.prev x) (k.next x) := by
  unfold Links.unlink Links.setNext Links.setPrev
  dsimp only
  by_cases hx : x = k.next x
  · rw [← hx, update_self]
  · rw [update_of_ne hx]

theorem unlink_prev (k : Links α) (x : α) :
    (k.unlink x).prev = update k.prev (k.next x) (k.prev x) := rfl

/-- **Taking a node out.** -/
theorem Ring.unlink (hr : Ring k h (l₁ ++ x :: l₂)) : Ring (k.unlink x) h (l₁ ++ l₂) where
  nodup := by
    refine hr.nodup.sublist ?_
    exact ((List.sublist_cons_self x l₂).append_left l₁).cons_cons h
  next := by
    rw [unlink_next, hr.prev_eq]
    exact hr.next.cut hr.nodup
  prev := by
    have hnodup : (h :: (l₂.reverse ++ x :: l₁.reverse)).Nodup := by
      have hperm : (h :: (l₂.reverse ++ x :: l₁.reverse)).Perm (h :: (l₁ ++ x :: l₂)) := by
        have := (l₁ ++ x :: l₂).reverse_perm
        rw [List.reverse_append, List.reverse_cons, List.append_assoc] at this
        exact this.cons h
      exact hperm.nodup_iff.mpr hr.nodup
    rw [unlink_prev, hr.next_eq, List.reverse_append]
    exact hr.prev_append.cut hnodup

theorem push_next (k : Links α) (h x : α) :
    (k.push h x).next = update (update k.next x (k.next h)) h x := rfl

theorem push_prev (k : Links α) (hne : h ≠ x) :
    (k.push h x).prev = update (update k.prev x h) (k.next h) x := by
  unfold Links.push Links.setNext Links.setPrev
  dsimp only
  rw [update_of_ne hne]

theorem Ring.push (hr : Ring k h l) (hx : x ∉ h :: l) : Ring (k.push h x) h (x :: l) := by
  have hxh : x ≠ h := fun heq => hx (heq ▸ List.mem_cons_self)
  have hxl : ∀ z ∈ l, z ≠ x := fun z hz heq => hx (heq ▸ List.mem_cons_of_mem h hz)
  have hhl : ∀ z ∈ l, z ≠ h := fun z hz heq => (List.nodup_cons.mp hr.nodup).1 (heq ▸ hz)
  constructor
  · rw [(List.Perm.swap x h l).nodup_iff]
    exact List.nodup_cons.mpr ⟨hx, hr.nodup⟩
  · rw [push_next]
    refine ⟨update_self _ _ _, ?_⟩
    have hkeep : ∀ z ∈ l, update (update k.next x (k.next h)) h x z
        = k.next z := by
      intro z hz
      rw [update_of_ne (hhl z hz), update_of_ne (hxl z hz)]
    have hfirst : update (update k.next x (k.next h)) h x x = k.next h := by
      rw [update_of_ne hxh, update_self]
    -- `x` has the link that `h` had
    cases l with
    | nil => exact hfirst.trans hr.next
    | cons a l => exact ⟨hfirst.trans hr.next.1, hr.next.2.congr hkeep⟩
  · rw [push_prev k hxh.symm, List.reverse_cons]
    cases l with
    | nil =>
      have hself : k.next h = h := hr.next
      rw [hself]
      refine ⟨update_self _ _ _, ?_⟩
      show update (update k.prev x h) h x x = h
      rw [update_of_ne hxh, update_self]
    | cons a l =>
      have hxa : x ≠ a := (hxl a List.mem_cons_self).symm
      rw [hr.next.1, List.reverse_cons, List.append_assoc]
      obtain ⟨hpath, -⟩ := path_append.mp (List.reverse_cons ▸ hr.prev)
      apply path_append.mpr
      refine ⟨hpath.congr fun z hz => ?_, update_self _ _ _, ?_⟩
      · have hz' : z ∈ h :: l := by simpa using hz
        have hza : z ≠ a := by
          rintro rfl
          have hnodup := hr.nodup
          simp only [List.nodup_cons, List.mem_cons] at hnodup hz'
          tauto
        have hzx : z ≠ x := by
          rintro rfl
          apply hx
          simp only [List.mem_cons] at hz' ⊢
          tauto
        rw [update_of_ne hza, update_of_ne hzx]
      · show update (update k.prev x h) a x x = h
        rw [update_of_ne hxa, update_self]

/-- Putting the nodes of a list behind the sentinel, one after the other. -/
theorem Ring.push_all (xs : List α) (hr : Ring k h l) (hnodup : (h :: (xs.reverse ++ l)).Nodup) :
    Ring (xs.foldl (fun k x => k.push h x) k) h (xs.reverse ++ l) := by
  induction xs generalizing k l with
  | nil => exact hr
  | cons x xs ih =>
    rw [List.reverse_cons, List.append_assoc] at hnodup ⊢
    refine ih (hr.push fun hmem => ?_) hnodup
    simp only [List.nodup_cons, List.nodup_append, List.mem_append, List.mem_cons] at hnodup hmem
    grind

end LinkedRing
