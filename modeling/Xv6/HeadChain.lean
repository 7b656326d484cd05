/-
# Chains of head pointers

A forest in which every node points to its head, and a root points to nothing.
`Above head a x` says that `x` is on the chain of heads that starts at `a`, and
`Chain head a l` lists that chain.  On a set of nodes that is `Rooted` (closed under
heads, with depths that count the way up) the chains are finite, have no repetition
and meet each depth once.

The second part counts members: each member has a place in the forest, and the
population of a node is the number of members placed on it or below it.
-/
import Mathlib

namespace HeadChain

variable {α β : Type*} {head head' : α → Option α} {depth : α → ℕ} {K K' : Set α}

/-! ## Chains -/

/-- `x` is `a`, or the head of `a`, or the head of that, and so on. -/
def Above (head : α → Option α) : α → α → Prop :=
  Relation.ReflTransGen fun x y => head x = some y

/-- The nodes from `a` up to the end of its chain. -/
inductive Chain (head : α → Option α) : Option α → List α → Prop
  | nil : Chain head none []
  | cons {a : α} {l : List α} : Chain head (head a) l → Chain head (some a) (a :: l)

theorem Above.refl (a : α) : Above head a a := Relation.ReflTransGen.refl

theorem Above.trans {a b c : α} (h : Above head a b) (h' : Above head b c) : Above head a c :=
  Relation.ReflTransGen.trans h h'

/-- The chain of `a` is `a` and the chain of its head. -/
theorem above_iff {a x : α} : Above head a x ↔ x = a ∨ ∃ h, head a = some h ∧ Above head h x :=
  Relation.ReflTransGen.cases_head_iff.trans (or_congr_left eq_comm)

/-- Without heads every chain is a single node. -/
theorem above_none_iff {a x : α} : Above (fun _ : α => none) a x ↔ x = a := by
  rw [above_iff]
  simp

theorem Above.total {a x y : α} (hx : Above head a x) (hy : Above head a y) :
    Above head x y ∨ Above head y x :=
  Relation.ReflTransGen.total_of_right_unique
    (fun _ _ _ h h' => Option.some.inj (h.symm.trans h')) hx hy

theorem Chain.mem_iff {a : α} {l : List α} (h : Chain head (some a) l) (x : α) :
    x ∈ l ↔ Above head a x := by
  induction l generalizing a with
  | nil => cases h
  | cons b l ih =>
    obtain _ | htail := h
    rw [above_iff, List.mem_cons]
    refine or_congr_right ?_
    cases hb : head b with
    | none =>
      rw [hb] at htail
      cases htail
      simp
    | some c =>
      rw [hb] at htail
      rw [ih htail]
      simp

theorem Chain.unique {a : Option α} {l l' : List α} (h : Chain head a l) (h' : Chain head a l') :
    l = l' := by
  induction h generalizing l' with
  | nil =>
    cases h'
    rfl
  | cons _ ih =>
    obtain _ | htail := h'
    rw [ih htail]

theorem Chain.tail_of_mem {a : Option α} {l : List α} (h : Chain head a l) {x : α} (hx : x ∈ l) :
    ∃ l', Chain head (some x) (x :: l') ∧ l'.length < l.length := by
  induction h with
  | nil => cases hx
  | @cons b l htail ih =>
    rcases List.mem_cons.mp hx with rfl | hmem
    · exact ⟨l, Chain.cons htail, by simp⟩
    · obtain ⟨l', hchain, hlen⟩ := ih hmem
      exact ⟨l', hchain, by simp; omega⟩

/-- A chain that ends has no repetition. -/
theorem Chain.nodup {a : Option α} {l : List α} (h : Chain head a l) : l.Nodup := by
  induction h with
  | nil => exact List.nodup_nil
  | @cons a l htail ih =>
    refine List.nodup_cons.mpr ⟨fun hmem => ?_, ih⟩
    -- were `a` met again, its chain would be shorter than itself
    obtain ⟨l', hchain, hlen⟩ := htail.tail_of_mem hmem
    have heq := hchain.unique (Chain.cons htail)
    rw [(List.cons.inj heq).2] at hlen
    exact lt_irrefl _ hlen

/-- Two nodes of a chain that ends do not lie above each other. -/
theorem Chain.antisymm {a : α} {l : List α} (h : Chain head (some a) l) {y : α} (hy : Above head a y)
    (hya : Above head y a) : y = a := by
  obtain _ | htail := h
  rcases above_iff.mp hy with heq | ⟨c, hc, hcy⟩
  · exact heq
  · exfalso
    rw [hc] at htail
    have hmem := (htail.mem_iff a).mpr (hcy.trans hya)
    have hnodup := (Chain.cons (hc ▸ htail) : Chain head (some a) (a :: _)).nodup
    exact (List.nodup_cons.mp hnodup).1 hmem

/-- The first value that a search along a chain finds is that of the nearest node that has one. -/
theorem Chain.nearest_of_findSome? {γ : Type*} {a : α} {l : List α} (h : Chain head (some a) l)
    {f : α → Option γ} {r : γ} (hr : l.findSome? f = some r) :
    ∃ x, Above head a x ∧ f x = some r
      ∧ ∀ y, Above head a y → Above head y x → y ≠ x → f y = none := by
  induction l generalizing a with
  | nil => cases h
  | cons b l ih =>
    have hchain := h
    obtain _ | htail := h
    rw [List.findSome?_cons] at hr
    cases hb : f b with
    | some v =>
      rw [hb] at hr
      obtain rfl : v = r := Option.some.inj hr
      exact ⟨b, Above.refl b, hb, fun y hy hyb hne => absurd (hchain.antisymm hy hyb) hne⟩
    | none =>
      rw [hb] at hr
      cases hc : head b with
      | none =>
        rw [hc] at htail
        cases htail
        cases hr
      | some c =>
        rw [hc] at htail
        obtain ⟨x, hcx, hx, hbetween⟩ := ih htail hr
        refine ⟨x, above_iff.mpr (Or.inr ⟨c, hc, hcx⟩), hx, fun y hy hyx hne => ?_⟩
        rcases above_iff.mp hy with rfl | ⟨c', hc', hcy⟩
        · exact hb
        · rw [hc] at hc'
          cases hc'
          exact hbetween y hcy hyx hne

/-- A chain that leads to a root ends there. -/
theorem Above.exists_chain {a r : α} (h : Above head a r) (hr : head r = none) :
    ∃ l, Chain head (some a) l := by
  induction h using Relation.ReflTransGen.head_induction_on with
  | refl => exact ⟨[r], Chain.cons (hr ▸ Chain.nil)⟩
  | @head a b hab _ ih =>
    obtain ⟨l, hl⟩ := ih
    exact ⟨a :: l, Chain.cons (hab ▸ hl)⟩

theorem Chain.exists_last {a : α} {l : List α} (h : Chain head (some a) l) :
    ∃ l' r, l = l' ++ [r] ∧ head r = none := by
  induction l generalizing a with
  | nil => cases h
  | cons b l ih =>
    obtain _ | htail := h
    cases hb : head b with
    | none =>
      rw [hb] at htail
      cases htail
      exact ⟨[], b, rfl, hb⟩
    | some c =>
      rw [hb] at htail
      obtain ⟨l', r, rfl, hr⟩ := ih htail
      exact ⟨b :: l', r, rfl, hr⟩

theorem Above.eq_of_root {r x : α} (hr : head r = none) (h : Above head r x) : x = r := by
  rcases above_iff.mp h with rfl | ⟨c, hc, -⟩
  · rfl
  · rw [hr] at hc
    cases hc

theorem Above.root_unique {a r x : α} (h : Above head a r) (hr : head r = none)
    (hx : Above head a x) (hxr : head x = none) : x = r := by
  rcases h.total hx with h' | h'
  · exact h'.eq_of_root hr
  · exact (h'.eq_of_root hxr).symm

/-- Where the new head of `i` leads to `r`, all that led to `r` still does. -/
theorem Above.update [DecidableEq α] {a r i n : α} (h : Above head a r)
    (hn : Above (Function.update head i (some n)) n r) :
    Above (Function.update head i (some n)) a r := by
  induction h using Relation.ReflTransGen.head_induction_on with
  | refl => exact Above.refl r
  | @head a b hab _ ih =>
    by_cases hai : a = i
    · exact above_iff.mpr (Or.inr ⟨n, by rw [hai, Function.update_self], hn⟩)
    · exact above_iff.mpr (Or.inr ⟨b, by rw [Function.update_of_ne hai, hab], ih⟩)

/-! ## Rooted sets -/

/-- Every node of `K` is a root of depth 0, or has a head in `K` that is one less deep. -/
def Rooted (head : α → Option α) (depth : α → ℕ) (K : Set α) : Prop :=
  ∀ a ∈ K, (head a = none ∧ depth a = 0) ∨ ∃ h ∈ K, head a = some h ∧ depth a = depth h + 1

namespace Rooted

theorem head_mem (hK : Rooted head depth K) {a h : α} (ha : a ∈ K) (hh : head a = some h) :
    h ∈ K ∧ depth a = depth h + 1 := by
  rcases hK a ha with ⟨hnone, -⟩ | ⟨h', hmem, hsome, hdepth⟩
  · rw [hnone] at hh
    cases hh
  · rw [hsome] at hh
    cases hh
    exact ⟨hmem, hdepth⟩

/-- What lies above a node of `K` is in `K`, and is not deeper. -/
theorem of_above (hK : Rooted head depth K) {a x : α} (ha : a ∈ K) (h : Above head a x) :
    x ∈ K ∧ (x = a ∨ depth x < depth a) := by
  induction h with
  | refl => exact ⟨ha, Or.inl rfl⟩
  | tail _ hstep ih =>
    obtain ⟨hmem, hdepth⟩ := hK.head_mem ih.1 hstep
    refine ⟨hmem, Or.inr ?_⟩
    rcases ih.2 with rfl | hlt
    · omega
    · omega

theorem above_mem (hK : Rooted head depth K) {a x : α} (ha : a ∈ K) (h : Above head a x) : x ∈ K :=
  (hK.of_above ha h).1

theorem depth_le (hK : Rooted head depth K) {a x : α} (ha : a ∈ K) (h : Above head a x) :
    depth x ≤ depth a := by
  rcases (hK.of_above ha h).2 with rfl | hlt
  · exact le_rfl
  · exact hlt.le

/-- The chain of a node of `K` ends, after as many steps as the node is deep. -/
theorem exists_chain (hK : Rooted head depth K) {a : α} (ha : a ∈ K) :
    ∃ l, Chain head (some a) l ∧ l.length = depth a + 1 := by
  induction hd : depth a generalizing a with
  | zero =>
    rcases hK a ha with ⟨hnone, -⟩ | ⟨h, -, -, hdepth⟩
    · refine ⟨[a], Chain.cons ?_, rfl⟩
      rw [hnone]
      exact Chain.nil
    · omega
  | succ d ih =>
    rcases hK a ha with ⟨-, hzero⟩ | ⟨h, hmem, hsome, hdepth⟩
    · omega
    · obtain ⟨l, hchain, hlen⟩ := ih hmem (by omega)
      refine ⟨a :: l, Chain.cons ?_, by simp [hlen]⟩
      rw [hsome]
      exact hchain

theorem chain_depth_nodup (hK : Rooted head depth K) {a : α} {l : List α} (ha : a ∈ K)
    (h : Chain head (some a) l) : (l.map depth).Nodup := by
  induction l generalizing a with
  | nil => exact List.nodup_nil
  | cons b l ih =>
    obtain _ | htail := h
    cases hb : head b with
    | none =>
      rw [hb] at htail
      cases htail
      simp
    | some c =>
      rw [hb] at htail
      obtain ⟨hc, hdepth⟩ := hK.head_mem ha hb
      refine List.nodup_cons.mpr ⟨fun hmem => ?_, ih hc htail⟩
      obtain ⟨x, hx, hxd⟩ := List.mem_map.mp hmem
      have := hK.depth_le hc ((htail.mem_iff x).mp hx)
      omega

theorem mono (hK : Rooted head depth K) (hsub : K' ⊆ K)
    (hclosed : ∀ a ∈ K', ∀ h, head a = some h → h ∈ K') : Rooted head depth K' := by
  intro a ha
  rcases hK a (hsub ha) with hroot | ⟨h, -, hsome, hdepth⟩
  · exact Or.inl hroot
  · exact Or.inr ⟨h, hclosed a ha h hsome, hsome, hdepth⟩

/-- Heads and depths matter on `K` only. -/
theorem congr {depth' : α → ℕ} (hK : Rooted head depth K) (hhead : ∀ a ∈ K, head' a = head a)
    (hdepth : ∀ a ∈ K, depth' a = depth a) : Rooted head' depth' K := by
  intro a ha
  rw [hhead a ha, hdepth a ha]
  rcases hK a ha with hroot | ⟨h, hmem, hsome, hd⟩
  · exact Or.inl hroot
  · exact Or.inr ⟨h, hmem, hsome, by rw [hdepth h hmem, hd]⟩

/-- One more node, whose head is in `K`. -/
theorem insert_node (hK : Rooted head depth K) {a h : α} (hhead : head a = some h) (hh : h ∈ K)
    (hdepth : depth a = depth h + 1) : Rooted head depth (insert a K) := by
  rintro b (rfl | hb)
  · exact Or.inr ⟨h, Set.mem_insert_of_mem _ hh, hhead, hdepth⟩
  · rcases hK b hb with hroot | ⟨c, hc, hsome, hd⟩
    · exact Or.inl hroot
    · exact Or.inr ⟨c, Set.mem_insert_of_mem _ hc, hsome, hd⟩

/-- Chains that start in `K` do not see a change of heads outside of it. -/
theorem above_congr (hK : Rooted head depth K) (hhead : ∀ a ∈ K, head' a = head a) {a x : α}
    (ha : a ∈ K) : Above head' a x ↔ Above head a x := by
  have hK' : Rooted head' depth K := hK.congr hhead (fun _ _ => rfl)
  constructor
  · intro h
    induction h with
    | refl => exact Above.refl a
    | tail hab hstep ih =>
      rw [hhead _ (hK'.above_mem ha hab)] at hstep
      exact ih.tail hstep
  · intro h
    induction h with
    | refl => exact Above.refl a
    | tail hab hstep ih =>
      rw [← hhead _ (hK.above_mem ha hab)] at hstep
      exact ih.tail hstep

end Rooted

/-! ## Populations -/

open Classical in
/-- The number of members placed on `x` or below it. -/
noncomputable def population (head : α → Option α) (S : Finset β) (place : β → Option α) (x : α) : ℕ :=
  (S.filter fun b => ∃ a, place b = some a ∧ Above head a x).card

theorem population_pos_iff {S : Finset β} {place : β → Option α} {x : α} :
    0 < population head S place x ↔ ∃ b ∈ S, ∃ a, place b = some a ∧ Above head a x := by
  classical
  unfold population
  rw [Finset.card_pos]
  constructor
  · rintro ⟨b, hb⟩
    exact ⟨b, (Finset.mem_filter.mp hb).1, (Finset.mem_filter.mp hb).2⟩
  · rintro ⟨b, hb, hplace⟩
    exact ⟨b, Finset.mem_filter.mpr ⟨hb, hplace⟩⟩

/-- There are at least as many members above as below. -/
theorem population_mono {S : Finset β} {place : β → Option α} {x y : α} (h : Above head x y) :
    population head S place x ≤ population head S place y := by
  classical
  refine Finset.card_le_card (fun b hb => ?_)
  obtain ⟨hS, a, hplace, hx⟩ := Finset.mem_filter.mp hb
  exact Finset.mem_filter.mpr ⟨hS, a, hplace, hx.trans h⟩

/-- Populations depend on the chains from occupied places only. -/
theorem population_congr {S : Finset β} {place place' : β → Option α} {x : α}
    (hplace : ∀ b ∈ S, place' b = place b)
    (habove : ∀ b ∈ S, ∀ a, place b = some a → (Above head' a x ↔ Above head a x)) :
    population head' S place' x = population head S place x := by
  classical
  unfold population
  refine congrArg Finset.card (Finset.filter_congr (fun b hb => ?_))
  rw [hplace b hb]
  exact exists_congr (fun a => and_congr_right (fun h => habove b hb a h))

open Classical in
theorem population_join [DecidableEq β] {S : Finset β} {place : β → Option α} {b : β} (hb : b ∈ S)
    (hnone : place b = none) (a x : α) :
    population head S (Function.update place b (some a)) x
      = population head S place x + if Above head a x then 1 else 0 := by
  unfold population
  have hnot : b ∉ S.filter (fun c => ∃ a, place c = some a ∧ Above head a x) := by
    simp [hnone]
  -- the other members count as before, and `b` counts if `x` is above its place
  have hother : ∀ c, c ≠ b → Function.update place b (some a) c = place c :=
    fun c hc => Function.update_of_ne hc _ _
  split_ifs with habove
  · rw [← Finset.card_insert_of_notMem hnot]
    congr 1
    ext c
    simp only [Finset.mem_filter, Finset.mem_insert]
    by_cases hc : c = b
    · subst hc
      simp [hb, habove]
    · simp [hc]
  · rw [Nat.add_zero]
    congr 1
    ext c
    simp only [Finset.mem_filter]
    by_cases hc : c = b
    · subst hc
      simp [hnone, habove]
    · simp [hc]

open Classical in
theorem population_leave [DecidableEq β] {S : Finset β} {place : β → Option α} {b : β} (hb : b ∈ S)
    {a : α} (hplace : place b = some a) (x : α) :
    population head S place x
      = population head S (Function.update place b none) x + if Above head a x then 1 else 0 := by
  rw [← population_join hb (Function.update_self b none place), Function.update_idem, ← hplace,
    Function.update_eq_self]

end HeadChain
