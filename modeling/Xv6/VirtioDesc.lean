/-
# Allocating and freeing descriptors

`alloc3_desc`, also when it takes its descriptors back, and `free_chain` return and do what they
should (`alloc3Desc_spec`, `freeChain_spec`), given that the chain to be freed is formatted and in
use.
-/
import Xv6.VirtioInv

namespace Xv6.Virtio

open Function

variable {P B : Type} [DecidableEq P] [DecidableEq B]

/-! ## Allocating and freeing descriptors -/

omit [DecidableEq P] in
theorem wakeup_mode (ch : Chan B) (s : State P B) (p : P) :
    (wakeup ch s).mode p = .holds ↔ s.mode p = .holds := by
  show (if s.mode p = .asleep ch then Mode.wants else s.mode p) = .holds ↔ _
  split_ifs with hp
  · simp [hp]
  · rfl

/-- `t` differs from `s` in the descriptors at `l` only, apart from processes that have been
woken up. -/
structure Freed (l : List ℕ) (s t : State P B) : Prop where
  eq : t = { s with free := t.free, desc := t.desc, mode := t.mode }
  free : ∀ i, t.free i = (s.free i || decide (i ∈ l))
  desc : ∀ i, i ∉ l → t.desc i = s.desc i
  mode : ∀ p, t.mode p = .holds ↔ s.mode p = .holds

omit [DecidableEq P] [DecidableEq B] in
theorem Freed.refl (s : State P B) : Freed [] s s := by
  constructor
  · rfl
  · simp
  · intro i _
    rfl
  · intro p
    rfl

omit [DecidableEq P] in
theorem Freed.freeDesc {l : List ℕ} {s t : State P B} (h : Freed l s t) {i : ℕ} (hi : i < numDesc)
    (hf : s.free i = false) (hl : i ∉ l) :
    freeDesc i t = .ok (freed i t) ∧ Freed (i :: l) s (freed i t) := by
  have hti : t.free i = false := by rw [h.free, hf]; simp [hl]
  constructor
  · unfold Virtio.freeDesc
    rw [if_neg (by omega), if_neg (by rw [hti]; decide)]
  · constructor
    · rw [h.eq]
      rfl
    · intro j
      show update t.free i true j = _
      by_cases hj : j = i
      · subst hj
        simp
      · rw [update_of_ne hj, h.free]
        simp [hj]
    · intro j hj
      rw [List.mem_cons, not_or] at hj
      show update t.desc i .zero j = _
      rw [update_of_ne hj.1]
      exact h.desc j hj.2
    · intro p
      exact (wakeup_mode _ _ p).trans (h.mode p)

omit [DecidableEq P] in
/-- `free_chain` returns and frees the descriptors of a formatted request. -/
theorem freeChain_spec {s : State P B} {q : Req B} (h0 : s.desc q.chain.idx0 = desc0 q.chain)
    (h1 : s.desc q.chain.idx1 = desc1 q.call q.chain) (h2 : s.desc q.chain.idx2 = desc2 q.chain)
    (hnd : q.chain.toList.Nodup) (hbusy : ∀ i ∈ q.chain.toList, i < numDesc ∧ s.free i = false) :
    ∃ t, freeChain (numDesc + 1) q.chain.idx0 s = .ok t ∧
      Freed [q.chain.idx2, q.chain.idx1, q.chain.idx0] s t := by
  obtain ⟨h01, h02, h12⟩ := Chain.ne_of_nodup hnd
  have hb0 := hbusy q.chain.idx0 (by simp [Chain.toList])
  have hb1 := hbusy q.chain.idx1 (by simp [Chain.toList])
  have hb2 := hbusy q.chain.idx2 (by simp [Chain.toList])
  obtain ⟨hrun0, hf0⟩ := (Freed.refl s).freeDesc hb0.1 hb0.2 (by simp)
  obtain ⟨hrun1, hf1⟩ := hf0.freeDesc hb1.1 hb1.2 (by simp [h01.symm])
  obtain ⟨hrun2, hf2⟩ := hf1.freeDesc hb2.1 hb2.2 (by simp [h02.symm, h12.symm])
  have hd1 : (freed q.chain.idx0 s).desc q.chain.idx1 = desc1 q.call q.chain :=
    (hf0.desc _ (by simp [h01.symm])).trans h1
  have hd2 : (freed q.chain.idx1 (freed q.chain.idx0 s)).desc q.chain.idx2 = desc2 q.chain :=
    (hf1.desc _ (by simp [h02.symm, h12.symm])).trans h2
  refine ⟨_, ?_, hf2⟩
  -- three turns of the loop
  show freeChain (numDesc - 2 + 1 + 1 + 1) q.chain.idx0 s = _
  rw [freeChain, hrun0, ok_bind, h0, if_pos (flags_desc0 _).1]
  show freeChain _ q.chain.idx1 _ = _
  rw [freeChain, hrun1, ok_bind, hd1, if_pos (flags_desc1 _ _).1]
  show freeChain _ q.chain.idx2 _ = _
  rw [freeChain, hrun2, ok_bind, hd2, if_neg (by rw [(flags_desc2 _).1]; decide)]

/-- Take the descriptors `l`. -/
def took (l : List ℕ) (s : State P B) : State P B :=
  { s with free := fun i => s.free i && !decide (i ∈ l) }

omit [DecidableEq P] [DecidableEq B] in
theorem took_nil (s : State P B) : took [] s = s := by
  have hfree : (fun i => s.free i && !decide (i ∈ ([] : List ℕ))) = s.free := by
    funext i
    simp
  unfold took
  rw [hfree]

omit [DecidableEq P] [DecidableEq B] in
/-- `alloc_desc` finds a free descriptor or there is none. -/
theorem allocDesc_took (l : List ℕ) (s : State P B) :
    allocDesc (took l s) = none ∨
      ∃ i, i < numDesc ∧ s.free i = true ∧ i ∉ l ∧
        allocDesc (took l s) = some (i, took (i :: l) s) := by
  cases hfind : (List.range numDesc).find? (took l s).free with
  | none =>
    left
    unfold allocDesc
    rw [hfind]
    rfl
  | some i =>
    right
    have hmem := List.mem_range.mp (List.mem_of_find?_eq_some hfind)
    have hfree : (took l s).free i = true := List.find?_some hfind
    simp only [took, Bool.and_eq_true, Bool.not_eq_true', decide_eq_false_iff_not] at hfree
    refine ⟨i, hmem, hfree.1, hfree.2, ?_⟩
    have hupd : update (took l s).free i false = (took (i :: l) s).free := by
      funext j
      by_cases hj : j = i
      · subst hj
        simp [took]
      · rw [update_of_ne hj]
        simp [took, hj]
    unfold allocDesc
    rw [hfind, Option.map_some, hupd]
    rfl

/-- What `alloc3_desc` leaves when it fails: no descriptor is taken, and only free ones have been
overwritten. -/
structure RolledBack (s t : State P B) : Prop where
  eq : t = { s with desc := t.desc, mode := t.mode }
  desc : ∀ i, s.free i = false → t.desc i = s.desc i
  mode : ∀ p, t.mode p = .holds ↔ s.mode p = .holds

omit [DecidableEq P] [DecidableEq B] in
theorem Freed.rolledBack {l l' : List ℕ} {s t : State P B} (h : Freed l' (took l s) t)
    (hl : ∀ i, i ∈ l' ↔ i ∈ l) (hfree : ∀ i ∈ l, s.free i = true) : RolledBack s t := by
  have hf : t.free = s.free := by
    funext i
    rw [h.free]
    by_cases hi : i ∈ l
    · simp [(hl i).mpr hi, hfree i hi]
    · have hi' : i ∉ l' := fun hmem => hi ((hl i).mp hmem)
      simp [took, hi, hi']
  constructor
  · have heq := h.eq
    rw [hf] at heq
    exact heq
  · intro i hi
    refine h.desc i fun hmem => ?_
    rw [hfree i ((hl i).mp hmem)] at hi
    cases hi
  · exact h.mode

omit [DecidableEq P] in
/-- `alloc3_desc` gives three free descriptors or leaves everything as it was. -/
theorem alloc3Desc_spec (s : State P B) :
    (∃ t, alloc3Desc s = .ok (none, t) ∧ RolledBack s t) ∨
      ∃ ch, alloc3Desc s = .ok (some ch, took ch.toList.reverse s) ∧ ch.toList.Nodup ∧
        ∀ i ∈ ch.toList, i < numDesc ∧ s.free i = true := by
  unfold alloc3Desc
  rw [← took_nil s]
  rcases allocDesc_took [] s with h | ⟨i, hi, hfi, -, h⟩
  · left
    rw [h, took_nil]
    exact ⟨s, rfl, ⟨rfl, fun _ _ => rfl, fun _ => Iff.rfl⟩⟩
  rw [h]
  simp only
  have hti : (took [i] s).free i = false := by simp [took]
  rcases allocDesc_took [i] s with h | ⟨j, hj, hfj, hji, h⟩
  · left
    obtain ⟨hrun, hfreed⟩ := (Freed.refl (took [i] s)).freeDesc hi hti (by simp)
    rw [h, took_nil]
    refine ⟨_, ?_, hfreed.rolledBack (l := [i]) (by simp) (by simp [hfi])⟩
    show rollback [i] (took [i] s) = _
    unfold rollback
    rw [List.foldlM_cons, hrun, ok_bind, List.foldlM_nil]
    rfl
  rw [h]
  simp only
  have hti : (took [j, i] s).free i = false := by simp [took]
  have htj : (took [j, i] s).free j = false := by simp [took]
  rcases allocDesc_took [j, i] s with h | ⟨k, hk, hfk, hkji, h⟩
  · left
    obtain ⟨hrun, hfreed⟩ := (Freed.refl (took [j, i] s)).freeDesc hi hti (by simp)
    obtain ⟨hrun', hfreed⟩ := hfreed.freeDesc hj htj (by simpa using hji)
    rw [h, took_nil]
    refine ⟨_, ?_, hfreed.rolledBack (l := [j, i]) (by simp) (by simp [hfi, hfj])⟩
    show rollback [i, j] (took [j, i] s) = _
    unfold rollback
    rw [List.foldlM_cons, hrun, ok_bind, List.foldlM_cons, hrun', ok_bind, List.foldlM_nil]
    rfl
  · right
    rw [h, took_nil]
    simp only [List.mem_cons, List.not_mem_nil, or_false, not_or] at hji hkji
    refine ⟨⟨i, j, k⟩, rfl, ?_, ?_⟩
    · simp [Chain.toList, Ne.symm hji, Ne.symm hkji.2, Ne.symm hkji.1]
    · intro m hm
      simp only [Chain.toList, List.mem_cons, List.not_mem_nil, or_false] at hm
      rcases hm with rfl | rfl | rfl
      · exact ⟨hi, hfi⟩
      · exact ⟨hj, hfj⟩
      · exact ⟨hk, hfk⟩

end Xv6.Virtio
