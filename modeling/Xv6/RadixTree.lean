/-
# Trees of tables in a memory

A memory of tables, whose entries hold words; a word may point to another table.  A path of
entries leads from a root to a table.  Where different paths lead to different tables, writing an
entry of a last table changes what is found there and nothing else (`word_write`), and linking a
fresh table adds one path (`node_link`).
-/
import Mathlib.Data.List.Basic
import Mathlib.Order.Nat
import Mathlib.Logic.Function.Basic

namespace RadixTree

variable {P I W : Type} {next : W → Option P} {mem mem' : P → I → W} {root t u : P} {d : ℕ}

/-- The table at the end of a path. -/
def node (next : W → Option P) (mem : P → I → W) (root : P) : List I → Option P
  | [] => some root
  | i :: p => (next (mem root i)).bind fun t => node next mem t p

theorem node_append (p q : List I) :
    node next mem root (p ++ q) = (node next mem root p).bind fun t => node next mem t q := by
  induction p generalizing root with
  | nil => rfl
  | cons i p ih =>
    simp only [List.cons_append, node]
    cases next (mem root i) with
    | none => rfl
    | some t => exact ih

theorem node_concat (p : List I) (i : I) :
    node next mem root (p ++ [i]) = (node next mem root p).bind fun t => next (mem t i) := by
  rw [node_append]
  congr 1
  funext t
  simp [node]

/-- A path that meets no changed entry leads to the same table. -/
theorem node_congr {q : List I} (h : ∀ r j l, q = r ++ j :: l → ∀ t, node next mem root r = some t →
    mem' t j = mem t j) : node next mem' root q = node next mem root q := by
  induction q generalizing root with
  | nil => rfl
  | cons i q ih =>
    rw [node, node, h [] i q rfl root rfl]
    cases hnext : next (mem root i) with
    | none => rfl
    | some t =>
      refine ih fun r j l hq u hu => h (i :: r) j l (by rw [hq, List.cons_append]) u ?_
      rw [node, hnext]
      exact hu

/-- Different paths of at most `d` steps lead to different tables. -/
def Separated (next : W → Option P) (mem : P → I → W) (root : P) (d : ℕ) : Prop :=
  ∀ p q t, p.length ≤ d → q.length ≤ d → node next mem root p = some t →
    node next mem root q = some t → p = q

/-- The word at the end of a path, in the entry `i` of the last table. -/
def word (next : W → Option P) (mem : P → I → W) (root : P) (p : List I) (i : I) : Option W :=
  (node next mem root p).map fun t => mem t i

/-- Behind an entry without a table nothing is found. -/
theorem word_of_none {p : List I} {i : I} (ht : node next mem root p = some t)
    (hnone : next (mem t i) = none) (j : I) : word next mem root (p ++ [i]) j = none := by
  unfold word
  rw [node_concat, ht, Option.bind_some, hnone]
  rfl

section Write

variable [DecidableEq P] [DecidableEq I]

/-- Write one entry. -/
def write (mem : P → I → W) (t : P) (i : I) (w : W) : P → I → W :=
  Function.update mem t (Function.update (mem t) i w)

omit [DecidableEq I] in
/-- Fill a table with one word. -/
def fill (mem : P → I → W) (u : P) (z : W) : P → I → W := Function.update mem u fun _ => z

theorem write_self (mem : P → I → W) (t : P) (i : I) (w : W) : write mem t i w t i = w := by
  simp [write]

theorem write_of_ne (mem : P → I → W) {t t' : P} {i j : I} (w : W) (h : t' = t → j ≠ i) :
    write mem t i w t' j = mem t' j := by
  unfold write
  by_cases ht : t' = t
  · subst ht
    rw [Function.update_self, Function.update_of_ne (h rfl)]
  · rw [Function.update_of_ne ht]

variable {p : List I} {i : I} {w z : W}

/-! ## An entry of a last table -/

/-- Writing to a last table changes no path. -/
theorem node_write (hsep : Separated next mem root d) (ht : node next mem root p = some t)
    (hp : p.length = d) (i : I) (w : W) {q : List I} (hq : q.length ≤ d) :
    node next (write mem t i w) root q = node next mem root q := by
  refine node_congr fun r j l hr u hu => write_of_ne mem w fun hut => ?_
  subst hut
  -- a table on the way is not a last one
  have hlen : r.length < d := by
    rw [hr, List.length_append, List.length_cons] at hq
    omega
  rw [hsep r p u hlen.le hp.le hu ht] at hlen
  omega

theorem Separated.write (hsep : Separated next mem root d) (ht : node next mem root p = some t)
    (hp : p.length = d) (i : I) (w : W) : Separated next (write mem t i w) root d := by
  intro q q' v hq hq' hv hv'
  rw [node_write hsep ht hp i w hq] at hv
  rw [node_write hsep ht hp i w hq'] at hv'
  exact hsep q q' v hq hq' hv hv'

/-- **What is found after a write** to a last table. -/
theorem word_write (hsep : Separated next mem root d) (ht : node next mem root p = some t)
    (hp : p.length = d) (i : I) (w : W) {q : List I} (hq : q.length = d) (j : I) :
    word next (write mem t i w) root q j
      = if q = p ∧ j = i then some w else word next mem root q j := by
  unfold word
  rw [node_write hsep ht hp i w hq.le]
  split_ifs with h
  · obtain ⟨rfl, rfl⟩ := h
    rw [ht, Option.map_some, write_self]
  · cases hv : node next mem root q with
    | none => rfl
    | some v =>
      rw [Option.map_some, Option.map_some, write_of_ne mem w]
      rintro rfl rfl
      exact h ⟨hsep q p v hq.le hp.le hv ht, rfl⟩

/-! ## A fresh table -/

/-- **Linking a fresh table** adds one path. -/
theorem node_link (hsep : Separated next mem root d) (ht : node next mem root p = some t)
    (hp : p.length < d) (hnone : next (mem t i) = none)
    (hfresh : ∀ q, q.length ≤ d → node next mem root q ≠ some u) (hw : next w = some u)
    (hz : next z = none) {q : List I} (hq : q.length ≤ d) :
    node next (write (fill mem u z) t i w) root q
      = if q = p ++ [i] then some u else node next mem root q := by
  have hut : u ≠ t := fun h => hfresh p hp.le (by rw [h, ht])
  -- the paths that do not go through the new entry
  have hother : ∀ {q : List I}, q.length ≤ d → (∀ l, q ≠ p ++ i :: l) →
      node next (write (fill mem u z) t i w) root q = node next mem root q := by
    intro q hq hpath
    refine node_congr fun r j l hr v hv => ?_
    have hlen : r.length ≤ d := by
      rw [hr, List.length_append] at hq
      omega
    have huv : v ≠ u := fun h => hfresh r hlen (by rw [hv, h])
    rw [write_of_ne]
    · unfold fill
      rw [Function.update_of_ne huv]
    · rintro rfl rfl
      rw [hsep r p v hlen hp.le hv ht] at hr
      exact hpath l hr
  have hself : node next (write (fill mem u z) t i w) root (p ++ [i]) = some u := by
    rw [node_concat, hother hp.le fun l h => by simpa using congrArg List.length h, ht,
      Option.bind_some, write_self, hw]
  split_ifs with h
  · rw [h, hself]
  · by_cases hpath : ∃ l, q = p ++ i :: l
    · -- behind the new table there is nothing yet
      obtain ⟨l, rfl⟩ := hpath
      cases l with
      | nil => exact absurd rfl h
      | cons j l =>
        have hold : node next mem root (p ++ i :: j :: l) = none := by
          rw [node_append, ht, Option.bind_some, node, hnone, Option.bind_none]
        rw [hold, List.append_cons p i, node_append, hself, Option.bind_some, node, write_of_ne]
        · unfold fill
          rw [Function.update_self, hz, Option.bind_none]
        · exact fun hu => absurd hu hut
    · exact hother hq (not_exists.mp hpath)

variable (hsep : Separated next mem root d) (ht : node next mem root p = some t)
  (hp : p.length < d) (hnone : next (mem t i) = none)
  (hfresh : ∀ q, q.length ≤ d → node next mem root q ≠ some u) (hw : next w = some u)
  (hz : next z = none)

include hsep ht hp hnone hfresh hw hz

theorem Separated.link : Separated next (RadixTree.write (fill mem u z) t i w) root d := by
  intro q q' v hq hq' hv hv'
  rw [node_link hsep ht hp hnone hfresh hw hz hq] at hv
  rw [node_link hsep ht hp hnone hfresh hw hz hq'] at hv'
  split_ifs at hv hv' with h h'
  · rw [h, h']
  · exact absurd (hv'.trans hv.symm) (hfresh q' hq')
  · exact absurd (hv.trans hv'.symm) (hfresh q hq)
  · exact hsep q q' v hq hq' hv hv'

/-- What is found after linking a table: at the new path the word it was filled with. -/
theorem word_link {q : List I} (hq : q.length = d) (j : I) :
    word next (RadixTree.write (fill mem u z) t i w) root q j
      = if q = p ++ [i] then some z else word next mem root q j := by
  have hut : u ≠ t := fun h => hfresh p hp.le (by rw [h, ht])
  unfold word
  rw [node_link hsep ht hp hnone hfresh hw hz hq.le]
  split_ifs with h
  · rw [Option.map_some, write_of_ne _ _ fun hu => absurd hu hut]
    unfold fill
    rw [Function.update_self]
  · cases hv : node next mem root q with
    | none => rfl
    | some v =>
      have hvu : v ≠ u := fun heq => hfresh q hq.le (by rw [hv, heq])
      rw [Option.map_some, Option.map_some, write_of_ne]
      · unfold fill
        rw [Function.update_of_ne hvu]
      · -- `t` is not a last table
        rintro rfl
        have := congrArg List.length (hsep q p v hq.le hp.le hv ht)
        omega

end Write

end RadixTree
