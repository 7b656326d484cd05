/-
# The matcher of `grep` (`user/grep.c`)

`match`, `matchhere` and `matchstar`.  A string is the list of its characters, without the zero at
its end, so `*text == '\0'` is the empty list.  The functions recurse on the pattern and on the
text, and so they always return.

What they should compute is said by the language of a pattern.  A pattern is read as a list of
atoms, `c` or `c*`, with a language each, and the pattern's language is their product.
`match_iff_language` says that `match` finds a part of the text in the language.
-/
import Mathlib.Computability.Language

namespace Xv6.Grep

open scoped Computability

/-- `'^'`. -/
def caret : UInt8 := 94

/-- `'*'`. -/
def star : UInt8 := 42

/-- `'.'`. -/
def dot : UInt8 := 46

/-- `'$'`. -/
def dollar : UInt8 := 36

/-! ## The code -/

/-- `matchstar(c, re, text)`, where `here` is `matchhere(re, ·)`. -/
def matchstar (c : UInt8) (here : List UInt8 → Bool) : List UInt8 → Bool
  | [] => here []
  | t :: text => here (t :: text) || ((t == c || c == dot) && matchstar c here text)

/-- The last test of `matchhere`, where `here` is `matchhere(re+1, ·)`. -/
def matchone (c : UInt8) (here : List UInt8 → Bool) : List UInt8 → Bool
  | [] => false
  | t :: text => (c == dot || c == t) && here text

/-- `matchhere(re, text)`. -/
def matchhere : List UInt8 → List UInt8 → Bool
  | [], _ => true
  | [c], text => if c = dollar then text.isEmpty else matchone c (matchhere []) text
  | c :: d :: re, text =>
    if d = star then matchstar c (matchhere re) text else matchone c (matchhere (d :: re)) text

/-- The loop of `match(re, text)`. -/
def matchFrom (re : List UInt8) : List UInt8 → Bool
  | [] => matchhere re []
  | t :: text => matchhere re (t :: text) || matchFrom re text

/-- `match(re, text)`. -/
def matchText (re text : List UInt8) : Bool :=
  if re.head? = some caret then matchhere re.tail text else matchFrom re text

/-! ## The language of a pattern -/

/-- `c` or `c*`. -/
inductive Atom where
  | one (c : UInt8)
  | many (c : UInt8)
  deriving DecidableEq

/-- The atoms of a pattern; a star belongs to the character before it, and is a character itself
where there is none. -/
def atoms : List UInt8 → List Atom
  | [] => []
  | [c] => [.one c]
  | c :: d :: re => if d = star then .many c :: atoms re else .one c :: atoms (d :: re)

/-- The words of one character that `c` stands for. -/
def charLanguage (c : UInt8) : Language UInt8 := {w | ∃ x, (c = dot ∨ c = x) ∧ w = [x]}

def Atom.language : Atom → Language UInt8
  | .one c => charLanguage c
  | .many c => (charLanguage c)∗

/-- The language of a list of atoms. -/
def language (l : List Atom) : Language UInt8 := (l.map Atom.language).prod

/-- The pattern ends with a `$` that is not starred. -/
def AtEnd (l : List Atom) : Prop := l.getLast? = some (.one dollar)

instance (l : List Atom) : Decidable (AtEnd l) := inferInstanceAs (Decidable (_ = _))

/-- The atoms without that `$`. -/
def body (l : List Atom) : List Atom := if AtEnd l then l.dropLast else l

/-- Some part of the text is in the language of the pattern, at the start of the text for a pattern
with `^` and at its end for one with `$`. -/
def Matches (re text : List UInt8) : Prop :=
  ∃ u v w, text = u ++ v ++ w
    ∧ (re.head? = some caret → u = [])
    ∧ (AtEnd (atoms (if re.head? = some caret then re.tail else re)) → w = [])
    ∧ v ∈ language (body (atoms (if re.head? = some caret then re.tail else re)))

/-! ## Words of a language -/

/-- The first character of a word that begins with one of `c`. -/
theorem cons_mem_char_mul {c x : UInt8} {w : List UInt8} {L : Language UInt8} :
    x :: w ∈ charLanguage c * L ↔ (c = dot ∨ c = x) ∧ w ∈ L := by
  rw [Language.mem_mul]
  constructor
  · rintro ⟨_, ⟨y, hy, rfl⟩, b, hb, h⟩
    obtain ⟨rfl, rfl⟩ := List.cons.inj h
    exact ⟨hy, hb⟩
  · rintro ⟨hx, hw⟩
    exact ⟨[x], ⟨x, hx, rfl⟩, w, hw, rfl⟩

theorem nil_notMem_char_mul {c : UInt8} {L : Language UInt8} : [] ∉ charLanguage c * L := by
  rw [Language.mem_mul]
  rintro ⟨_, ⟨y, -, rfl⟩, b, -, h⟩
  cases h

/-- A starred character is there once more, or no more. -/
theorem mem_star_mul {c : UInt8} {w : List UInt8} {L : Language UInt8} :
    w ∈ (charLanguage c)∗ * L ↔ w ∈ L ∨ w ∈ charLanguage c * ((charLanguage c)∗ * L) := by
  nth_rewrite 1 [← Language.one_add_self_mul_kstar_eq_kstar (charLanguage c)]
  rw [add_mul, one_mul, mul_assoc]
  exact Iff.rfl

/-! ## What the functions find -/

/-- The text begins with a word of `L`, and ends with it if `e` holds. -/
def Begins (e : Prop) (L : Language UInt8) (text : List UInt8) : Prop :=
  ∃ v w, text = v ++ w ∧ (e → w = []) ∧ v ∈ L

variable {e : Prop} {L : Language UInt8} {c : UInt8} {here : List UInt8 → Bool}

theorem not_begins_nil : ¬ Begins e (charLanguage c * L) [] := by
  rintro ⟨v, w, h, -, hv⟩
  obtain ⟨rfl, -⟩ := List.append_eq_nil_iff.mp h.symm
  exact nil_notMem_char_mul hv

theorem begins_cons {t : UInt8} {text : List UInt8} :
    Begins e (charLanguage c * L) (t :: text) ↔ (c = dot ∨ c = t) ∧ Begins e L text := by
  constructor
  · rintro ⟨v, w, h, hw, hv⟩
    cases v with
    | nil => exact absurd hv nil_notMem_char_mul
    | cons x v =>
      obtain ⟨rfl, rfl⟩ := List.cons.inj h
      obtain ⟨hc, hv⟩ := cons_mem_char_mul.mp hv
      exact ⟨hc, v, w, rfl, hw, hv⟩
  · rintro ⟨hc, v, w, rfl, hw, hv⟩
    exact ⟨t :: v, w, rfl, hw, cons_mem_char_mul.mpr ⟨hc, hv⟩⟩

/-- No starred character is taken, or one and then some more. -/
theorem begins_star {text : List UInt8} : Begins e ((charLanguage c)∗ * L) text
    ↔ Begins e L text ∨ Begins e (charLanguage c * ((charLanguage c)∗ * L)) text := by
  constructor
  · rintro ⟨v, w, h, hw, hv⟩
    rcases mem_star_mul.mp hv with hv | hv
    · exact Or.inl ⟨v, w, h, hw, hv⟩
    · exact Or.inr ⟨v, w, h, hw, hv⟩
  · rintro (⟨v, w, h, hw, hv⟩ | ⟨v, w, h, hw, hv⟩)
    · exact ⟨v, w, h, hw, mem_star_mul.mpr (Or.inl hv)⟩
    · exact ⟨v, w, h, hw, mem_star_mul.mpr (Or.inr hv)⟩

/-- One character, and then the rest of the pattern. -/
theorem matchone_iff (hhere : ∀ text, here text = true ↔ Begins e L text) (text : List UInt8) :
    matchone c here text = true ↔ Begins e (charLanguage c * L) text := by
  cases text with
  | nil => exact iff_of_false Bool.false_ne_true not_begins_nil
  | cons t text =>
    unfold matchone
    rw [Bool.and_eq_true, Bool.or_eq_true, beq_iff_eq, beq_iff_eq, hhere, begins_cons]

/-- **The loop of `matchstar`**, by induction on the text. -/
theorem matchstar_iff (hhere : ∀ text, here text = true ↔ Begins e L text) (text : List UInt8) :
    matchstar c here text = true ↔ Begins e ((charLanguage c)∗ * L) text := by
  induction text with
  | nil =>
    unfold matchstar
    rw [hhere, begins_star, or_iff_left not_begins_nil]
  | cons t text ih =>
    refine Iff.trans ?_ begins_star.symm
    unfold matchstar
    rw [Bool.or_eq_true, Bool.and_eq_true, Bool.or_eq_true, beq_iff_eq, beq_iff_eq, hhere, ih,
      begins_cons, or_comm (a := t = c), eq_comm (a := t)]

/-! ## The end of a pattern -/

theorem atEnd_cons {a : Atom} {l : List Atom} (h : l = [] → a ≠ .one dollar) :
    AtEnd (a :: l) ↔ AtEnd l := by
  unfold AtEnd
  cases l with
  | nil =>
    rw [List.getLast?_singleton, List.getLast?_nil]
    refine iff_of_false (fun heq => h rfl (Option.some.inj heq)) ?_
    intro heq
    cases heq
  | cons b l => rw [List.getLast?_cons_cons]

/-- The first atom belongs to the body, unless it is the `$` at the end. -/
theorem language_body_cons {a : Atom} {l : List Atom} (h : l = [] → a ≠ .one dollar) :
    language (body (a :: l)) = a.language * language (body l) := by
  have hbody : body (a :: l) = a :: body l := by
    unfold body
    simp only [atEnd_cons h]
    by_cases hend : AtEnd l
    · rw [if_pos hend, if_pos hend]
      refine List.dropLast_cons_of_ne_nil ?_
      rintro rfl
      cases hend
    · rw [if_neg hend, if_neg hend]
  rw [hbody]
  exact List.prod_cons

/-- The empty pattern is found everywhere. -/
theorem begins_empty (text : List UInt8) : Begins (AtEnd []) (language (body [])) text := by
  refine ⟨[], text, rfl, ?_, rfl⟩
  intro hend
  cases hend

theorem atoms_ne_nil (c : UInt8) (re : List UInt8) : atoms (c :: re) ≠ [] := by
  cases re with
  | nil => exact List.cons_ne_nil _ _
  | cons d re =>
    unfold atoms
    split_ifs
    · exact List.cons_ne_nil _ _
    · exact List.cons_ne_nil _ _

/-- **`matchhere`** finds a word of the language at the beginning of the text, by induction along
the reading of the pattern. -/
theorem matchhere_iff (re text : List UInt8) : matchhere re text = true
    ↔ Begins (AtEnd (atoms re)) (language (body (atoms re))) text := by
  induction re using atoms.induct generalizing text with
  | case1 => exact iff_of_true rfl (begins_empty text)
  | case2 c =>
    unfold matchhere
    by_cases hc : c = dollar
    · subst hc
      rw [if_pos rfl, List.isEmpty_iff]
      constructor
      · rintro rfl
        exact ⟨[], [], rfl, fun _ => rfl, rfl⟩
      · rintro ⟨v, w, rfl, hw, hv⟩
        rw [hw rfl, List.append_nil]
        exact hv
    · have hne : ([] : List Atom) = [] → Atom.one c ≠ .one dollar :=
        fun _ heq => hc (Atom.one.inj heq)
      rw [if_neg hc, atoms, language_body_cons hne, atEnd_cons hne]
      exact matchone_iff (fun text => iff_of_true rfl (begins_empty text)) text
  | case3 c re ih =>
    have hne : atoms re = [] → Atom.many c ≠ .one dollar := fun _ heq => by cases heq
    rw [matchhere, if_pos rfl, atoms, if_pos rfl, language_body_cons hne, atEnd_cons hne]
    exact matchstar_iff ih text
  | case4 c d re hd ih =>
    have hne : atoms (d :: re) = [] → Atom.one c ≠ .one dollar :=
      fun hnil => absurd hnil (atoms_ne_nil d re)
    rw [matchhere, if_neg hd, atoms, if_neg hd, language_body_cons hne, atEnd_cons hne]
    exact matchone_iff ih text

/-- **The loop of `match`** tries every place of the text. -/
theorem matchFrom_iff (re text : List UInt8) :
    matchFrom re text = true ↔ ∃ u rest, text = u ++ rest ∧ matchhere re rest = true := by
  induction text with
  | nil =>
    unfold matchFrom
    constructor
    · exact fun h => ⟨[], [], rfl, h⟩
    · rintro ⟨u, rest, h, hrest⟩
      obtain ⟨-, rfl⟩ := List.append_eq_nil_iff.mp h.symm
      exact hrest
  | cons t text ih =>
    unfold matchFrom
    rw [Bool.or_eq_true, ih]
    constructor
    · rintro (h | ⟨u, rest, rfl, hrest⟩)
      · exact ⟨[], t :: text, rfl, h⟩
      · exact ⟨t :: u, rest, rfl, hrest⟩
    · rintro ⟨u, rest, h, hrest⟩
      cases u with
      | nil =>
        rw [List.nil_append] at h
        exact Or.inl (h ▸ hrest)
      | cons x u => exact Or.inr ⟨u, rest, (List.cons.inj h).2, hrest⟩

/-- **The matcher decides the language of its pattern.** -/
theorem match_iff_language (re text : List UInt8) : matchText re text = true ↔ Matches re text := by
  unfold matchText Matches
  by_cases hcaret : re.head? = some caret
  · simp only [if_pos hcaret]
    rw [matchhere_iff]
    constructor
    · rintro ⟨v, w, rfl, hw, hv⟩
      exact ⟨[], v, w, rfl, fun _ => rfl, hw, hv⟩
    · rintro ⟨u, v, w, rfl, hu, hw, hv⟩
      rw [hu hcaret]
      exact ⟨v, w, rfl, hw, hv⟩
  · simp only [if_neg hcaret]
    rw [matchFrom_iff]
    constructor
    · rintro ⟨u, rest, rfl, hrest⟩
      obtain ⟨v, w, rfl, hw, hv⟩ := (matchhere_iff re rest).mp hrest
      exact ⟨u, v, w, (List.append_assoc u v w).symm, fun h => absurd h hcaret, hw, hv⟩
    · rintro ⟨u, v, w, rfl, -, hw, hv⟩
      exact ⟨u, v ++ w, List.append_assoc u v w,
        (matchhere_iff re (v ++ w)).mpr ⟨v, w, rfl, hw, hv⟩⟩

/-- `^*a$*` is the anchored pattern of a star, an `a` and any number of `$`; `x$` is anchored at
the end. -/
example : atoms [star, 97, dollar, star] = [.one star, .one 97, .many dollar]
    ∧ matchText [caret, star, 97, dollar, star] [star, 97, dollar, dollar, 98] = true
    ∧ matchText [120, dollar] [120, 121] = false := by decide

end Xv6.Grep
