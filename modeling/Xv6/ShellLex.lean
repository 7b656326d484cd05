/-
# Tokens of a line

What `gettoken` and `peek` do, in terms of the part of the line from `s` on.  For any line
they stay inside of it, and a token of kind `'a'` is a word that ends where a byte that
is not of a word stands (`WordSpan`).

A text lays out a list of tokens (`Layout`) if it is these tokens in order, with any white
space around them and none needed where the next byte shows that the token has ended.  At
such a text `gettoken` returns the first token and goes on to a layout of the others.
-/
import Xv6.ShellModel

namespace Xv6.Shell

variable {c : UInt8} {q : ℕ}

/-! ## Loops over bytes -/

/-- A byte of a word. -/
def isWord (c : UInt8) : Bool := !strchr whitespace c && !strchr symbols c

theorem read_eq {line : List UInt8} {s : ℕ} (hs : s ≤ line.length) :
    read line s = .ok ((line.drop s).headD 0) := by
  unfold read
  by_cases hlt : s < line.length
  · rw [dif_pos hlt, List.drop_eq_getElem_cons hlt]
    rfl
  · obtain rfl : s = line.length := le_antisymm hs (not_lt.mp hlt)
    rw [dif_neg hlt, if_pos rfl, List.drop_length]
    rfl

theorem skip_eq {line : List UInt8} (test : UInt8 → Bool) {n s : ℕ} (hn : s + n = line.length) :
    skip line test n s = .ok (s + ((line.drop s).takeWhile test).length) := by
  induction n generalizing s with
  | zero =>
    rw [add_zero] at hn
    rw [hn, List.drop_length]
    rfl
  | succ n ih =>
    have hlt : s < line.length := by omega
    rw [skip, read_eq hlt.le, List.drop_eq_getElem_cons hlt, ok_bind, List.headD_cons,
      List.takeWhile_cons]
    split_ifs with hc
    · rw [ih (by omega), List.length_cons]
      congr 1
      ring
    · rfl

theorem drop_add_takeWhile {α : Type} (l : List α) (test : α → Bool) (s : ℕ) :
    l.drop (s + ((l.drop s).takeWhile test).length) = (l.drop s).dropWhile test := by
  rw [← List.drop_drop]
  have hsplit := (List.takeWhile_append_dropWhile (p := test) (l := l.drop s)).symm
  exact (congrArg (List.drop _) hsplit).trans List.drop_left

/-- Where a loop over bytes stops. -/
def past (line : List UInt8) (test : UInt8 → Bool) (s : ℕ) : ℕ :=
  s + ((line.drop s).takeWhile test).length

section Past

variable {line : List UInt8} {test : UInt8 → Bool} {s : ℕ}

theorem drop_past (line : List UInt8) (test : UInt8 → Bool) (s : ℕ) :
    line.drop (past line test s) = (line.drop s).dropWhile test :=
  drop_add_takeWhile line test s

theorem le_past (line : List UInt8) (test : UInt8 → Bool) (s : ℕ) : s ≤ past line test s :=
  Nat.le_add_right ..

theorem past_le (hs : s ≤ line.length) : past line test s ≤ line.length := by
  have hlen := (List.takeWhile_prefix (p := test) (l := line.drop s)).length_le
  rw [List.length_drop] at hlen
  unfold past
  omega

theorem skip_past (hs : s ≤ line.length) : skip line test (line.length - s) s = .ok (past line test s) :=
  skip_eq test (by omega)

/-- The byte where a loop stops fails the test. -/
theorem past_stop (hc : (line.drop (past line test s)).head? = some c) : test c = false := by
  rw [drop_past] at hc
  have hnot := List.head?_dropWhile_not test (line.drop s)
  rw [hc] at hnot
  simpa using hnot

theorem lt_past (hc : (line.drop s).head? = some c) (htest : test c = true) :
    s < past line test s := by
  unfold past
  cases hd : line.drop s with
  | nil =>
    rw [hd] at hc
    cases hc
  | cons b l =>
    rw [hd] at hc
    cases hc
    rw [List.takeWhile_cons, if_pos htest, List.length_cons]
    omega

end Past

/-! ## Tokens of any line -/

/-- The first byte from `s` on, the NUL at the end. -/
def first (line : List UInt8) (s : ℕ) : UInt8 := (line.drop s).headD 0

/-- The white space from `s` on is left behind. -/
abbrev tokenAt (line : List UInt8) (s : ℕ) : ℕ := past line (strchr whitespace) s

theorem peek_eq {line : List UInt8} {s : ℕ} (hs : s ≤ line.length) (toks : List UInt8) :
    peek line s toks
      = .ok (first line (tokenAt line s) != 0 && strchr toks (first line (tokenAt line s)), tokenAt line s) := by
  unfold peek skipWhitespace
  rw [skip_past hs, ok_bind, read_eq (past_le hs), ok_bind]
  rfl

theorem gettoken_eq {line : List UInt8} {s : ℕ} (hs : s ≤ line.length) {ret : UInt8} {e : ℕ}
    (hscan : scan line (tokenAt line s) (first line (tokenAt line s)) = .ok (ret, e)) (he : e ≤ line.length) :
    gettoken line s = .ok (ret, ⟨tokenAt line s, e⟩, tokenAt line e) := by
  unfold gettoken skipWhitespace
  rw [skip_past hs, ok_bind, read_eq (past_le hs), ok_bind]
  rw [show scan line (tokenAt line s) ((line.drop (tokenAt line s)).headD 0) = _ from hscan, ok_bind]
  simp only
  rw [skip_past he, ok_bind]
  rfl

theorem head?_of_first_ne {line : List UInt8} {s : ℕ} (h : first line s ≠ 0) :
    (line.drop s).head? = some (first line s) := by
  unfold first at h ⊢
  cases hd : line.drop s with
  | nil =>
    rw [hd] at h
    exact absurd rfl h
  | cons c l => rfl

theorem lt_of_head? {line : List UInt8} {s : ℕ} (h : (line.drop s).head? = some c) :
    s < line.length := by
  by_contra hge
  rw [List.drop_of_length_le (not_lt.mp hge)] at h
  cases h

/-- The bytes of a string of the line. -/
def slice (line : List UInt8) (w : Span) : List UInt8 := (line.drop w.q).take (w.eq - w.q)

/-- A word of the line, up to its end. -/
structure WordSpan (line : List UInt8) (w : Span) : Prop where
  le : w.q ≤ w.eq
  bound : w.eq ≤ line.length
  word : ∀ c ∈ slice line w, isWord c = true
  ends : ∀ c, (line.drop w.eq).head? = some c → isWord c = false

theorem wordSpan_past {line : List UInt8} (hq : q ≤ line.length) :
    WordSpan line ⟨q, past line isWord q⟩ := by
  refine ⟨le_past line isWord q, past_le hq, fun c hc => ?_, fun c hc => past_stop hc⟩
  have hslice : slice line ⟨q, past line isWord q⟩ = (line.drop q).takeWhile isWord := by
    unfold slice past
    rw [Nat.add_sub_cancel_left]
    exact (List.prefix_iff_eq_take.mp (List.takeWhile_prefix isWord)).symm
  rw [hslice] at hc
  exact List.mem_takeWhile_imp hc

theorem strchr_symbols :
    strchr symbols c = true
    ↔ strchr (['|', '(', ')', ';', '&', '<'].map Char.toUInt8) c = true ∨ c = '>'.toUInt8 := by
  simp only [strchr, symbols, List.contains_iff_mem, List.map_cons, List.map_nil, List.mem_cons,
    List.not_mem_nil, or_false]
  tauto

/-- The `switch` of `gettoken`, away from white space. -/
theorem scan_spec {line : List UInt8} (hq : q ≤ line.length)
    (hws : ∀ c, (line.drop q).head? = some c → strchr whitespace c = false) :
    ∃ ret e, scan line q (first line q) = .ok (ret, e) ∧ q ≤ e ∧ e ≤ line.length
      ∧ (first line q ≠ 0 → q < e) ∧ (ret = 'a'.toUInt8 → WordSpan line ⟨q, e⟩ ∧ q < e) := by
  unfold scan
  by_cases hzero : first line q = 0
  · rw [if_pos hzero]
    refine ⟨_, q, rfl, le_rfl, hq, fun hne => absurd hzero hne, fun ha => ?_⟩
    rw [hzero] at ha
    cases ha
  have hhead := head?_of_first_ne hzero
  have hlt := lt_of_head? hhead
  rw [if_neg hzero]
  by_cases hsym : strchr (['|', '(', ')', ';', '&', '<'].map Char.toUInt8) (first line q) = true
  · rw [if_pos hsym]
    refine ⟨_, q + 1, rfl, Nat.le_succ q, hlt, fun _ => Nat.lt_succ_self q, fun ha => ?_⟩
    rw [ha] at hsym
    cases hsym
  rw [if_neg hsym]
  by_cases hgt : first line q = '>'.toUInt8
  · rw [if_pos hgt, read_eq hlt, ok_bind]
    by_cases happ : (line.drop (q + 1)).headD 0 = '>'.toUInt8
    · rw [if_pos happ]
      have hlt' : q + 1 < line.length := lt_of_head? (head?_of_first_ne (s := q + 1) (by
        unfold first
        rw [happ]
        decide))
      exact ⟨_, q + 2, rfl, by omega, hlt', fun _ => by omega, fun ha => by cases ha⟩
    · rw [if_neg happ]
      refine ⟨_, q + 1, rfl, Nat.le_succ q, hlt, fun _ => Nat.lt_succ_self q, fun ha => ?_⟩
      rw [ha] at hgt
      cases hgt
  rw [if_neg hgt]
  -- a word: its first byte is neither white space nor a symbol
  have hword : isWord (first line q) = true := by
    unfold isWord
    rw [hws _ hhead, Bool.not_false, Bool.true_and, Bool.not_eq_true']
    apply Bool.eq_false_iff.mpr
    intro hs
    rcases strchr_symbols.mp hs with hs | hs
    · exact hsym hs
    · exact hgt hs
  refine ⟨'a'.toUInt8, past line isWord q, ?_, le_past .., past_le hq, fun _ => lt_past hhead hword,
    fun _ => ⟨wordSpan_past hq, lt_past hhead hword⟩⟩
  show (skip line isWord (line.length - q) q >>= _) = _
  rw [skip_past hq, ok_bind]
  rfl

/-- **`gettoken` on any line** stays inside of it, and moves on unless it is at the end. -/
theorem gettoken_spec {line : List UInt8} {s : ℕ} (hs : s ≤ line.length) (hnul : (0 : UInt8) ∉ line) :
    ∃ ret w s', gettoken line s = .ok (ret, w, s') ∧ s ≤ s' ∧ s' ≤ line.length
      ∧ (s < line.length → s < s') ∧ (ret = 'a'.toUInt8 → WordSpan line w ∧ s < s') := by
  have hq : tokenAt line s ≤ line.length := past_le hs
  have hsq : s ≤ tokenAt line s := le_past ..
  obtain ⟨ret, e, hscan, hle, he, hmoves, hword⟩ := scan_spec hq fun c hc => past_stop hc
  have hes : e ≤ tokenAt line e := le_past ..
  have hmove : s < line.length → s < tokenAt line e := by
    intro hlt
    rcases hsq.lt_or_eq with hskip | hstay
    · omega
    · -- no white space: the token has a byte
      have hne : first line (tokenAt line s) ≠ 0 := by
        rw [← hstay]
        unfold first
        rw [List.drop_eq_getElem_cons hlt, List.headD_cons]
        exact fun hzero => hnul (hzero ▸ List.getElem_mem hlt)
      have := hmoves hne
      omega
  refine ⟨ret, ⟨tokenAt line s, e⟩, tokenAt line e, gettoken_eq hs hscan he, by omega, past_le he, hmove,
    fun ha => ⟨(hword ha).1, ?_⟩⟩
  have := (hword ha).2
  omega

theorem peek_spec {line : List UInt8} {s : ℕ} (hs : s ≤ line.length) (toks : List UInt8) :
    ∃ b s', peek line s toks = .ok (b, s') ∧ s ≤ s' ∧ s' ≤ line.length
      ∧ (b = true → s' < line.length) := by
  refine ⟨_, _, peek_eq hs toks, le_past .., past_le hs, fun hb => ?_⟩
  rw [Bool.and_eq_true, bne_iff_ne] at hb
  exact lt_of_head? (head?_of_first_ne hb.1)

/-! ## Layouts -/

/-- A token: a symbol, `>>` or a word. -/
inductive Tok where
  | sym (c : UInt8)
  | append
  | word (w : List UInt8)
  deriving DecidableEq, Repr

variable {ts : List Tok} {t : Tok}

namespace Tok

/-- The bytes of a token. -/
def text : Tok → List UInt8
  | sym c => [c]
  | append => ['>'.toUInt8, '>'.toUInt8]
  | word w => w

/-- What `gettoken` returns for it. -/
def ret : Tok → UInt8
  | sym c => c
  | append => '+'.toUInt8
  | word _ => 'a'.toUInt8

/-- A token that can stand in a line. -/
def Ok : Tok → Prop
  | sym c => strchr symbols c = true
  | append => True
  | word w => w ≠ [] ∧ ∀ c ∈ w, isWord c = true ∧ c ≠ 0

/-- The bytes that may follow a token directly. -/
def EndsBefore : Tok → List UInt8 → Prop
  | sym c, rest => c = '>'.toUInt8 → rest.head? ≠ some '>'.toUInt8
  | append, _ => True
  | word _, rest => ∀ c, rest.head? = some c → isWord c = false

end Tok

/-- `Layout ts text`: the text is the tokens `ts` in order, with white space around them. -/
inductive Layout : List Tok → List UInt8 → Prop
  | nil {space : List UInt8} (hspace : ∀ c ∈ space, strchr whitespace c = true) : Layout [] space
  | cons {space : List UInt8} {t : Tok} {ts : List Tok} {rest : List UInt8}
      (hspace : ∀ c ∈ space, strchr whitespace c = true) (ht : t.Ok) (hends : t.EndsBefore rest)
      (hrest : Layout ts rest) : Layout (t :: ts) (space ++ t.text ++ rest)

/-- The first byte of the next token. -/
def lead : List Tok → UInt8
  | [] => 0
  | t :: _ => t.text.headD 0

theorem not_whitespace_of_symbol (h : strchr symbols c = true) :
    strchr whitespace c = false ∧ c ≠ 0 := by
  simp only [strchr, symbols, List.contains_iff_mem, List.map_cons, List.map_nil, List.mem_cons,
    List.not_mem_nil, or_false] at h
  rcases h with rfl | rfl | rfl | rfl | rfl | rfl | rfl <;> decide

/-- The bytes of a token: the first one is not white space. -/
theorem Tok.Ok.text_cons (h : t.Ok) :
    ∃ c l, t.text = c :: l ∧ strchr whitespace c = false ∧ c ≠ 0 := by
  cases t with
  | sym c =>
    obtain ⟨hws, hne⟩ := not_whitespace_of_symbol h
    exact ⟨c, [], rfl, hws, hne⟩
  | append => exact ⟨_, _, rfl, by decide, by decide⟩
  | word w =>
    cases w with
    | nil => exact absurd rfl h.1
    | cons c l =>
      obtain ⟨hword, hne⟩ := h.2 c List.mem_cons_self
      unfold isWord at hword
      rw [Bool.and_eq_true, Bool.not_eq_true'] at hword
      exact ⟨c, l, rfl, hword.1, hne⟩

theorem dropWhile_append_of_all {α : Type} {p : α → Bool} {l l' : List α} (h : ∀ a ∈ l, p a = true) :
    (l ++ l').dropWhile p = l'.dropWhile p := by
  rw [List.dropWhile_append, List.dropWhile_eq_nil_iff.mpr h]
  rfl

theorem takeWhile_append_stop {α : Type} {p : α → Bool} {l l' : List α} (h : ∀ a ∈ l, p a = true)
    (h' : ∀ a, l'.head? = some a → p a = false) : (l ++ l').takeWhile p = l := by
  rw [List.takeWhile_append_of_pos h]
  cases l' with
  | nil => simp
  | cons a l' => simp [h' a rfl]

/-- Leading white space does not matter to a layout. -/
theorem Layout.dropWhile {text : List UInt8} (h : Layout ts text) :
    Layout ts (text.dropWhile (strchr whitespace)) := by
  cases h with
  | nil hspace =>
    rw [List.dropWhile_eq_nil_iff.mpr hspace]
    exact Layout.nil fun c hc => absurd hc List.not_mem_nil
  | @cons space t ts rest hspace ht hends hrest =>
    obtain ⟨c, l, htext, hws, -⟩ := ht.text_cons
    rw [List.append_assoc, dropWhile_append_of_all hspace, htext, List.cons_append,
      List.dropWhile_cons, hws, if_neg Bool.false_ne_true, ← List.cons_append, ← htext]
    exact show Layout _ ([] ++ t.text ++ rest) from
      Layout.cons (fun c hc => absurd hc List.not_mem_nil) ht hends hrest

/-- The line from `s` on lays out the tokens `ts`. -/
structure At (line : List UInt8) (s : ℕ) (ts : List Tok) : Prop where
  bound : s ≤ line.length
  layout : Layout ts (line.drop s)

theorem At.tokenAt {line : List UInt8} {s : ℕ} (h : At line s ts) :
    At line (tokenAt line s) ts := by
  refine ⟨past_le h.bound, ?_⟩
  rw [drop_past]
  exact h.layout.dropWhile

theorem At.drop_cons {line : List UInt8} {s : ℕ} (h : At line s (t :: ts)) :
    ∃ rest, line.drop (Shell.tokenAt line s) = t.text ++ rest ∧ t.Ok ∧ t.EndsBefore rest ∧ Layout ts rest := by
  rw [drop_past]
  generalize line.drop s = text, h.layout = hl
  cases hl with
  | @cons space _ _ rest hspace ht hends hrest =>
    obtain ⟨c, l, htext, hws, -⟩ := ht.text_cons
    refine ⟨rest, ?_, ht, hends, hrest⟩
    rw [List.append_assoc, dropWhile_append_of_all hspace, htext, List.cons_append,
      List.dropWhile_cons, hws, if_neg Bool.false_ne_true]

theorem At.drop_nil {line : List UInt8} {s : ℕ} (h : At line s []) :
    line.drop (Shell.tokenAt line s) = [] := by
  rw [drop_past]
  generalize line.drop s = text, h.layout = hl
  cases hl with
  | nil hspace => exact List.dropWhile_eq_nil_iff.mpr hspace

theorem At.first_eq {line : List UInt8} {s : ℕ} (h : At line s ts) :
    first line (Shell.tokenAt line s) = lead ts := by
  unfold first
  cases ts with
  | nil =>
    rw [h.drop_nil]
    rfl
  | cons t ts =>
    obtain ⟨rest, hdrop, ht, -⟩ := h.drop_cons
    obtain ⟨c, l, htext, -⟩ := ht.text_cons
    rw [hdrop, lead, htext]
    rfl

theorem At.peek {line : List UInt8} {s : ℕ} (h : At line s ts) (toks : List UInt8) :
    peek line s toks = .ok (lead ts != 0 && strchr toks (lead ts), Shell.tokenAt line s) := by
  rw [peek_eq h.bound, h.first_eq]

/-- The `switch` of `gettoken` at the beginning of a token. -/
theorem scan_tok {line : List UInt8} {rest : List UInt8} (hq : q ≤ line.length)
    (hdrop : line.drop q = t.text ++ rest) (ht : t.Ok) (hends : t.EndsBefore rest) :
    scan line q (first line q) = .ok (t.ret, q + t.text.length) := by
  have hfirst : first line q = (t.text ++ rest).headD 0 := by
    unfold first
    rw [hdrop]
  have hnext : ∀ c l, t.text ++ rest = c :: l → read line (q + 1) = .ok (l.headD 0) := by
    intro c l hcons
    have hlt : q < line.length := lt_of_head? (c := c) (by rw [hdrop, hcons]; rfl)
    rw [read_eq (show q + 1 ≤ line.length from hlt), ← List.drop_drop, hdrop, hcons]
    rfl
  unfold scan
  cases t with
  | sym c =>
    have hc : first line q = c := hfirst
    rw [hc, if_neg (not_whitespace_of_symbol ht).2]
    by_cases hgt : c = '>'.toUInt8
    · subst hgt
      have hne : rest.headD 0 ≠ '>'.toUInt8 := by
        intro hx
        apply hends rfl
        cases rest with
        | nil => cases hx
        | cons b l => exact congrArg some hx
      rw [if_neg (by decide), if_pos rfl, hnext _ rest rfl, ok_bind, if_neg hne]
      rfl
    · rw [if_pos ((strchr_symbols.mp ht).resolve_right hgt)]
      rfl
  | append =>
    have hc : first line q = '>'.toUInt8 := hfirst
    rw [hc, if_neg (by decide), if_neg (by decide), if_pos rfl, hnext _ ('>'.toUInt8 :: rest) rfl, ok_bind,
      List.headD_cons, if_pos rfl]
    rfl
  | word w =>
    obtain ⟨hne, hall⟩ := ht
    obtain ⟨c, l, rfl⟩ := List.exists_cons_of_ne_nil hne
    have hc : first line q = c := hfirst
    obtain ⟨hword, hzero⟩ := hall c List.mem_cons_self
    have hnot : ¬ strchr symbols c = true := by
      unfold isWord at hword
      rw [Bool.and_eq_true, Bool.not_eq_true', Bool.not_eq_true'] at hword
      exact Bool.eq_false_iff.mp hword.2
    rw [hc, if_neg hzero, if_neg fun hs => hnot (strchr_symbols.mpr (Or.inl hs)),
      if_neg fun hs => hnot (strchr_symbols.mpr (Or.inr hs))]
    show (skip line isWord (line.length - q) q >>= _) = _
    rw [skip_past hq, ok_bind, past, hdrop]
    show Except.ok _ = Except.ok _
    rw [takeWhile_append_stop (l := (Tok.word (c :: l)).text) (fun b hb => (hall b hb).1) hends]
    rfl

theorem At.gettoken {line : List UInt8} {s : ℕ} (h : At line s (t :: ts)) :
    ∃ w s', gettoken line s = .ok (t.ret, w, s') ∧ At line s' ts ∧ slice line w = t.text ∧ s < s' := by
  obtain ⟨rest, hdrop, ht, hends, hrest⟩ := h.drop_cons
  have hq : Shell.tokenAt line s ≤ line.length := past_le h.bound
  have hsq : s ≤ Shell.tokenAt line s := le_past ..
  have hscan := scan_tok hq hdrop ht hends
  have hlen : (Shell.tokenAt line s) + t.text.length ≤ line.length := by
    have := congrArg List.length hdrop
    rw [List.length_drop, List.length_append] at this
    omega
  have hdrop' : line.drop (Shell.tokenAt line s + t.text.length) = rest := by
    rw [← List.drop_drop, hdrop, List.drop_left]
  have hat : At line (Shell.tokenAt line s + t.text.length) ts := ⟨hlen, hdrop' ▸ hrest⟩
  refine ⟨_, _, gettoken_eq h.bound hscan hlen, hat.tokenAt, ?_, ?_⟩
  · unfold slice
    simp only [Nat.add_sub_cancel_left]
    rw [hdrop, List.take_left]
  · obtain ⟨c, l, htext, -⟩ := ht.text_cons
    have hpos : 0 < t.text.length := by rw [htext]; exact Nat.succ_pos _
    have hle : Shell.tokenAt line s + t.text.length ≤ Shell.tokenAt line (Shell.tokenAt line s + t.text.length) :=
      le_past ..
    omega

theorem At.gettoken_nil {line : List UInt8} {s : ℕ} (h : At line s []) :
    ∃ w s', Shell.gettoken line s = .ok (0, w, s') ∧ At line s' [] ∧ s ≤ s' := by
  have hq : Shell.tokenAt line s ≤ line.length := past_le h.bound
  have hscan : scan line (Shell.tokenAt line s) (first line (Shell.tokenAt line s))
      = .ok (0, Shell.tokenAt line s) := by
    rw [h.first_eq]
    rfl
  exact ⟨_, _, gettoken_eq h.bound hscan hq, h.tokenAt.tokenAt, (le_past ..).trans (le_past ..)⟩

end Xv6.Shell
