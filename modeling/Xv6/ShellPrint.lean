/-
# Parsing inverts printing

`print` writes a command as tokens, with parentheses where a level of the grammar does not
have the command, and a text that lays these tokens out is parsed to the command again
(`Inverts`).  The levels are those of the parser: a line is pipes with `&` behind them and
`;` between them, a pipe is blocks and simple commands with `|` between them.

Redirections and `&` stand behind what they belong to.  The parser collects them in loops,
so the statements about these levels are for any number of further redirections or `&`.
-/
import Xv6.ShellParse

namespace Xv6.Shell

variable {c : Char} {set : List Char} {rest ts : List Tok} {w : List UInt8} {n s : ℕ}

/-! ## Printing -/

/-- The levels of the grammar. -/
inductive Level where
  | line
  | back
  | pipe
  | exec
  deriving DecidableEq, Repr

/-- A symbol. -/
def tok (c : Char) : Tok := .sym c.toUInt8

/-- Tokens in parentheses where they are needed. -/
def paren (needed : Bool) (ts : List Tok) : List Tok :=
  if needed then tok '(' :: (ts ++ [tok ')']) else ts

/-- The symbol of a redirection. -/
def redirTok (mode : ℕ) : Tok :=
  if mode = oRdonly then tok '<'
  else if mode = (oWronly ||| oCreate ||| oTrunc) then tok '>'
  else .append

/-- The command as tokens, where the grammar has the given level. -/
def print : Cmd (List UInt8) → Level → List Tok
  | .exec argv, _ => argv.map Tok.word
  | .redir cmd file mode _, _ => print cmd .exec ++ [redirTok mode, .word file]
  | .pipe left right, level =>
    paren (level = .exec) (print left .exec ++ tok '|' :: print right .pipe)
  | .back cmd, level => paren (level = .exec ∨ level = .pipe) (print cmd .back ++ [tok '&'])
  | .list left right, level =>
    paren (level ≠ .line) (print left .back ++ tok ';' :: print right .line)

/-- A word that can be written: not empty, and without white space, symbols and NUL. -/
def WordText (w : List UInt8) : Prop := w ≠ [] ∧ ∀ c ∈ w, isWord c = true ∧ c ≠ 0

/-- The redirections `<`, `>` and `>>`. -/
def Redirection (mode fd : ℕ) : Prop :=
  (mode = oRdonly ∧ fd = 0) ∨ (mode = (oWronly ||| oCreate ||| oTrunc) ∧ fd = 1)
    ∨ (mode = (oWronly ||| oCreate) ∧ fd = 1)

/-- The commands that can be written. -/
def Cmd.Printable : Cmd (List UInt8) → Prop
  | .exec argv => argv.length ≤ 9 ∧ ∀ w ∈ argv, WordText w
  | .redir cmd file mode fd => cmd.Printable ∧ WordText file ∧ Redirection mode fd
  | .pipe left right => left.Printable ∧ right.Printable
  | .list left right => left.Printable ∧ right.Printable
  | .back cmd => cmd.Printable

instance WordText.decidable (w : List UInt8) : Decidable (WordText w) :=
  have : Decidable (∀ c ∈ w, isWord c = true ∧ c ≠ 0) := List.decidableBAll _ _
  inferInstanceAs (Decidable (_ ∧ _))

instance Redirection.decidable (mode fd : ℕ) : Decidable (Redirection mode fd) :=
  inferInstanceAs (Decidable (_ ∨ _))

instance Cmd.decidablePrintable : (cmd : Cmd (List UInt8)) → Decidable cmd.Printable
  | .exec argv =>
    have : Decidable (∀ w ∈ argv, WordText w) := List.decidableBAll _ _
    inferInstanceAs (Decidable (_ ∧ _))
  | .redir cmd file mode fd =>
    have := cmd.decidablePrintable
    inferInstanceAs (Decidable (cmd.Printable ∧ WordText file ∧ Redirection mode fd))
  | .pipe left right =>
    have := left.decidablePrintable
    have := right.decidablePrintable
    inferInstanceAs (Decidable (left.Printable ∧ right.Printable))
  | .list left right =>
    have := left.decidablePrintable
    have := right.decidablePrintable
    inferInstanceAs (Decidable (left.Printable ∧ right.Printable))
  | .back cmd => cmd.decidablePrintable

/-- A text for tokens, with one blank before each. -/
def render (ts : List Tok) : List UInt8 := ts.flatMap fun t => ' '.toUInt8 :: t.text

theorem Layout.render (h : ∀ t ∈ ts, t.Ok) : Layout ts (render ts) := by
  induction ts with
  | nil => exact Layout.nil fun c hc => absurd hc List.not_mem_nil
  | cons t ts ih =>
    have hrest := ih fun x hx => h x (List.mem_cons_of_mem t hx)
    have hhead : ∀ c, (Shell.render ts).head? = some c → c = ' '.toUInt8 := by
      intro c hc
      cases ts with
      | nil => cases hc
      | cons x ts => exact (Option.some.inj hc).symm
    refine show Layout (t :: ts) (([' '.toUInt8] ++ t.text) ++ Shell.render ts) from
      Layout.cons (by simp [strchr, whitespace]) (h t List.mem_cons_self) ?_ hrest
    cases t with
    | sym c =>
      intro _ hx
      have := hhead _ hx
      cases this
    | append => trivial
    | word w =>
      intro c hc
      rw [hhead c hc]
      decide

theorem ok_tok (h : strchr symbols c.toUInt8 = true) : (tok c).Ok := h

theorem ok_redirTok (mode : ℕ) : (redirTok mode).Ok := by
  unfold redirTok
  split_ifs
  · exact ok_tok (by decide)
  · exact ok_tok (by decide)
  · trivial

theorem ok_paren {needed : Bool} (h : ∀ t ∈ ts, t.Ok) : ∀ t ∈ paren needed ts, t.Ok := by
  unfold paren
  split_ifs
  · intro t ht
    simp only [List.mem_cons, List.mem_append, List.not_mem_nil, or_false] at ht
    rcases ht with rfl | ht | rfl
    · exact ok_tok (by decide)
    · exact h t ht
    · exact ok_tok (by decide)
  · exact h

theorem ok_print {cmd : Cmd (List UInt8)} (h : cmd.Printable) (level : Level) :
    ∀ t ∈ print cmd level, t.Ok := by
  induction cmd generalizing level with
  | exec argv =>
    intro t ht
    obtain ⟨w, hw, rfl⟩ := List.mem_map.mp ht
    exact h.2 w hw
  | redir cmd file mode fd ih =>
    intro t ht
    simp only [print, List.mem_append, List.mem_cons, List.not_mem_nil, or_false] at ht
    rcases ht with ht | rfl | rfl
    · exact ih h.1 _ t ht
    · exact ok_redirTok mode
    · exact h.2.1
  | pipe left right ihl ihr =>
    refine ok_paren fun t ht => ?_
    simp only [List.mem_append, List.mem_cons] at ht
    rcases ht with ht | rfl | ht
    · exact ihl h.1 _ t ht
    · exact ok_tok (by decide)
    · exact ihr h.2 _ t ht
  | list left right ihl ihr =>
    refine ok_paren fun t ht => ?_
    simp only [List.mem_append, List.mem_cons] at ht
    rcases ht with ht | rfl | ht
    · exact ihl h.1 _ t ht
    · exact ok_tok (by decide)
    · exact ihr h.2 _ t ht
  | back cmd ih =>
    refine ok_paren fun t ht => ?_
    simp only [List.mem_append, List.mem_cons, List.not_mem_nil, or_false] at ht
    rcases ht with ht | rfl
    · exact ih h _ t ht
    · exact ok_tok (by decide)

/-! ## Redirections -/

/-- The command with other strings. -/
def Cmd.map {W V : Type} (f : W → V) : Cmd W → Cmd V
  | .exec argv => .exec (argv.map f)
  | .redir cmd file mode fd => .redir (cmd.map f) (f file) mode fd
  | .pipe left right => .pipe (left.map f) (right.map f)
  | .list left right => .list (left.map f) (right.map f)
  | .back cmd => .back (cmd.map f)

/-- A redirection: the file, the mode and the descriptor. -/
abbrev Redir := List UInt8 × ℕ × ℕ

/-- A redirection that can be written. -/
def Redir.Printable (r : Redir) : Prop := WordText r.1 ∧ Redirection r.2.1 r.2.2

def redirToks (rs : List Redir) : List Tok := rs.flatMap fun r => [redirTok r.2.1, .word r.1]

/-- Redirections around a command, the last one outermost. -/
def wrap (cmd : Cmd (List UInt8)) (rs : List Redir) : Cmd (List UInt8) :=
  rs.foldl (fun c r => .redir c r.1 r.2.1 r.2.2) cmd

/-- What may follow: the end, or a symbol of a set. -/
def Follow (set : List Char) (rest : List Tok) : Prop :=
  rest = [] ∨ ∃ c ∈ set, ∃ ts, rest = tok c :: ts

/-- `peek` does not find one of `toks`. -/
def Misses (toks : List Char) (ts : List Tok) : Prop :=
  (lead ts != 0 && strchr (toks.map Char.toUInt8) (lead ts)) = false

theorem redircmd_redirTok {W : Type} {mode fd : ℕ} (h : Redirection mode fd) (cmd : Cmd W) (file : W) :
    redircmd cmd (redirTok mode).ret file = .redir cmd file mode fd := by
  rcases h with ⟨rfl, rfl⟩ | ⟨rfl, rfl⟩ | ⟨rfl, rfl⟩ <;> rfl

theorem peek_redirTok (mode : ℕ) (ts : List Tok) :
    (lead (redirTok mode :: ts) != 0
      && strchr (['<', '>'].map Char.toUInt8) (lead (redirTok mode :: ts))) = true := by
  unfold redirTok
  split_ifs <;> rfl

/-- A byte of a word is no symbol. -/
theorem misses_word (hw : WordText w) (ts : List Tok) {toks : List Char}
    (htoks : toks.all (fun c => strchr symbols c.toUInt8) = true) :
    Misses toks (.word w :: ts) := by
  obtain ⟨c, l, rfl⟩ := List.exists_cons_of_ne_nil hw.1
  obtain ⟨hword, -⟩ := hw.2 c List.mem_cons_self
  have hnot : strchr (toks.map Char.toUInt8) c = false := by
    apply Bool.eq_false_iff.mpr
    intro hs
    obtain ⟨d, hd, rfl⟩ := List.mem_map.mp (List.contains_iff_mem.mp hs)
    unfold isWord at hword
    rw [List.all_eq_true.mp htoks d hd, Bool.not_true, Bool.and_false] at hword
    cases hword
  show (c != 0 && strchr (toks.map Char.toUInt8) c) = false
  rw [hnot, Bool.and_false]

theorem Follow.misses {toks : List Char} (h : Follow set rest)
    (htoks : set.all (fun c => !strchr (toks.map Char.toUInt8) c.toUInt8) = true) :
    Misses toks rest := by
  rcases h with rfl | ⟨c, hc, ts, rfl⟩
  · rfl
  · show (c.toUInt8 != 0 && strchr (toks.map Char.toUInt8) c.toUInt8) = false
    have hc' := List.all_eq_true.mp htoks c hc
    rw [Bool.not_eq_true'] at hc'
    rw [hc', Bool.and_false]

section Inverse

variable {line : List UInt8}

theorem At.peek_false (h : At line s ts) (toks : List Char) (hm : Misses toks ts) :
    Shell.peek line s (toks.map Char.toUInt8) = .ok (false, Shell.tokenAt line s) := by
  rw [h.peek]
  exact congrArg (fun b => Except.ok (b, _)) hm

theorem At.peek_true (h : At line s (tok c :: ts)) (toks : List Char) (hc : c ∈ toks) :
    Shell.peek line s (toks.map Char.toUInt8) = .ok (true, Shell.tokenAt line s) := by
  obtain ⟨_, _, ht, -⟩ := h.drop_cons
  have hb : (lead (tok c :: ts) != 0 && strchr (toks.map Char.toUInt8) (lead (tok c :: ts))) = true := by
    rw [Bool.and_eq_true, bne_iff_ne]
    refine ⟨(not_whitespace_of_symbol ht).2, ?_⟩
    exact List.contains_iff_mem.mpr (List.mem_map_of_mem hc)
  rw [h.peek, hb]

theorem parseredirs_none (n : ℕ) (cmd : Cmd Span) (hat : At line s ts) (hm : Misses ['<', '>'] ts) :
    parseredirs line (n + 1) cmd s = .ok (cmd, Shell.tokenAt line s) := by
  rw [parseredirs, hat.peek_false _ hm, ok_bind]
  rfl

/-- **The loop of `parseredirs`** reads the redirections that stand there. -/
theorem parseredirs_at (cmd : Cmd Span) {rs : List Redir} (hrs : ∀ r ∈ rs, r.Printable)
    (hat : At line s (redirToks rs ++ rest)) (hrest : Misses ['<', '>'] rest)
    (hn : line.length - s < n) :
    ∃ cmd' s', parseredirs line n cmd s = .ok (cmd', s') ∧ At line s' rest ∧ s ≤ s'
      ∧ cmd'.map (slice line) = wrap (cmd.map (slice line)) rs := by
  induction rs generalizing n s cmd with
  | nil =>
    obtain ⟨n, rfl⟩ := Nat.exists_eq_succ_of_ne_zero (Nat.ne_zero_of_lt hn)
    exact ⟨cmd, Shell.tokenAt line s, parseredirs_none n cmd hat hrest, hat.tokenAt, le_past .., rfl⟩
  | cons r rs ih =>
    obtain ⟨n, rfl⟩ := Nat.exists_eq_succ_of_ne_zero (Nat.ne_zero_of_lt hn)
    obtain ⟨hword, hredir⟩ := hrs r List.mem_cons_self
    have hle₁ : s ≤ Shell.tokenAt line s := le_past ..
    have hpeek := hat.peek (['<', '>'].map Char.toUInt8)
    rw [show redirToks (r :: rs) ++ rest = redirTok r.2.1 :: (.word r.1 :: (redirToks rs ++ rest)) from rfl]
      at hat hpeek
    rw [peek_redirTok] at hpeek
    obtain ⟨_, s₂, hget, hat₂, -, hlt₂⟩ := hat.tokenAt.gettoken
    obtain ⟨file, s₃, hget', hat₃, hslice, hlt₃⟩ := hat₂.gettoken
    have hb₃ := hat₃.bound
    obtain ⟨cmd', s', hrun, hat', hle', hmap⟩ :=
      @ih n s₃ (redircmd cmd (redirTok r.2.1).ret file)
        (fun x hx => hrs x (List.mem_cons_of_mem r hx)) hat₃ (by omega)
    refine ⟨cmd', s', ?_, hat', by omega, ?_⟩
    · rw [parseredirs, hpeek, ok_bind]
      simp only [if_true, hget, hget', ok_bind]
      rw [if_neg (show ¬ (Tok.word r.1).ret ≠ 'a'.toUInt8 from not_not.mpr rfl)]
      exact hrun
    · rw [hmap, redircmd_redirTok hredir]
      show wrap (.redir (cmd.map _) (slice line file) _ _) rs = _
      rw [hslice]
      rfl

/-- The loop of `parseexec` ends before what may follow a simple command. -/
theorem parseargs_stop (n argc : ℕ) (ret : Cmd Span) {s : ℕ} {rest : List Tok} (hat : At line s rest)
    (hrest : Follow ['|', ')', '&', ';'] rest) :
    ∃ s', parseargs line (n + 1) argc ret s = .ok (ret, s') ∧ At line s' rest ∧ s ≤ s' := by
  have hle : s ≤ Shell.tokenAt line s := le_past ..
  rcases hrest with rfl | ⟨c, hc, ts, rfl⟩
  · obtain ⟨w, s', hget, hat', hmove⟩ := hat.tokenAt.gettoken_nil
    refine ⟨s', ?_, hat', hle.trans hmove⟩
    rw [parseargs, hat.peek_false ['|', ')', '&', ';'] rfl, ok_bind]
    simp only [Bool.false_eq_true, if_false, hget, ok_bind, if_true]
    rfl
  · refine ⟨Shell.tokenAt line s, ?_, hat.tokenAt, hle⟩
    rw [parseargs, hat.peek_true _ hc, ok_bind]
    rfl

theorem parseargs_word (n argc : ℕ) (ret : Cmd Span) (hw : WordText w)
    (hat : At line s (.word w :: ts)) (hargc : argc + 1 < maxArgs) :
    ∃ word s', slice line word = w ∧ At line s' ts ∧ s < s'
      ∧ parseargs line (n + 1) argc ret s
        = (parseredirs line (line.length + 1) (addArg ret word) s' >>= fun x =>
          parseargs line n (argc + 1) x.1 x.2) := by
  have hle : s ≤ Shell.tokenAt line s := le_past ..
  obtain ⟨word, s', hget, hat', hslice, hlt⟩ := hat.tokenAt.gettoken
  refine ⟨word, s', hslice, hat', by omega, ?_⟩
  rw [parseargs, hat.peek_false ['|', ')', '&', ';'] (misses_word hw ts (by decide)), ok_bind]
  simp only [Bool.false_eq_true, if_false, hget, ok_bind]
  have hne : (Tok.word w).ret ≠ 0 := show 'a'.toUInt8 ≠ 0 by decide
  rw [if_neg hne, if_neg (show ¬ (Tok.word w).ret ≠ 'a'.toUInt8 from not_not.mpr rfl),
    if_neg (not_le.mpr hargc)]

/-- **The loop of `parseexec`** reads the words, and the redirections behind the last one. -/
theorem parseargs_at {n : ℕ} (argv : List Span) {s : ℕ} {w : List UInt8} {ws : List (List UInt8)} {rs : List Redir}
    {rest : List Tok} (hws : ∀ x ∈ w :: ws, WordText x) (hrs : ∀ r ∈ rs, r.Printable)
    (hat : At line s ((w :: ws).map Tok.word ++ (redirToks rs ++ rest)))
    (hrest : Follow ['|', ')', '&', ';'] rest) (hlen : argv.length + (w :: ws).length < maxArgs)
    (hn : line.length - s < n) :
    ∃ cmd s', parseargs line n argv.length (.exec argv) s = .ok (cmd, s') ∧ At line s' rest ∧ s ≤ s'
      ∧ cmd.map (slice line) = wrap (.exec (argv.map (slice line) ++ w :: ws)) rs := by
  obtain ⟨n, rfl⟩ := Nat.exists_eq_succ_of_ne_zero (Nat.ne_zero_of_lt hn)
  have hb := hat.bound
  induction ws generalizing n s argv w with
  | nil =>
    obtain ⟨word, s₂, hslice, hat₂, hlt₂, hrun⟩ :=
      parseargs_word n argv.length (.exec argv) (hws w List.mem_cons_self) hat hlen
    obtain ⟨cmd, s₃, hredirs, hat₃, hle₃, hmap⟩ := parseredirs_at (n := line.length + 1)
      (addArg (.exec argv) word) hrs hat₂ (hrest.misses (by decide)) (by omega)
    have hb₃ := hat₃.bound
    obtain ⟨n, rfl⟩ := Nat.exists_eq_succ_of_ne_zero (show n ≠ 0 by omega)
    obtain ⟨s₄, hstop, hat₄, hle₄⟩ := parseargs_stop n (argv.length + 1) cmd hat₃ hrest
    refine ⟨cmd, s₄, ?_, hat₄, by omega, ?_⟩
    · rw [hrun, hredirs, ok_bind]
      exact hstop
    · rw [hmap]
      simp [addArg, Cmd.map, hslice]
  | cons w' ws ih =>
    have hw' : WordText w' := hws w' (List.mem_cons_of_mem w List.mem_cons_self)
    obtain ⟨word, s₂, hslice, hat₂, hlt₂, hrun⟩ :=
      parseargs_word n argv.length (.exec argv) (hws w List.mem_cons_self) hat
        (by simp only [List.length_cons] at hlen; omega)
    have hredirs := parseredirs_none line.length (addArg (.exec argv) word) hat₂
      (misses_word hw' _ (by decide))
    have hle₂ : s₂ ≤ Shell.tokenAt line s₂ := le_past ..
    have hb₂ := hat₂.tokenAt.bound
    obtain ⟨n, rfl⟩ := Nat.exists_eq_succ_of_ne_zero (show n ≠ 0 by omega)
    obtain ⟨cmd, s', hrest', hat', hle', hmap⟩ := @ih (argv ++ [word]) (Shell.tokenAt line s₂) w'
      (fun x hx => hws x (List.mem_cons_of_mem w hx)) hat₂.tokenAt
      (by simp only [List.length_append, List.length_cons, List.length_nil] at hlen ⊢; omega) n
      (by omega) hb₂
    refine ⟨cmd, s', ?_, hat', by omega, ?_⟩
    · rw [hrun, hredirs, ok_bind]
      rw [List.length_append, List.length_singleton] at hrest'
      exact hrest'
    · rw [hmap]
      simp [hslice]

/-! ## The levels -/

/-- A parsing function called at `s` returns the command `cmd` and stops before `rest`. -/
def Gives (line : List UInt8) (s : ℕ) (r : Except Fault (Cmd Span × ℕ)) (rest : List Tok)
    (cmd : Cmd (List UInt8)) : Prop :=
  ∃ cmd' s', r = .ok (cmd', s') ∧ At line s' rest ∧ s ≤ s' ∧ cmd'.map (slice line) = cmd

theorem Gives.bind {r : Except Fault (Cmd Span × ℕ)} {rest' : List Tok}
    {cmd cmd' : Cmd (List UInt8)} {f : Cmd Span × ℕ → Except Fault (Cmd Span × ℕ)}
    (h : Gives line s r rest cmd)
    (hf : ∀ c s', s ≤ s' → At line s' rest → c.map (slice line) = cmd →
      Gives line s' (f (c, s')) rest' cmd') :
    Gives line s (r >>= f) rest' cmd' := by
  obtain ⟨c, s', rfl, hat, hle, hmap⟩ := h
  obtain ⟨c', s'', hrun, hat', hle', hmap'⟩ := hf c s' hle hat hmap
  exact ⟨c', s'', hrun, hat', hle.trans hle', hmap'⟩

theorem Gives.mono {s₀ : ℕ} {r : Except Fault (Cmd Span × ℕ)} {cmd : Cmd (List UInt8)}
    (h : Gives line s r rest cmd) (hle : s₀ ≤ s) : Gives line s₀ r rest cmd := by
  obtain ⟨c, s', hrun, hat, hle', hmap⟩ := h
  exact ⟨c, s', hrun, hat, hle.trans hle', hmap⟩

/-- `k` times in the background. -/
def backs : ℕ → Cmd (List UInt8) → Cmd (List UInt8)
  | 0, cmd => cmd
  | k + 1, cmd => backs k (.back cmd)

/-- `parseexec` inverts the printer, with the redirections `rs` behind the command. -/
def ExecLevel (line : List UInt8) (cmd : Cmd (List UInt8)) : Prop :=
  ∀ (n s : ℕ) (rs : List Redir) (rest : List Tok), (∀ r ∈ rs, r.Printable) →
    At line s (print cmd .exec ++ (redirToks rs ++ rest)) → Follow ['|', ')', '&', ';'] rest →
    4 * (line.length - s) + 2 ≤ n → Gives line s (parseexec line n s) rest (wrap cmd rs)

def PipeLevel (line : List UInt8) (cmd : Cmd (List UInt8)) : Prop :=
  ∀ (n s : ℕ) (rest : List Tok), At line s (print cmd .pipe ++ rest) → Follow [')', '&', ';'] rest →
    4 * (line.length - s) + 3 ≤ n → Gives line s (parsepipe line n s) rest cmd

/-- The beginning of `parseline` inverts the printer, with `k` times `&` behind the command. -/
def BackLevel (line : List UInt8) (cmd : Cmd (List UInt8)) : Prop :=
  ∀ (n s k : ℕ) (rest : List Tok),
    At line s (print cmd .back ++ (List.replicate k (tok '&') ++ rest)) → Follow [')', ';'] rest →
    4 * (line.length - s) + 3 ≤ n →
    Gives line s (parsepipe line n s >>= fun x => parseback line (line.length + 1) x.1 x.2) rest
      (backs k cmd)

def LineLevel (line : List UInt8) (cmd : Cmd (List UInt8)) : Prop :=
  ∀ (n s : ℕ) (rest : List Tok), At line s (print cmd .line ++ rest) → Follow [')'] rest →
    4 * (line.length - s) + 4 ≤ n → Gives line s (parseline line n s) rest cmd

/-- The parser inverts the printer at each level. -/
structure Inverts (line : List UInt8) (cmd : Cmd (List UInt8)) : Prop where
  exec : ExecLevel line cmd
  pipe : PipeLevel line cmd
  back : BackLevel line cmd
  line : LineLevel line cmd

theorem Follow.mono {set' : List Char} (h : Follow set rest) (hsub : set ⊆ set') :
    Follow set' rest := by
  rcases h with rfl | ⟨c, hc, ts, rfl⟩
  · exact Or.inl rfl
  · exact Or.inr ⟨c, hsub hc, ts, rfl⟩

theorem Follow.tok (hc : c ∈ set) (ts : List Tok) : Follow set (Shell.tok c :: ts) :=
  Or.inr ⟨c, hc, ts, rfl⟩

theorem At.gettoken_tok (h : At line s (tok c :: ts)) :
    ∃ w s', Shell.gettoken line (Shell.tokenAt line s) = .ok (c.toUInt8, w, s') ∧ At line s' ts ∧ s < s' := by
  have hle : s ≤ Shell.tokenAt line s := le_past ..
  obtain ⟨w, s', hget, hat, -, hlt⟩ := h.tokenAt.gettoken
  exact ⟨w, s', hget, hat, by omega⟩

/-- **The loop of `parseline`** reads the `&` that stand there. -/
theorem parseback_at {k : ℕ} {cmd : Cmd Span} (hat : At line s (List.replicate k (tok '&') ++ rest))
    (hrest : Misses ['&'] rest) (hn : line.length - s < n) :
    Gives line s (parseback line n cmd s) rest (backs k (cmd.map (slice line))) := by
  induction k generalizing n s cmd with
  | zero =>
    obtain ⟨n, rfl⟩ := Nat.exists_eq_succ_of_ne_zero (Nat.ne_zero_of_lt hn)
    refine ⟨cmd, Shell.tokenAt line s, ?_, hat.tokenAt, le_past .., rfl⟩
    have hpeek : peek line s ['&'.toUInt8] = _ := hat.peek_false ['&'] hrest
    rw [parseback, hpeek, ok_bind]
    rfl
  | succ k ih =>
    obtain ⟨n, rfl⟩ := Nat.exists_eq_succ_of_ne_zero (Nat.ne_zero_of_lt hn)
    have hat' : At line s (tok '&' :: (List.replicate k (tok '&') ++ rest)) := hat
    obtain ⟨_, s₂, hget, hat₂, hlt₂⟩ := hat'.gettoken_tok
    have hpeek : peek line s ['&'.toUInt8] = _ := hat'.peek_true ['&'] List.mem_cons_self
    have hb₂ := hat₂.bound
    rw [parseback, hpeek, ok_bind]
    simp only [if_true, hget, ok_bind]
    exact (ih hat₂ (by omega)).mono (by omega)

/-! ## From one level to the next -/

variable {cmd left right : Cmd (List UInt8)}

/-- A command that is no pipe, where the grammar has a pipe. -/
theorem pipe_of_exec (h : ExecLevel line cmd) (hprint : print cmd .pipe = print cmd .exec) :
    PipeLevel line cmd := by
  intro n s rest hat hrest hn
  obtain ⟨n, rfl⟩ := Nat.exists_eq_succ_of_ne_zero (show n ≠ 0 by omega)
  rw [hprint] at hat
  rw [parsepipe]
  refine (h n s [] rest (by simp) hat (hrest.mono (by simp)) (by omega)).bind fun c s₁ hle₁ hat₁ hmap => ?_
  have hpeek : peek line s₁ ['|'.toUInt8] = _ := hat₁.peek_false ['|'] (hrest.misses (by decide))
  simp only [hpeek, ok_bind]
  exact ⟨c, _, rfl, hat₁.tokenAt, le_past .., hmap⟩

theorem pipe_of_pipe (hl : ExecLevel line left) (hr : PipeLevel line right) :
    PipeLevel line (.pipe left right) := by
  intro n s rest hat hrest hn
  obtain ⟨n, rfl⟩ := Nat.exists_eq_succ_of_ne_zero (show n ≠ 0 by omega)
  have hat' : At line s (print left .exec ++ (redirToks [] ++ (tok '|' :: (print right .pipe ++ rest)))) := by
    have hshape : print (.pipe left right) .pipe ++ rest
        = print left .exec ++ (redirToks [] ++ (tok '|' :: (print right .pipe ++ rest))) := by
      simp [print, paren, redirToks]
    exact hshape ▸ hat
  rw [parsepipe]
  refine (hl n s [] _ (by simp) hat' (Follow.tok (by simp) _) (by omega)).bind
    fun c s₁ hle₁ hat₁ hmap => ?_
  have hpeek : peek line s₁ ['|'.toUInt8] = _ := hat₁.peek_true ['|'] List.mem_cons_self
  obtain ⟨_, s₂, hget, hat₂, hlt₂⟩ := hat₁.gettoken_tok
  have hb₂ := hat₂.bound
  simp only [hpeek, ok_bind, if_true, hget]
  refine Gives.mono ?_ hlt₂.le
  refine (hr n s₂ rest hat₂ hrest (by omega)).bind fun c' s₃ hle₃ hat₃ hmap' => ?_
  exact ⟨.pipe c c', s₃, rfl, hat₃, le_rfl, by rw [Cmd.map, hmap, hmap']; rfl⟩

theorem back_of_pipe (h : PipeLevel line cmd) (hprint : print cmd .back = print cmd .pipe) :
    BackLevel line cmd := by
  intro n s k rest hat hrest hn
  rw [hprint] at hat
  have hfollow : Follow [')', '&', ';'] (List.replicate k (tok '&') ++ rest) := by
    cases k with
    | zero => exact hrest.mono (by simp)
    | succ k => exact Follow.tok (by simp) _
  refine (h n s _ hat hfollow hn).bind fun c s₁ hle₁ hat₁ hmap => ?_
  have hb₁ := hat₁.bound
  rw [← hmap]
  exact parseback_at hat₁ (hrest.misses (by decide)) (by omega)

theorem back_of_back (h : BackLevel line cmd) : BackLevel line (.back cmd) := by
  intro n s k rest hat hrest hn
  have hshape : print (.back cmd) .back ++ (List.replicate k (tok '&') ++ rest)
      = print cmd .back ++ (List.replicate (k + 1) (tok '&') ++ rest) := by
    simp [print, paren, List.replicate_succ]
  exact h n s (k + 1) rest (hshape ▸ hat) hrest hn

/-- The first loop of `parseline` belongs to its first call. -/
theorem parseline_succ (line : List UInt8) (n s : ℕ) :
    parseline line (n + 1) s
      = ((parsepipe line n s >>= fun x => parseback line (line.length + 1) x.1 x.2) >>= fun x => do
        let (more, s) ← peek line x.2 [';'.toUInt8]
        if more then
          let (_, _, s) ← gettoken line s
          let (right, s) ← parseline line n s
          return (.list x.1 right, s)
        else return (x.1, s)) := by
  rw [parseline, bind_assoc]

theorem line_of_back (h : BackLevel line cmd) (hprint : print cmd .line = print cmd .back) :
    LineLevel line cmd := by
  intro n s rest hat hrest hn
  obtain ⟨n, rfl⟩ := Nat.exists_eq_succ_of_ne_zero (show n ≠ 0 by omega)
  rw [hprint] at hat
  rw [parseline_succ]
  refine (h n s 0 rest hat (hrest.mono (by simp)) (by omega)).bind fun c s₁ hle₁ hat₁ hmap => ?_
  have hpeek : peek line s₁ [';'.toUInt8] = _ := hat₁.peek_false [';'] (hrest.misses (by decide))
  simp only [hpeek, ok_bind]
  exact ⟨c, _, rfl, hat₁.tokenAt, le_past .., hmap⟩

theorem line_of_list (hl : BackLevel line left) (hr : LineLevel line right) :
    LineLevel line (.list left right) := by
  intro n s rest hat hrest hn
  obtain ⟨n, rfl⟩ := Nat.exists_eq_succ_of_ne_zero (show n ≠ 0 by omega)
  have hat' : At line s
      (print left .back ++ (List.replicate 0 (tok '&') ++ (tok ';' :: (print right .line ++ rest)))) := by
    have hshape : print (.list left right) .line ++ rest
        = print left .back ++ (List.replicate 0 (tok '&') ++ (tok ';' :: (print right .line ++ rest))) := by
      simp [print, paren]
    exact hshape ▸ hat
  rw [parseline_succ]
  refine (hl n s 0 _ hat' (Follow.tok (by simp) _) (by omega)).bind fun c s₁ hle₁ hat₁ hmap => ?_
  have hpeek : peek line s₁ [';'.toUInt8] = _ := hat₁.peek_true [';'] List.mem_cons_self
  obtain ⟨_, s₂, hget, hat₂, hlt₂⟩ := hat₁.gettoken_tok
  have hb₂ := hat₂.bound
  simp only [hpeek, ok_bind, if_true, hget]
  refine Gives.mono ?_ hlt₂.le
  refine (hr n s₂ rest hat₂ hrest (by omega)).bind fun c' s₃ hle₃ hat₃ hmap' => ?_
  exact ⟨.list c c', s₃, rfl, hat₃, le_rfl, by rw [Cmd.map, hmap, hmap']; rfl⟩

theorem exec_of_line (h : LineLevel line cmd)
    (hprint : print cmd .exec = tok '(' :: (print cmd .line ++ [tok ')'])) : ExecLevel line cmd := by
  intro n s rs rest hrs hat hrest hn
  obtain ⟨n, rfl⟩ := Nat.exists_eq_succ_of_ne_zero (show n ≠ 0 by omega)
  obtain ⟨n, rfl⟩ := Nat.exists_eq_succ_of_ne_zero (show n ≠ 0 by omega)
  have hat' : At line s (tok '(' :: (print cmd .line ++ (tok ')' :: (redirToks rs ++ rest)))) := by
    rw [hprint] at hat
    simpa using hat
  have hle₁ : s ≤ Shell.tokenAt line s := le_past ..
  have hpeek : peek line s ['('.toUInt8] = _ := hat'.peek_true ['('] List.mem_cons_self
  have hpeek' : peek line (Shell.tokenAt line s) ['('.toUInt8] = _ :=
    hat'.tokenAt.peek_true ['('] List.mem_cons_self
  obtain ⟨_, s₂, hget, hat₂, hlt₂⟩ := hat'.tokenAt.gettoken_tok
  have hb₂ := hat₂.bound
  rw [parseexec, hpeek, ok_bind]
  simp only [if_true]
  rw [parseblock, hpeek', ok_bind]
  simp only [Bool.true_eq_false, if_false, hget, ok_bind]
  refine Gives.mono ?_ (show s ≤ s₂ by omega)
  refine (h n s₂ _ hat₂ (Follow.tok (by simp) _) (by omega)).bind fun c s₃ hle₃ hat₃ hmap => ?_
  have hpeek₃ : peek line s₃ [')'.toUInt8] = _ := hat₃.peek_true [')'] List.mem_cons_self
  obtain ⟨_, s₄, hget₄, hat₄, hlt₄⟩ := hat₃.gettoken_tok
  simp only [hpeek₃, ok_bind, Bool.true_eq_false, if_false, hget₄]
  refine Gives.mono ?_ hlt₄.le
  rw [← hmap]
  exact parseredirs_at c hrs hat₄ (hrest.misses (by decide)) (by omega)

/-- A simple command. -/
theorem exec_of_exec {argv : List (List UInt8)} (hlen : argv.length ≤ 9) (hws : ∀ w ∈ argv, WordText w) :
    ExecLevel line (.exec argv) := by
  intro n s rs rest hrs hat hrest hn
  obtain ⟨n, rfl⟩ := Nat.exists_eq_succ_of_ne_zero (show n ≠ 0 by omega)
  have hb := hat.bound
  have hle₁ : s ≤ Shell.tokenAt line s := le_past ..
  have hredirs : ∀ {ts}, Misses ['('] ts → Misses ['('] (redirToks rs ++ ts) := by
    intro ts hts
    cases rs with
    | nil => exact hts
    | cons r rs =>
      show Misses ['('] (redirTok r.2.1 :: _)
      unfold redirTok
      split_ifs <;> rfl
  cases argv with
  | nil =>
    have hat' : At line s (redirToks rs ++ rest) := hat
    have hpeek : peek line s ['('.toUInt8] = _ :=
      hat'.peek_false ['('] (hredirs (hrest.misses (by decide)))
    rw [parseexec, hpeek, ok_bind]
    simp only [Bool.false_eq_true, if_false]
    obtain ⟨c, s₂, hrun, hat₂, hle₂, hmap⟩ := parseredirs_at (n := line.length + 1) (.exec []) hrs
      hat'.tokenAt (hrest.misses (by decide)) (by omega)
    obtain ⟨s₃, hstop, hat₃, hle₃⟩ := parseargs_stop line.length 0 c hat₂ hrest
    rw [hrun, ok_bind]
    exact ⟨c, s₃, hstop, hat₃, by omega, hmap⟩
  | cons w ws =>
    have hat' : At line s (.word w :: (ws.map Tok.word ++ (redirToks rs ++ rest))) := hat
    have hw := hws w List.mem_cons_self
    have hpeek : peek line s ['('.toUInt8] = _ := hat'.peek_false ['('] (misses_word hw _ (by decide))
    have hnone := parseredirs_none line.length (.exec []) hat'.tokenAt (misses_word hw _ (by decide))
    have hle₂ : Shell.tokenAt line s ≤ Shell.tokenAt line (Shell.tokenAt line s) := le_past ..
    have hb₂ := hat'.tokenAt.tokenAt.bound
    rw [parseexec, hpeek, ok_bind]
    simp only [Bool.false_eq_true, if_false, hnone, ok_bind]
    have hlen' : ([] : List Span).length + (w :: ws).length < maxArgs := by
      rw [List.length_nil, Nat.zero_add]
      exact Nat.lt_succ_of_le hlen
    obtain ⟨c, s₃, hrun, hat₃, hle₃, hmap⟩ := parseargs_at [] hws hrs hat'.tokenAt.tokenAt hrest
      hlen' (show line.length - _ < line.length + 1 by omega)
    exact ⟨c, s₃, hrun, hat₃, by omega, hmap⟩

/-- A redirection joins those behind it. -/
theorem exec_of_redir {file : List UInt8} {mode fd : ℕ} (h : ExecLevel line cmd) (hfile : WordText file)
    (hredir : Redirection mode fd) : ExecLevel line (.redir cmd file mode fd) := by
  intro n s rs rest hrs hat hrest hn
  have hat' : At line s (print cmd .exec ++ (redirToks ((file, mode, fd) :: rs) ++ rest)) := by
    have hshape : print (.redir cmd file mode fd) .exec ++ (redirToks rs ++ rest)
        = print cmd .exec ++ (redirToks ((file, mode, fd) :: rs) ++ rest) := by
      simp [print, redirToks]
    exact hshape ▸ hat
  refine h n s ((file, mode, fd) :: rs) rest (fun r hr => ?_) hat' hrest hn
  rcases List.mem_cons.mp hr with rfl | hr
  · exact ⟨hfile, hredir⟩
  · exact hrs r hr

/-- **The parser inverts the printer** at every level. -/
theorem inverts (line : List UInt8) {cmd : Cmd (List UInt8)} (h : cmd.Printable) : Inverts line cmd := by
  induction cmd with
  | exec argv =>
    have hexec : ExecLevel line (.exec argv) := exec_of_exec h.1 h.2
    have hpipe := pipe_of_exec hexec rfl
    have hback := back_of_pipe hpipe rfl
    exact ⟨hexec, hpipe, hback, line_of_back hback rfl⟩
  | redir cmd file mode fd ih =>
    have hexec := exec_of_redir (ih h.1).exec h.2.1 h.2.2
    have hpipe := pipe_of_exec hexec rfl
    have hback := back_of_pipe hpipe rfl
    exact ⟨hexec, hpipe, hback, line_of_back hback rfl⟩
  | pipe left right ihl ihr =>
    have hpipe := pipe_of_pipe (ihl h.1).exec (ihr h.2).pipe
    have hback := back_of_pipe hpipe rfl
    have hline := line_of_back hback rfl
    exact ⟨exec_of_line hline rfl, hpipe, hback, hline⟩
  | list left right ihl ihr =>
    have hline := line_of_list (ihl h.1).back (ihr h.2).line
    have hexec := exec_of_line hline rfl
    have hpipe := pipe_of_exec hexec rfl
    exact ⟨hexec, hpipe, back_of_pipe hpipe rfl, hline⟩
  | back cmd ih =>
    have hback := back_of_back (ih h).back
    have hline := line_of_back hback rfl
    have hexec := exec_of_line hline rfl
    exact ⟨hexec, pipe_of_exec hexec rfl, hback, hline⟩

end Inverse

/-! ## The whole line -/

theorem Cmd.map_congr {W V : Type} {f g : W → V} {cmd : Cmd W} (h : ∀ w ∈ cmd.words, f w = g w) :
    cmd.map f = cmd.map g := by
  induction cmd with
  | exec argv => exact congrArg Cmd.exec (List.map_congr_left h)
  | redir cmd file mode fd ih =>
    rw [Cmd.map, Cmd.map, ih fun w hw => h w (List.mem_append_left _ hw),
      h file (List.mem_append_right _ (List.mem_singleton_self file))]
  | pipe left right ihl ihr =>
    rw [Cmd.map, Cmd.map, ihl fun w hw => h w (List.mem_append_left _ hw),
      ihr fun w hw => h w (List.mem_append_right _ hw)]
  | list left right ihl ihr =>
    rw [Cmd.map, Cmd.map, ihl fun w hw => h w (List.mem_append_left _ hw),
      ihr fun w hw => h w (List.mem_append_right _ hw)]
  | back cmd ih => rw [Cmd.map, Cmd.map, ih h]

/-- A text that lays out tokens is a string. -/
theorem Layout.not_nul {text : List UInt8} (h : Layout ts text) : (0 : UInt8) ∉ text := by
  have hspace : ∀ {space : List UInt8}, (∀ c ∈ space, strchr whitespace c = true) → (0 : UInt8) ∉ space :=
    fun hall hmem => absurd (hall 0 hmem) (by decide)
  induction h with
  | nil hall => exact hspace hall
  | @cons space t ts rest hall ht hends hrest ih =>
    simp only [List.mem_append, not_or]
    refine ⟨⟨hspace hall, ?_⟩, ih⟩
    cases t with
    | sym c =>
      intro hmem
      exact (not_whitespace_of_symbol ht).2 (List.mem_singleton.mp hmem).symm
    | append => exact (by decide : (0 : UInt8) ∉ Tok.append.text)
    | word w => exact fun hmem => (ht.2 0 hmem).2 rfl

/-- What `parsecmd` does after `parseline` has returned at the end of the line. -/
theorem parsecmd_eq {line : List UInt8} {cmd : Cmd Span}
    (hline : parseline line (4 * line.length + 4) 0 = .ok (cmd, s)) (hs : s ≤ line.length)
    (hend : tokenAt line s = line.length) (hcmd : cmd.InLine line) :
    parsecmd line = .ok (cmd, zeroed (line ++ [0]) cmd.words) := by
  have hbounds : ∀ w ∈ cmd.words, w.eq < (line ++ [0]).length := by
    intro w hw
    rw [List.length_append, List.length_singleton]
    exact Nat.lt_succ_of_le (hcmd w hw).bound
  unfold parsecmd
  rw [hline, ok_bind]
  simp only
  rw [peek_eq hs, ok_bind]
  simp only
  rw [if_neg (not_not.mpr hend), nulterminate_eq hbounds, ok_bind]
  rfl

/-- **Parsing inverts printing, and always ends.**  A command that can be written, printed
with the parentheses that the grammar needs and laid out in any way, is parsed to the same
command, and after `nulterminate` its strings are the words that were printed.  Putting a blank
before every token is such a layout.  And for every string the parser returns a command
or panics: it neither runs on nor reads behind the end. -/
theorem parsecmd_print :
    (∀ cmd : Cmd (List UInt8), cmd.Printable →
      (∀ text, Layout (print cmd .line) text →
        ∃ cmd' mem, parsecmd text = .ok (cmd', mem) ∧ cmd'.map (fun w => cstr mem w.q) = cmd)
      ∧ Layout (print cmd .line) (render (print cmd .line)))
    ∧ ∀ line : List UInt8, (0 : UInt8) ∉ line →
      (∃ cmd mem, parsecmd line = .ok (cmd, mem)) ∨ ∃ msg, parsecmd line = .error (.panic msg) := by
  refine ⟨fun cmd hcmd => ⟨fun text htext => ?_, Layout.render (ok_print hcmd .line)⟩, fun line hnul => ?_⟩
  · have hnul := htext.not_nul
    have hat : At text 0 (print cmd .line ++ []) := ⟨Nat.zero_le _, by simpa using htext⟩
    obtain ⟨cmd', s, hrun, hat', -, hmap⟩ :=
      (inverts text hcmd).line (4 * text.length + 4) 0 [] hat (Or.inl rfl) (by omega)
    have hparsed := (parse_parsed hnul (4 * text.length + 4)).1 0 (Nat.zero_le _) (by omega)
    rw [hrun] at hparsed
    cases hparsed with
    | ok _ hbound hin =>
      have hend : tokenAt text s = text.length := by
        have := congrArg List.length hat'.drop_nil
        have hle := hat'.tokenAt.bound
        rw [List.length_drop, List.length_nil] at this
        omega
      refine ⟨cmd', _, parsecmd_eq hrun hbound hend hin, ?_⟩
      rw [← hmap]
      exact Cmd.map_congr fun w hw => cstr_zeroed hnul hin hw
  · have hparsed := (parse_parsed hnul (4 * line.length + 4)).1 0 (Nat.zero_le _) (by omega)
    cases hrun : parseline line (4 * line.length + 4) 0 with
    | error e =>
      rw [hrun] at hparsed
      cases hparsed with
      | panic msg =>
        refine Or.inr ⟨msg, ?_⟩
        unfold parsecmd
        rw [hrun]
        rfl
    | ok x =>
      obtain ⟨cmd, s⟩ := x
      rw [hrun] at hparsed
      cases hparsed with
      | ok _ hbound hin =>
        by_cases hend : tokenAt line s = line.length
        · exact Or.inl ⟨_, _, parsecmd_eq hrun hbound hend hin⟩
        · refine Or.inr ⟨"syntax", ?_⟩
          unfold parsecmd
          rw [hrun, ok_bind]
          simp only
          rw [peek_eq hbound, ok_bind]
          simp only
          rw [if_pos hend]

/-- `(a b < c; d >> e &) | f`: a list inside of a pipe. -/
def nested : Cmd (List UInt8) :=
  .pipe
    (.list (.redir (.exec [['a'.toUInt8], ['b'.toUInt8]]) ['c'.toUInt8] oRdonly 0)
      (.back (.redir (.exec [['d'.toUInt8]]) ['e'.toUInt8] (oWronly ||| oCreate) 1)))
    (.exec [['f'.toUInt8]])

theorem parsecmd_print_nested :
    ∃ cmd mem, parsecmd (render (print nested .line)) = .ok (cmd, mem)
      ∧ cmd.map (fun w => cstr mem w.q) = nested := by
  have hprint := parsecmd_print.1 nested (by decide +kernel)
  exact hprint.1 _ hprint.2

/-- The same line without blanks where none is needed. -/
example : (parsecmd (['(', 'a', ' ', 'b', '<', 'c', ';', 'd', '>', '>', 'e', '&', ')', '|', 'f'].map
    Char.toUInt8)).toOption.map (fun x => x.1.map fun w => cstr x.2 w.q) = some nested := by
  decide +kernel

end Xv6.Shell
