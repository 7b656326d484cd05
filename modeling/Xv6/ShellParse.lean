/-
# The parser returns

On any line, every parsing function returns a command or panics: the fuel of the model
never runs out, and no byte behind the NUL at the end is read (`Parsed`).  The strings of
the command are words of the line, up to their ends.  A byte at which `nulterminate` writes
is therefore not inside of any of them, and afterwards each reads as it stood in the line
(`cstr_of_nulterminate`).
-/
import Xv6.ShellLex

namespace Xv6.Shell

variable {cmd : Cmd Span} {ws : List Span} {mem : List UInt8} {n s : ℕ}

/-- The strings of a command. -/
def Cmd.words {W : Type} : Cmd W → List W
  | .exec argv => argv
  | .redir cmd file _ _ => cmd.words ++ [file]
  | .pipe left right => left.words ++ right.words
  | .list left right => left.words ++ right.words
  | .back cmd => cmd.words

/-- The strings are words of the line. -/
def Cmd.InLine (line : List UInt8) (cmd : Cmd Span) : Prop := ∀ w ∈ cmd.words, WordSpan line w

/-- How a parsing function that was called at `s` ends. -/
inductive Parsed (line : List UInt8) (s : ℕ) : Except Fault (Cmd Span × ℕ) → Prop
  | ok {cmd : Cmd Span} {s' : ℕ} (hle : s ≤ s') (hbound : s' ≤ line.length) (hcmd : cmd.InLine line) :
      Parsed line s (.ok (cmd, s'))
  | panic (msg : String) : Parsed line s (.error (.panic msg))

theorem Parsed.mono {line : List UInt8} {s' : ℕ} {r : Except Fault (Cmd Span × ℕ)}
    (h : Parsed line s' r) (hle : s ≤ s') : Parsed line s r := by
  cases h with
  | ok hle' hbound hcmd => exact .ok (hle.trans hle') hbound hcmd
  | panic msg => exact .panic msg

theorem Parsed.bind {line : List UInt8} {r : Except Fault (Cmd Span × ℕ)}
    {f : Cmd Span × ℕ → Except Fault (Cmd Span × ℕ)} (h : Parsed line s r)
    (hf : ∀ cmd s', s ≤ s' → s' ≤ line.length → cmd.InLine line → Parsed line s' (f (cmd, s'))) :
    Parsed line s (r >>= f) := by
  cases h with
  | @ok cmd s' hle hbound hcmd => exact (hf cmd s' hle hbound hcmd).mono hle
  | panic msg => exact .panic msg

/-! ## Commands from words -/

theorem InLine.append {line : List UInt8} {l l' : List Span} (hw : cmd.words = l ++ l')
    (hl : ∀ w ∈ l, WordSpan line w) (hl' : ∀ w ∈ l', WordSpan line w) : cmd.InLine line := by
  intro w hmem
  rw [hw] at hmem
  rcases List.mem_append.mp hmem with hm | hm
  · exact hl w hm
  · exact hl' w hm

theorem words_redircmd {W : Type} (cmd : Cmd W) (tok : UInt8) (file : W) :
    (redircmd cmd tok file).words = cmd.words ∨ (redircmd cmd tok file).words = cmd.words ++ [file] := by
  unfold redircmd
  split_ifs
  · exact Or.inr rfl
  · exact Or.inr rfl
  · exact Or.inr rfl
  · exact Or.inl rfl

theorem mem_words_addArg {W : Type} {ret : Cmd W} {x w : W} (h : w ∈ (addArg ret x).words) :
    w ∈ ret.words ∨ w = x := by
  induction ret with
  | exec argv => simpa [addArg, Cmd.words] using h
  | redir cmd file mode fd ih =>
    simp only [addArg, Cmd.words, List.mem_append, List.mem_singleton] at h ⊢
    rcases h with h | rfl
    · rcases ih h with h | rfl
      · exact Or.inl (Or.inl h)
      · exact Or.inr rfl
    · exact Or.inl (Or.inr rfl)
  | pipe _ _ _ _ => exact Or.inl h
  | list _ _ _ _ => exact Or.inl h
  | back _ _ => exact Or.inl h

section Total

variable {line : List UInt8} (hnul : (0 : UInt8) ∉ line)

/-! ## Loops -/

include hnul in
/-- A token is taken after a `peek` that has found one. -/
theorem gettoken_after_peek (hs : s < line.length) :
    ∃ ret w s', gettoken line s = .ok (ret, w, s') ∧ s < s' ∧ s' ≤ line.length := by
  obtain ⟨ret, w, s', hrun, -, hbound, hmove, -⟩ := gettoken_spec hs.le hnul
  exact ⟨ret, w, s', hrun, hmove hs, hbound⟩

include hnul in
theorem parseredirs_parsed (hs : s ≤ line.length) (hn : line.length - s < n)
    (hcmd : cmd.InLine line) : Parsed line s (parseredirs line n cmd s) := by
  induction n generalizing cmd s with
  | zero => exact absurd hn (Nat.not_lt_zero _)
  | succ n ih =>
    obtain ⟨more, s₁, hpeek, hle₁, hb₁, hmore⟩ := peek_spec hs (['<', '>'].map Char.toUInt8)
    rw [parseredirs, hpeek, ok_bind]
    cases more with
    | false => exact .ok hle₁ hb₁ hcmd
    | true =>
      obtain ⟨tok, _, s₂, hget, hlt₂, hb₂⟩ := gettoken_after_peek hnul (hmore rfl)
      obtain ⟨word, file, s₃, hget', hle₃, hb₃, -, hword⟩ := gettoken_spec hb₂ hnul
      simp only [if_true, hget, hget', ok_bind]
      split_ifs with ha
      · exact .panic _
      · have hfile := (hword (not_not.mp ha)).1
        refine (ih hb₃ (by omega) ?_).mono (by omega)
        rcases words_redircmd cmd tok file with hw | hw
        · exact fun w hmem => hcmd w (hw ▸ hmem)
        · exact InLine.append hw hcmd (by simpa using hfile)

include hnul in
theorem parseargs_parsed {argc : ℕ} {ret : Cmd Span} (hs : s ≤ line.length)
    (hn : line.length - s < n) (hret : ret.InLine line) :
    Parsed line s (parseargs line n argc ret s) := by
  induction n generalizing argc ret s with
  | zero => exact absurd hn (Nat.not_lt_zero _)
  | succ n ih =>
    obtain ⟨stop, s₁, hpeek, hle₁, hb₁, -⟩ := peek_spec hs (['|', ')', '&', ';'].map Char.toUInt8)
    rw [parseargs, hpeek, ok_bind]
    cases stop with
    | true => exact .ok hle₁ hb₁ hret
    | false =>
      obtain ⟨tok, word, s₂, hget, hle₂, hb₂, -, hword⟩ := gettoken_spec hb₁ hnul
      simp only [Bool.false_eq_true, if_false, hget, ok_bind]
      split_ifs with hzero ha hmax
      · exact .ok (by omega) hb₂ hret
      · exact .panic _
      · exact .panic _
      · obtain ⟨hspan, hlt₂⟩ := hword (not_not.mp ha)
        have hadd : (addArg ret word).InLine line := by
          intro w hw
          rcases mem_words_addArg hw with hw | rfl
          · exact hret w hw
          · exact hspan
        refine Parsed.mono ?_ (show s ≤ s₂ by omega)
        refine (parseredirs_parsed hnul hb₂ (by omega) hadd).bind fun cmd s₃ hle₃ hb₃ hcmd => ?_
        exact ih hb₃ (by omega) hcmd

include hnul in
theorem parseback_parsed (hs : s ≤ line.length) (hn : line.length - s < n)
    (hcmd : cmd.InLine line) : Parsed line s (parseback line n cmd s) := by
  induction n generalizing cmd s with
  | zero => exact absurd hn (Nat.not_lt_zero _)
  | succ n ih =>
    obtain ⟨more, s₁, hpeek, hle₁, hb₁, hmore⟩ := peek_spec hs ['&'.toUInt8]
    rw [parseback, hpeek, ok_bind]
    cases more with
    | false => exact .ok hle₁ hb₁ hcmd
    | true =>
      obtain ⟨_, _, s₂, hget, hlt₂, hb₂⟩ := gettoken_after_peek hnul (hmore rfl)
      simp only [if_true, hget, ok_bind]
      have hback : (Cmd.back cmd).InLine line := hcmd
      exact (ih hb₂ (by omega) hback).mono (by omega)

/-! ## The four levels -/

include hnul in
/-- **Every call returns or panics.**  Between two calls of `parseline` a byte is consumed, and
each level below it takes one call. -/
theorem parse_parsed (n : ℕ) :
    (∀ s, s ≤ line.length → 4 * (line.length - s) + 4 ≤ n → Parsed line s (parseline line n s))
      ∧ (∀ s, s ≤ line.length → 4 * (line.length - s) + 3 ≤ n → Parsed line s (parsepipe line n s))
      ∧ (∀ s, s ≤ line.length → 4 * (line.length - s) + 2 ≤ n → Parsed line s (parseexec line n s))
      ∧ ∀ s, s ≤ line.length → 4 * (line.length - s) + 1 ≤ n → Parsed line s (parseblock line n s) := by
  induction n with
  | zero => exact ⟨fun s _ hn => by omega, fun s _ hn => by omega, fun s _ hn => by omega,
      fun s _ hn => by omega⟩
  | succ n ih =>
    obtain ⟨ihline, ihpipe, ihexec, ihblock⟩ := ih
    refine ⟨fun s hs hn => ?_, fun s hs hn => ?_, fun s hs hn => ?_, fun s hs hn => ?_⟩
    · rw [parseline]
      refine (ihpipe s hs (by omega)).bind fun cmd s₁ hle₁ hb₁ hcmd => ?_
      refine (parseback_parsed hnul hb₁ (by omega) hcmd).bind fun cmd s₂ hle₂ hb₂ hcmd => ?_
      obtain ⟨more, s₃, hpeek, hle₃, hb₃, hmore⟩ := peek_spec hb₂ [';'.toUInt8]
      simp only [hpeek, ok_bind]
      cases more with
      | false => exact .ok hle₃ hb₃ hcmd
      | true =>
        obtain ⟨_, _, s₄, hget, hlt₄, hb₄⟩ := gettoken_after_peek hnul (hmore rfl)
        simp only [if_true, hget, ok_bind]
        refine Parsed.mono ?_ (show s₂ ≤ s₄ by omega)
        refine (ihline s₄ hb₄ (by omega)).bind fun right s₅ hle₅ hb₅ hright => ?_
        exact .ok le_rfl hb₅ (InLine.append rfl hcmd hright)
    · rw [parsepipe]
      refine (ihexec s hs (by omega)).bind fun cmd s₁ hle₁ hb₁ hcmd => ?_
      obtain ⟨more, s₂, hpeek, hle₂, hb₂, hmore⟩ := peek_spec hb₁ ['|'.toUInt8]
      simp only [hpeek, ok_bind]
      cases more with
      | false => exact .ok hle₂ hb₂ hcmd
      | true =>
        obtain ⟨_, _, s₃, hget, hlt₃, hb₃⟩ := gettoken_after_peek hnul (hmore rfl)
        simp only [if_true, hget, ok_bind]
        refine Parsed.mono ?_ (show s₁ ≤ s₃ by omega)
        refine (ihpipe s₃ hb₃ (by omega)).bind fun right s₄ hle₄ hb₄ hright => ?_
        exact .ok le_rfl hb₄ (InLine.append rfl hcmd hright)
    · obtain ⟨block, s₁, hpeek, hle₁, hb₁, -⟩ := peek_spec hs ['('.toUInt8]
      rw [parseexec, hpeek, ok_bind]
      refine Parsed.mono ?_ hle₁
      cases block with
      | true => exact ihblock s₁ hb₁ (by omega)
      | false =>
        have hempty : (Cmd.exec []).InLine line := fun w hw => absurd hw List.not_mem_nil
        refine (parseredirs_parsed hnul hb₁ (by omega) hempty).bind fun ret s₂ hle₂ hb₂ hret => ?_
        exact parseargs_parsed hnul hb₂ (by omega) hret
    · obtain ⟨opened, s₁, hpeek, hle₁, hb₁, hopened⟩ := peek_spec hs ['('.toUInt8]
      rw [parseblock, hpeek, ok_bind]
      cases opened with
      | false => exact .panic _
      | true =>
        obtain ⟨_, _, s₂, hget, hlt₂, hb₂⟩ := gettoken_after_peek hnul (hopened rfl)
        simp only [Bool.true_eq_false, if_false, hget, ok_bind]
        refine Parsed.mono ?_ (show s ≤ s₂ by omega)
        refine (ihline s₂ hb₂ (by omega)).bind fun cmd s₃ hle₃ hb₃ hcmd => ?_
        obtain ⟨closed, s₄, hpeek', hle₄, hb₄, hclosed⟩ := peek_spec hb₃ [')'.toUInt8]
        simp only [hpeek', ok_bind]
        cases closed with
        | false => exact .panic _
        | true =>
          obtain ⟨_, _, s₅, hget', hlt₅, hb₅⟩ := gettoken_after_peek hnul (hclosed rfl)
          simp only [Bool.true_eq_false, if_false, hget', ok_bind]
          exact (parseredirs_parsed hnul hb₅ (by omega) hcmd).mono (by omega)

end Total

/-! ## Strings -/

/-- A NUL at the end of each of the strings. -/
def zeroed (mem : List UInt8) (ws : List Span) : List UInt8 := ws.foldl (fun m w => m.set w.eq 0) mem

theorem length_zeroed (mem : List UInt8) (ws : List Span) : (zeroed mem ws).length = mem.length := by
  induction ws generalizing mem with
  | nil => rfl
  | cons w ws ih => exact (ih (mem.set w.eq 0)).trans List.length_set

theorem zeroed_append (mem : List UInt8) (ws ws' : List Span) :
    zeroed mem (ws ++ ws') = zeroed (zeroed mem ws) ws' :=
  List.foldl_append

/-- A byte at which no string ends is left. -/
theorem getElem?_zeroed_of_not {i : ℕ} (h : ∀ w ∈ ws, w.eq ≠ i) :
    (zeroed mem ws)[i]? = mem[i]? := by
  induction ws generalizing mem with
  | nil => rfl
  | cons w ws ih =>
    have hrest := @ih (mem.set w.eq 0) fun x hx => h x (List.mem_cons_of_mem w hx)
    exact hrest.trans (List.getElem?_set_ne (h w List.mem_cons_self))

theorem getElem?_zeroed_of_end {i : ℕ} (h : ∃ w ∈ ws, w.eq = i) (hi : i < mem.length) :
    (zeroed mem ws)[i]? = some 0 := by
  induction ws generalizing mem with
  | nil =>
    obtain ⟨w, hw, -⟩ := h
    exact absurd hw List.not_mem_nil
  | cons x ws ih =>
    by_cases hrest : ∃ w ∈ ws, w.eq = i
    · exact ih hrest (by rw [List.length_set]; exact hi)
    · obtain ⟨w, hw, heq⟩ := h
      obtain rfl : w = x := (List.mem_cons.mp hw).resolve_right fun hmem => hrest ⟨w, hmem, heq⟩
      subst heq
      have hnone : ∀ y ∈ ws, y.eq ≠ w.eq := fun y hy heq => hrest ⟨y, hy, heq⟩
      exact (getElem?_zeroed_of_not hnone).trans (List.getElem?_set_self hi)

theorem foldlM_terminate (h : ∀ w ∈ ws, w.eq < mem.length) :
    ws.foldlM terminate mem = .ok (zeroed mem ws) := by
  induction ws generalizing mem with
  | nil => rfl
  | cons w ws ih =>
    have hw : terminate mem w = .ok (mem.set w.eq 0) := if_pos (h w List.mem_cons_self)
    rw [List.foldlM_cons, hw, ok_bind, ih]
    · rfl
    · intro x hx
      rw [List.length_set]
      exact h x (List.mem_cons_of_mem w hx)

/-- `nulterminate` writes at the ends of the strings and nowhere else. -/
theorem nulterminate_eq (h : ∀ w ∈ cmd.words, w.eq < mem.length) :
    nulterminate cmd mem = .ok (zeroed mem cmd.words) := by
  have htwo : ∀ {left right : Cmd Span} {mem : List UInt8},
      (∀ {mem}, (∀ w ∈ left.words, w.eq < mem.length) → nulterminate left mem = .ok (zeroed mem left.words)) →
      (∀ {mem}, (∀ w ∈ right.words, w.eq < mem.length) → nulterminate right mem = .ok (zeroed mem right.words)) →
      (∀ w ∈ left.words ++ right.words, w.eq < mem.length) →
      (nulterminate left mem >>= nulterminate right) = .ok (zeroed mem (left.words ++ right.words)) := by
    intro left right mem hleft hright hall
    rw [hleft fun w hw => hall w (List.mem_append_left _ hw), ok_bind, hright, zeroed_append]
    intro w hw
    rw [length_zeroed]
    exact hall w (List.mem_append_right _ hw)
  induction cmd generalizing mem with
  | exec argv => exact foldlM_terminate h
  | redir cmd file mode fd ih =>
    rw [nulterminate, ih fun w hw => h w (List.mem_append_left _ hw), ok_bind, Cmd.words, zeroed_append]
    refine if_pos ?_
    rw [length_zeroed]
    exact h file (List.mem_append_right _ (List.mem_singleton_self file))
  | pipe left right ihl ihr => exact htwo ihl ihr h
  | list left right ihl ihr => exact htwo ihl ihr h
  | back cmd ih => exact ih h

/-- The string at `q`. -/
def cstr (mem : List UInt8) (q : ℕ) : List UInt8 := (mem.drop q).takeWhile (· != 0)

theorem cstr_eq {l : List UInt8} {q : ℕ} (hl : (0 : UInt8) ∉ l)
    (hbytes : ∀ i, i < l.length → mem[q + i]? = l[i]?) (hend : mem[q + l.length]? = some 0) :
    cstr mem q = l := by
  have hdrop : mem.drop q = l ++ 0 :: mem.drop (q + l.length + 1) := by
    apply List.ext_getElem?
    intro i
    rw [List.getElem?_drop]
    rcases lt_trichotomy i l.length with hi | hi | hi
    · rw [List.getElem?_append_left hi]
      exact hbytes i hi
    · rw [hi, hend, List.getElem?_append_right le_rfl, Nat.sub_self]
      rfl
    · obtain ⟨k, rfl⟩ := Nat.exists_eq_add_of_lt hi
      rw [List.getElem?_append_right (by omega), show l.length + k + 1 - l.length = k + 1 by omega,
        List.getElem?_cons_succ, List.getElem?_drop]
      congr 1
      ring
  unfold cstr
  rw [hdrop]
  refine takeWhile_append_stop (fun c hc => ?_) fun c hc => ?_
  · rw [bne_iff_ne]
    rintro rfl
    exact hl hc
  · cases hc
    rfl

/-- **In-place termination clobbers nothing**: after `nulterminate` every string of the command
reads as it stood in the line. -/
theorem cstr_zeroed {line : List UInt8} (hnul : (0 : UInt8) ∉ line)
    (hws : ∀ w ∈ ws, WordSpan line w) {w : Span} (hw : w ∈ ws) :
    cstr (zeroed (line ++ [0]) ws) w.q = slice line w := by
  have hspan := hws w hw
  have hlen : (slice line w).length = w.eq - w.q := by
    unfold slice
    have := hspan.bound
    rw [List.length_take, List.length_drop]
    omega
  have hle := hspan.le
  apply cstr_eq
  · exact fun hmem => hnul (List.mem_of_mem_drop (List.mem_of_mem_take hmem))
  · intro i hi
    have hilt : w.q + i < line.length := by
      have := hspan.bound
      omega
    have hslice : (slice line w)[i]? = (line)[w.q + i]? := by
      unfold slice
      rw [List.getElem?_take_of_lt (by omega), List.getElem?_drop]
    -- no string ends at a byte of a word
    have hnone : ∀ x ∈ ws, x.eq ≠ w.q + i := by
      intro x hx heq
      have hbyte : (line.drop x.eq).head? = some (line.get ⟨w.q + i, hilt⟩) := by
        rw [List.head?_drop, heq]
        exact List.getElem?_eq_getElem hilt
      have hno := (hws x hx).ends _ hbyte
      have hyes : isWord (line.get ⟨w.q + i, hilt⟩) = true := by
        apply hspan.word
        apply List.mem_of_getElem?
        exact hslice.trans (List.getElem?_eq_getElem hilt)
      rw [hyes] at hno
      cases hno
    rw [getElem?_zeroed_of_not hnone, hslice, List.getElem?_append_left hilt]
  · rw [hlen, Nat.add_sub_of_le hle]
    refine getElem?_zeroed_of_end ⟨w, hw, rfl⟩ ?_
    rw [List.length_append, List.length_singleton]
    exact Nat.lt_succ_of_le hspan.bound

end Xv6.Shell
