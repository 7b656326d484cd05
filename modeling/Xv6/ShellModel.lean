/-
# The parser of the shell (`user/sh.c`)

The line is a list of bytes without a NUL; a pointer into it is an index, and reading is
possible up to the NUL behind the last byte.  A read behind it is the fault
`outOfBounds`, so that no fault means no such read.  `parseline`, `parsepipe`,
`parseexec` and `parseblock` call each other; they and the loops are given the number of
calls and turns they may still make, with the fault `noReturn` at zero.

The strings of a command are pointers into the line, each with a pointer to its end.
`nulterminate` writes a NUL at every end, after the whole line has been parsed.
-/
import Xv6.KernelBase

namespace Xv6.Shell

/-! ## Commands -/

/-- `MAXARGS`. -/
def maxArgs : ℕ := 10

/-- `O_RDONLY` of `kernel/fcntl.h`. -/
def oRdonly : ℕ := 0x000

/-- `O_WRONLY`. -/
def oWronly : ℕ := 0x001

/-- `O_CREATE`. -/
def oCreate : ℕ := 0x200

/-- `O_TRUNC`. -/
def oTrunc : ℕ := 0x400

/-- `struct cmd` and the structs behind it, with strings of type `W`. -/
inductive Cmd (W : Type) where
  | exec (argv : List W)
  | redir (cmd : Cmd W) (file : W) (mode fd : ℕ)
  | pipe (left right : Cmd W)
  | list (left right : Cmd W)
  | back (cmd : Cmd W)
  deriving DecidableEq, Repr

/-- A string in the line: `q` and `eq`. -/
structure Span where
  q : ℕ
  eq : ℕ
  deriving DecidableEq, Repr

/-! ## Tokens -/

/-- `whitespace`. -/
def whitespace : List UInt8 := [' ', '\t', '\r', '\n', '\x0b'].map Char.toUInt8

/-- `symbols`. -/
def symbols : List UInt8 := ['<', '|', '>', '&', ';', '(', ')'].map Char.toUInt8

/-- `strchr(set, c)`: the NUL behind a set is not found. -/
def strchr (set : List UInt8) (c : UInt8) : Bool := set.contains c

/-- `*s`. -/
def read (line : List UInt8) (s : ℕ) : Except Fault UInt8 :=
  if h : s < line.length then .ok (line.get ⟨s, h⟩)
  else if s = line.length then .ok 0
  else .error .outOfBounds

/-- A loop that moves `s` on while the byte there passes a test, at most `n` times. -/
def skip (line : List UInt8) (test : UInt8 → Bool) : ℕ → ℕ → Except Fault ℕ
  | 0, s => .ok s
  | n + 1, s => do
    let c ← read line s
    if test c then skip line test n (s + 1) else .ok s

/-- `while(s < es && strchr(whitespace, *s)) s++;` -/
def skipWhitespace (line : List UInt8) (s : ℕ) : Except Fault ℕ :=
  skip line (strchr whitespace) (line.length - s) s

/-- `while(s < es && !strchr(whitespace, *s) && !strchr(symbols, *s)) s++;` -/
def skipWord (line : List UInt8) (s : ℕ) : Except Fault ℕ :=
  skip line (fun c => !strchr whitespace c && !strchr symbols c) (line.length - s) s

/-- The `switch` of `gettoken` at the byte `c`: `ret` and the new `s`. -/
def scan (line : List UInt8) (s : ℕ) (c : UInt8) : Except Fault (UInt8 × ℕ) :=
  if c = 0 then .ok (c, s)
  else if strchr (['|', '(', ')', ';', '&', '<'].map Char.toUInt8) c then .ok (c, s + 1)
  else if c = '>'.toUInt8 then do
    let c' ← read line (s + 1)
    if c' = '>'.toUInt8 then return ('+'.toUInt8, s + 2) else return (c, s + 1)
  else do
    let s ← skipWord line s
    return ('a'.toUInt8, s)

/-- `gettoken(&s, es, &q, &eq)`: what it returns, `q` and `eq`, and the new `s`. -/
def gettoken (line : List UInt8) (s : ℕ) : Except Fault (UInt8 × Span × ℕ) := do
  let q ← skipWhitespace line s
  let c ← read line q
  let (ret, eq) ← scan line q c
  let s ← skipWhitespace line eq
  return (ret, ⟨q, eq⟩, s)

/-- `peek(&s, es, toks)`: what it returns, and the new `s`. -/
def peek (line : List UInt8) (s : ℕ) (toks : List UInt8) : Except Fault (Bool × ℕ) := do
  let s ← skipWhitespace line s
  let c ← read line s
  return (c != 0 && strchr toks c, s)

/-! ## Parsing -/

/-- The `switch` of `parseredirs`. -/
def redircmd {W : Type} (cmd : Cmd W) (tok : UInt8) (file : W) : Cmd W :=
  if tok = '<'.toUInt8 then .redir cmd file oRdonly 0
  else if tok = '>'.toUInt8 then .redir cmd file (oWronly ||| oCreate ||| oTrunc) 1
  else if tok = '+'.toUInt8 then .redir cmd file (oWronly ||| oCreate) 1
  else cmd

/-- `parseredirs(cmd, &s, es)`, for at most `n` turns. -/
def parseredirs (line : List UInt8) : ℕ → Cmd Span → ℕ → Except Fault (Cmd Span × ℕ)
  | 0, _, _ => .error .noReturn
  | n + 1, cmd, s => do
    let (more, s) ← peek line s (['<', '>'].map Char.toUInt8)
    if more then
      let (tok, _, s) ← gettoken line s
      let (word, file, s) ← gettoken line s
      if word ≠ 'a'.toUInt8 then .error (.panic "missing file for redirection")
      else parseredirs line n (redircmd cmd tok file) s
    else return (cmd, s)

/-- `argv[argc] = q; eargv[argc] = eq;` on the `EXEC` that the redirections read so far are
around. -/
def addArg {W : Type} (ret : Cmd W) (word : W) : Cmd W :=
  match ret with
  | .exec argv => .exec (argv ++ [word])
  | .redir cmd file mode fd => .redir (addArg cmd word) file mode fd
  | cmd => cmd

/-- The loop of `parseexec`, for at most `n` turns. -/
def parseargs (line : List UInt8) : ℕ → ℕ → Cmd Span → ℕ → Except Fault (Cmd Span × ℕ)
  | 0, _, _, _ => .error .noReturn
  | n + 1, argc, ret, s => do
    let (stop, s) ← peek line s (['|', ')', '&', ';'].map Char.toUInt8)
    if stop then return (ret, s)
    else
      let (tok, word, s) ← gettoken line s
      if tok = 0 then return (ret, s)
      else if tok ≠ 'a'.toUInt8 then .error (.panic "syntax")
      else if argc + 1 ≥ maxArgs then .error (.panic "too many args")
      else
        let (ret, s) ← parseredirs line (line.length + 1) (addArg ret word) s
        parseargs line n (argc + 1) ret s

/-- The first loop of `parseline`, for at most `n` turns. -/
def parseback (line : List UInt8) : ℕ → Cmd Span → ℕ → Except Fault (Cmd Span × ℕ)
  | 0, _, _ => .error .noReturn
  | n + 1, cmd, s => do
    let (more, s) ← peek line s ['&'.toUInt8]
    if more then
      let (_, _, s) ← gettoken line s
      parseback line n (.back cmd) s
    else return (cmd, s)

mutual

/-- `parseline(&s, es)`. -/
def parseline (line : List UInt8) : ℕ → ℕ → Except Fault (Cmd Span × ℕ)
  | 0, _ => .error .noReturn
  | n + 1, s => do
    let (cmd, s) ← parsepipe line n s
    let (cmd, s) ← parseback line (line.length + 1) cmd s
    let (more, s) ← peek line s [';'.toUInt8]
    if more then
      let (_, _, s) ← gettoken line s
      let (right, s) ← parseline line n s
      return (.list cmd right, s)
    else return (cmd, s)

/-- `parsepipe(&s, es)`. -/
def parsepipe (line : List UInt8) : ℕ → ℕ → Except Fault (Cmd Span × ℕ)
  | 0, _ => .error .noReturn
  | n + 1, s => do
    let (cmd, s) ← parseexec line n s
    let (more, s) ← peek line s ['|'.toUInt8]
    if more then
      let (_, _, s) ← gettoken line s
      let (right, s) ← parsepipe line n s
      return (.pipe cmd right, s)
    else return (cmd, s)

/-- `parseexec(&s, es)`. -/
def parseexec (line : List UInt8) : ℕ → ℕ → Except Fault (Cmd Span × ℕ)
  | 0, _ => .error .noReturn
  | n + 1, s => do
    let (block, s) ← peek line s ['('.toUInt8]
    if block then parseblock line n s
    else
      let (ret, s) ← parseredirs line (line.length + 1) (.exec []) s
      parseargs line (line.length + 1) 0 ret s

/-- `parseblock(&s, es)`. -/
def parseblock (line : List UInt8) : ℕ → ℕ → Except Fault (Cmd Span × ℕ)
  | 0, _ => .error .noReturn
  | n + 1, s => do
    let (opened, s) ← peek line s ['('.toUInt8]
    if opened = false then .error (.panic "parseblock")
    else
      let (_, _, s) ← gettoken line s
      let (cmd, s) ← parseline line n s
      let (closed, s) ← peek line s [')'.toUInt8]
      if closed = false then .error (.panic "syntax - missing )")
      else
        let (_, _, s) ← gettoken line s
        parseredirs line (line.length + 1) cmd s

end

/-! ## Strings -/

/-- `*eq = 0`. -/
def terminate (mem : List UInt8) (word : Span) : Except Fault (List UInt8) :=
  if word.eq < mem.length then .ok (mem.set word.eq 0) else .error .outOfBounds

/-- `nulterminate(cmd)`, on the memory of the line. -/
def nulterminate : Cmd Span → List UInt8 → Except Fault (List UInt8)
  | .exec argv, mem => argv.foldlM terminate mem
  | .redir cmd file _ _, mem => do
    let mem ← nulterminate cmd mem
    terminate mem file
  | .pipe left right, mem => do
    let mem ← nulterminate left mem
    nulterminate right mem
  | .list left right, mem => do
    let mem ← nulterminate left mem
    nulterminate right mem
  | .back cmd, mem => nulterminate cmd mem

/-- `parsecmd(s)`: the command and the memory of the line with the NUL behind it, which the
strings of the command are in. -/
def parsecmd (line : List UInt8) : Except Fault (Cmd Span × List UInt8) := do
  let (cmd, s) ← parseline line (4 * line.length + 4) 0
  let (_, s) ← peek line s []
  if s ≠ line.length then .error (.panic "syntax")
  else
    let mem ← nulterminate cmd (line ++ [0])
    return (cmd, mem)

end Xv6.Shell
