/-
# The buffer of `grep` (`user/grep.c`)

`grep` reads as much as fits behind the part of a line that is left from before, looks at the lines
in the buffer with their newlines replaced by zeros, and moves what is behind the last newline to
the front.  A load or a store outside the buffer is an error of the model.  How much each `read`
returns is an input, as long as it is something.

Whatever the chunks are, the lines that match are written, each with one `write` and in their order
(`grep_chunking`).
-/
import Mathlib.Data.List.Basic
import Mathlib.Logic.Function.Basic
import Xv6.GrepMatch

namespace Xv6.Grep

open Function

/-- `'\n'`. -/
def newline : UInt8 := 10

/-- `sizeof(buf)`. -/
def bufSize : ℕ := 1024

abbrev Buf := ℕ → UInt8

/-- How `grep` can go wrong. -/
inductive Stop where
  | outside (i : ℕ)
  | noReturn
  deriving DecidableEq

/-- `buf[i] = b`. -/
def store (buf : Buf) (i : ℕ) (b : UInt8) : Except Stop Buf :=
  if i < bufSize then .ok (update buf i b) else .error (.outside i)

/-- The bytes that `read` puts at `buf + i`. -/
def storeAll (buf : Buf) (i : ℕ) : List UInt8 → Except Stop Buf
  | [] => .ok buf
  | b :: l => do
    let buf ← store buf i b
    storeAll buf (i + 1) l

/-- The `n` bytes at `buf + p`. -/
def bytes (buf : Buf) (p n : ℕ) : List UInt8 := (List.range n).map fun i => buf (p + i)

/-- The string at `buf + p`. -/
def string (buf : Buf) (p : ℕ) : List UInt8 := (bytes buf p (bufSize - p)).takeWhile (· != 0)

/-- `strchr(buf + s, c)`. -/
def strchr (buf : Buf) (c : UInt8) : ℕ → ℕ → Except Stop (Option ℕ)
  | 0, _ => .error .noReturn
  | fuel + 1, s =>
    if bufSize ≤ s then .error (.outside s)
    else if buf s = 0 then .ok none
    else if buf s = c then .ok (some s)
    else strchr buf c fuel (s + 1)

/-- The first loop of `memmove`. -/
def moveForward : ℕ → ℕ → ℕ → Buf → Except Stop Buf
  | 0, _, _, buf => .ok buf
  | n + 1, dst, src, buf => do
    let buf ← store buf dst (buf src)
    moveForward n (dst + 1) (src + 1) buf

/-- The second loop of `memmove`, from the end. -/
def moveBackward : ℕ → ℕ → ℕ → Buf → Except Stop Buf
  | 0, _, _, buf => .ok buf
  | n + 1, dst, src, buf => do
    let buf ← store buf (dst + n) (buf (src + n))
    moveBackward n dst src buf

/-- `memmove(buf + dst, buf + src, n)`. -/
def memmove (dst src n : ℕ) (buf : Buf) : Except Stop Buf :=
  if src > dst then moveForward n dst src buf else moveBackward n dst src buf

/-- The inner loop of `grep`, from `p` on: the buffer, `p`, and what has been written. -/
def scanLines (pattern : List UInt8) : ℕ → Buf → ℕ → List (List UInt8) →
    Except Stop (Buf × ℕ × List (List UInt8))
  | 0, _, _, _ => .error .noReturn
  | fuel + 1, buf, p, out => do
    match ← strchr buf newline (bufSize + 1) p with
    | none => return (buf, p, out)
    | some q =>
      let buf ← store buf q 0
      if matchText pattern (string buf p) then
        let buf ← store buf q newline
        scanLines pattern fuel buf (q + 1) (out ++ [bytes buf p (q + 1 - p)])
      else scanLines pattern fuel buf (q + 1) out

/-- What `read(fd, .., k)` returns where `len` bytes are left; `want` is as the file has it. -/
def readSize (want k len : ℕ) : ℕ := min (max 1 want) (min k len)

/-- The loop of `grep` from its `i`-th turn on, with `m` bytes in the buffer and `rest` to be read:
what has been written at its end. -/
def grepLoop (pattern : List UInt8) (want : ℕ → ℕ) : ℕ → ℕ → Buf → ℕ → List UInt8 →
    List (List UInt8) → Except Stop (List (List UInt8))
  | 0, _, _, _, _, _ => .error .noReturn
  | fuel + 1, i, buf, m, rest, out =>
    let n := readSize (want i) (bufSize - m - 1) rest.length
    if n = 0 then .ok out
    else do
      let buf ← storeAll buf m (rest.take n)
      let m := m + n
      let buf ← store buf m 0
      let (buf, p, out) ← scanLines pattern (bufSize + 1) buf 0 out
      if m > 0 then
        let m := m - p
        let buf ← memmove 0 p m buf
        grepLoop pattern want fuel (i + 1) buf m (rest.drop n) out
      else grepLoop pattern want fuel (i + 1) buf m (rest.drop n) out

/-- `grep(pattern, fd)` for a file with the bytes `input`. -/
def grep (pattern : List UInt8) (want : ℕ → ℕ) (buf : Buf) (input : List UInt8) :
    Except Stop (List (List UInt8)) :=
  grepLoop pattern want (input.length + 1) 0 buf 0 input []

/-! ## The lines of a text -/

/-- The lines that end with a newline, without it: the pieces between the newlines except for the
last one. -/
def lines (text : List UInt8) : List (List UInt8) := (text.splitOn newline).dropLast

/-- What is to be written for the lines. -/
def output (pattern : List UInt8) (l : List (List UInt8)) : List (List UInt8) :=
  (l.filter (matchText pattern)).map (· ++ [newline])

theorem lines_append {l : List UInt8} (h : newline ∉ l) (text : List UInt8) :
    lines (l ++ newline :: text) = l :: lines text := by
  have hl : ∀ x ∈ l, (x == newline) = false := by
    intro x hx
    rw [beq_eq_false_iff_ne]
    rintro rfl
    exact h hx
  unfold lines List.splitOn
  rw [List.splitOnP_append_cons_of_forall_mem hl newline (beq_self_eq_true newline) text]
  exact List.dropLast_cons_of_ne_nil (List.splitOnP_ne_nil _ _)

theorem lines_of_notMem {l : List UInt8} (h : newline ∉ l) : lines l = [] := by
  have hl : ∀ x ∈ l, (x == newline) = false := by
    intro x hx
    rw [beq_eq_false_iff_ne]
    rintro rfl
    exact h hx
  unfold lines List.splitOn
  rw [List.splitOnP_eq_singleton hl]
  rfl

/-! ## The bytes of the buffer -/

variable {buf buf' : Buf} {p q n : ℕ} {l : List UInt8}

theorem ok_bind {α β : Type} (a : α) (f : α → Except Stop β) : (Except.ok a >>= f) = f a := rfl

theorem store_ok (buf : Buf) {i : ℕ} (h : i < bufSize) (b : UInt8) :
    store buf i b = .ok (update buf i b) := if_pos h

@[simp] theorem length_bytes (buf : Buf) (p n : ℕ) : (bytes buf p n).length = n := by
  simp [bytes]

theorem bytes_add (buf : Buf) (p a b : ℕ) :
    bytes buf p (a + b) = bytes buf p a ++ bytes buf (p + a) b := by
  unfold bytes
  rw [List.range_add, List.map_append, List.map_map]
  congr 1
  apply List.map_congr_left
  intro i _
  rw [Function.comp_apply, Nat.add_assoc]

theorem bytes_congr (h : ∀ i, i < n → buf' (q + i) = buf (p + i)) : bytes buf' q n = bytes buf p n := by
  apply List.map_congr_left
  intro i hi
  exact h i (List.mem_range.mp hi)

theorem bytes_succ (buf : Buf) (p n : ℕ) : bytes buf p (n + 1) = buf p :: bytes buf (p + 1) n := by
  rw [Nat.add_comm, bytes_add]
  rfl

/-- The bytes at `buf + p` are a text in three parts, the middle one a single byte. -/
theorem bytes_split {b : UInt8} {l' : List UInt8}
    (h : bytes buf p (l ++ b :: l').length = l ++ b :: l') :
    bytes buf p l.length = l ∧ buf (p + l.length) = b
      ∧ bytes buf (p + l.length + 1) l'.length = l' := by
  rw [List.length_append, List.length_cons, bytes_add] at h
  obtain ⟨hl, htail⟩ := List.append_inj h (length_bytes _ _ _)
  rw [bytes_succ] at htail
  obtain ⟨hb, hl'⟩ := List.cons.inj htail
  exact ⟨hl, hb, hl'⟩

/-- A store behind or before a piece. -/
theorem bytes_update {i : ℕ} (h : i < p ∨ p + n ≤ i) (b : UInt8) :
    bytes (update buf i b) p n = bytes buf p n := by
  apply bytes_congr
  intro j hj
  exact update_of_ne (by omega) _ _

/-- **`read`** puts its bytes behind those that are there. -/
theorem storeAll_spec (l : List UInt8) (buf : Buf) (h : p + l.length ≤ bufSize) :
    ∃ buf', storeAll buf p l = .ok buf' ∧ bytes buf' p l.length = l
      ∧ ∀ j, j < p → buf' j = buf j := by
  induction l generalizing buf p with
  | nil => exact ⟨buf, rfl, rfl, fun _ _ => rfl⟩
  | cons b l ih =>
    rw [List.length_cons] at h
    obtain ⟨buf', hrun, hbytes, hkeep⟩ := @ih (p + 1) (update buf p b) (by omega)
    refine ⟨buf', ?_, ?_, fun j hj => ?_⟩
    · unfold storeAll
      rw [store_ok buf (by omega), ok_bind, hrun]
    · rw [List.length_cons, bytes_succ, hbytes, hkeep p (Nat.lt_succ_self p), update_self]
    · rw [hkeep j (by omega), update_of_ne (by omega)]

/-- **`strchr`** goes over bytes that are neither the character nor zero. -/
theorem strchr_skip {c : UInt8} (l : List UInt8) {fuel : ℕ} (hbytes : bytes buf p l.length = l)
    (hzero : 0 ∉ l) (hc : c ∉ l) (hin : p + l.length < bufSize) :
    strchr buf c (fuel + l.length) p = strchr buf c fuel (p + l.length) := by
  induction l generalizing p with
  | nil => rfl
  | cons b l ih =>
    rw [List.length_cons, bytes_succ] at hbytes
    obtain ⟨hb, hl⟩ := List.cons.inj hbytes
    rw [List.mem_cons, not_or] at hzero hc
    rw [List.length_cons] at hin ⊢
    rw [← Nat.add_assoc, strchr, if_neg (by omega), if_neg, if_neg,
      ih hl hzero.2 hc.2 (by omega), Nat.add_assoc, Nat.add_comm 1]
    · rw [hb]
      exact fun heq => hc.1 heq.symm
    · rw [hb]
      exact fun heq => hzero.1 heq.symm

theorem strchr_eq {c : UInt8} (hbytes : bytes buf p l.length = l) (hzero : 0 ∉ l) (hc : c ∉ l)
    (hin : p + l.length < bufSize) :
    strchr buf c (bufSize + 1) p = if buf (p + l.length) = 0 then .ok none
      else if buf (p + l.length) = c then .ok (some (p + l.length))
      else strchr buf c (bufSize - l.length) (p + l.length + 1) := by
  have hfuel : bufSize + 1 = bufSize - l.length + 1 + l.length := by omega
  rw [hfuel, strchr_skip l hbytes hzero hc hin, strchr, if_neg (by omega)]

/-- The string up to a zero. -/
theorem string_eq (hbytes : bytes buf p l.length = l) (hzero : 0 ∉ l)
    (hend : buf (p + l.length) = 0) (hin : p + l.length < bufSize) : string buf p = l := by
  unfold string
  obtain ⟨k, hk⟩ : ∃ k, bufSize - p = l.length + (k + 1) := ⟨bufSize - p - l.length - 1, by omega⟩
  rw [hk, bytes_add, hbytes, bytes_succ, hend, List.takeWhile_append_of_pos, List.takeWhile_cons]
  · simp
  · intro b hb
    rw [bne_iff_ne]
    rintro rfl
    exact hzero hb

/-- **The forward loop of `memmove`**: what is copied is what was there before the loop. -/
theorem moveForward_spec {dst src : ℕ} (n : ℕ) (buf : Buf) (hlt : dst < src)
    (hin : dst + n ≤ bufSize) :
    ∃ buf', moveForward n dst src buf = .ok buf' ∧ bytes buf' dst n = bytes buf src n
      ∧ ∀ j, j < dst → buf' j = buf j := by
  induction n generalizing dst src buf with
  | zero => exact ⟨buf, rfl, rfl, fun _ _ => rfl⟩
  | succ n ih =>
    obtain ⟨buf', hrun, hbytes, hkeep⟩ :=
      @ih (dst + 1) (src + 1) (update buf dst (buf src)) (by omega) (by omega)
    refine ⟨buf', ?_, ?_, fun j hj => ?_⟩
    · unfold moveForward
      rw [store_ok buf (by omega), ok_bind, hrun]
    · -- the bytes still to be copied are behind the one that is overwritten
      rw [bytes_succ, bytes_succ, hbytes, hkeep dst (Nat.lt_succ_self dst), update_self,
        bytes_update (Or.inl (by omega))]
    · rw [hkeep j (by omega), update_of_ne (by omega)]

theorem moveBackward_self {dst : ℕ} (n : ℕ) (buf : Buf) (hin : dst + n ≤ bufSize) :
    moveBackward n dst dst buf = .ok buf := by
  induction n with
  | zero => rfl
  | succ n ih =>
    unfold moveBackward
    rw [store_ok buf (by omega), ok_bind, update_eq_self]
    exact ih (by omega)

theorem memmove_front (p n : ℕ) (buf : Buf) (hin : n ≤ bufSize) :
    ∃ buf', memmove 0 p n buf = .ok buf' ∧ bytes buf' 0 n = bytes buf p n := by
  unfold memmove
  by_cases hp : p > 0
  · obtain ⟨buf', hrun, hbytes, -⟩ := moveForward_spec n buf hp (by omega)
    exact ⟨buf', by rw [if_pos hp, hrun], hbytes⟩
  · obtain rfl : p = 0 := by omega
    exact ⟨buf, by rw [if_neg hp, moveBackward_self n buf (by omega)], rfl⟩

/-! ## The lines in the buffer -/

/-- One line, with its newline replaced by a zero and put back if the line matches. -/
theorem scanLines_line (pattern : List UInt8) {fuel : ℕ} {tail : List UInt8}
    (hbytes : bytes buf p (l ++ newline :: tail).length = l ++ newline :: tail)
    (hzero : 0 ∉ l) (hl : newline ∉ l) (hin : p + l.length < bufSize) (out : List (List UInt8)) :
    ∃ buf', scanLines pattern (fuel + 1) buf p out
        = scanLines pattern fuel buf' (p + l.length + 1) (out ++ output pattern [l])
      ∧ ∀ j, p + l.length < j → buf' j = buf j := by
  obtain ⟨hpre, hnl, -⟩ := bytes_split hbytes
  have hcut : bytes (update buf (p + l.length) 0) p l.length = l := by
    rw [bytes_update (Or.inr le_rfl), hpre]
  have hline : string (update buf (p + l.length) 0) p = l :=
    string_eq hcut hzero (update_self ..) hin
  rw [scanLines, strchr_eq hpre hzero hl hin, hnl, if_neg (by decide), if_pos rfl, ok_bind]
  dsimp only
  rw [store_ok buf hin, ok_bind, hline]
  cases hmatch : matchText pattern l with
  | true =>
    rw [if_pos rfl, store_ok _ hin, ok_bind, update_idem]
    refine ⟨update buf (p + l.length) newline, ?_, fun j hj => update_of_ne (by omega) _ _⟩
    have hwrite : bytes (update buf (p + l.length) newline) p (p + l.length + 1 - p)
        = l ++ [newline] := by
      rw [show p + l.length + 1 - p = l.length + 1 by omega, bytes_add,
        bytes_update (Or.inr le_rfl), hpre, bytes_succ, update_self]
      rfl
    rw [hwrite]
    simp [output, hmatch]
  | false =>
    rw [if_neg Bool.false_ne_true]
    refine ⟨update buf (p + l.length) 0, ?_, fun j hj => update_of_ne (by omega) _ _⟩
    simp [output, hmatch]

/-- **The inner loop of `grep`** on a text that a zero ends: it writes the lines that match, and
stops behind the last newline.  The induction is on the fuel, with a line to a turn. -/
theorem scanLines_spec (pattern : List UInt8) {fuel : ℕ} {text : List UInt8}
    (hfuel : text.length < fuel) (hbytes : bytes buf p text.length = text) (hzero : 0 ∉ text)
    (hend : buf (p + text.length) = 0) (hin : p + text.length < bufSize)
    (out : List (List UInt8)) :
    ∃ buf' q rest, scanLines pattern fuel buf p out
        = .ok (buf', q, out ++ output pattern (lines text))
      ∧ q + rest.length = p + text.length ∧ bytes buf' q rest.length = rest
      ∧ newline ∉ rest ∧ rest ⊆ text
      ∧ ∀ more, lines (text ++ more) = lines text ++ lines (rest ++ more) := by
  induction fuel generalizing buf p text out with
  | zero => exact absurd hfuel (Nat.not_lt_zero _)
  | succ fuel ih =>
    by_cases hmem : newline ∈ text
    · obtain ⟨l, tail, rfl, hl⟩ := List.eq_append_cons_of_mem hmem
      have hlen : (l ++ newline :: tail).length = l.length + 1 + tail.length := by
        simp
        omega
      rw [List.mem_append, not_or] at hzero
      rw [hlen] at hfuel hend hin
      obtain ⟨buf₁, hrun, hkeep⟩ :=
        @scanLines_line buf p l pattern fuel tail hbytes hzero.1 hl (by omega) out
      have htail : bytes buf₁ (p + l.length + 1) tail.length = tail := by
        rw [bytes_congr fun i _ => hkeep _ (by omega)]
        exact (bytes_split hbytes).2.2
      have hend₁ : buf₁ (p + l.length + 1 + tail.length) = 0 := by
        rw [hkeep _ (by omega), ← hend]
        congr 1
        omega
      obtain ⟨buf', q, rest, hrest, hq, hbytes', hnl, hsub, hmore⟩ :=
        ih (by omega) htail (fun h => hzero.2 (List.mem_cons_of_mem _ h)) hend₁ (by omega)
          (out ++ output pattern [l])
      refine ⟨buf', q, rest, ?_, by omega, hbytes', hnl, fun b hb => ?_, fun more => ?_⟩
      · rw [hrun, hrest, lines_append hl, List.append_assoc]
        unfold output
        rw [← List.map_append, ← List.filter_append]
        rfl
      · exact List.mem_append_right _ (List.mem_cons_of_mem _ (hsub hb))
      · rw [List.append_assoc, List.cons_append, lines_append hl, lines_append hl, hmore]
        rfl
    · refine ⟨buf, p, text, ?_, rfl, hbytes, hmem, fun _ hb => hb, fun more => ?_⟩
      · unfold scanLines
        rw [strchr_eq hbytes hzero hmem hin, if_pos hend, ok_bind, lines_of_notMem hmem]
        simp [output]
        rfl
      · rw [lines_of_notMem hmem, List.nil_append]

/-! ## `grep` -/

/-- No `read` where nothing is left, or where the buffer is full. -/
theorem readSize_eq_zero {want k len : ℕ} : readSize want k len = 0 ↔ k = 0 ∨ len = 0 := by
  unfold readSize
  omega

/-- A line that fills the buffer has no newline. -/
theorem newline_notMem_of_full {carry rest : List UInt8} (hcarry : newline ∉ carry)
    (hlen : bufSize ≤ carry.length + 1)
    (hlines : ∀ l ∈ lines (carry ++ rest), l.length + 1 < bufSize) : newline ∉ carry ++ rest := by
  intro hmem
  have hrest : newline ∈ rest := (List.mem_append.mp hmem).resolve_left hcarry
  obtain ⟨l, tail, rfl, hl⟩ := List.eq_append_cons_of_mem hrest
  have hnot : newline ∉ carry ++ l := fun h => (List.mem_append.mp h).elim hcarry hl
  rw [← List.append_assoc, lines_append hnot] at hlines
  have hfirst := hlines _ List.mem_cons_self
  rw [List.length_append] at hfirst
  omega

/-- **The loop of `grep`**, with the part of a line that has been carried over.  The induction is on
the fuel: every `read` returns something. -/
theorem grepLoop_spec (pattern : List UInt8) (want : ℕ → ℕ) {fuel : ℕ} (i : ℕ)
    {carry rest : List UInt8} (hfuel : rest.length < fuel)
    (hbytes : bytes buf 0 carry.length = carry) (hcarry : newline ∉ carry)
    (hzero : 0 ∉ carry ++ rest) (hin : carry.length < bufSize)
    (hlines : ∀ l ∈ lines (carry ++ rest), l.length + 1 < bufSize) (out : List (List UInt8)) :
    grepLoop pattern want fuel i buf carry.length rest out
      = .ok (out ++ output pattern (lines (carry ++ rest))) := by
  induction fuel generalizing i buf carry rest out with
  | zero => exact absurd hfuel (Nat.not_lt_zero _)
  | succ fuel ih =>
    unfold grepLoop
    dsimp only
    generalize hn : readSize (want i) (bufSize - carry.length - 1) rest.length = n
    by_cases hstop : n = 0
    · have hnone : newline ∉ carry ++ rest := by
        rw [hstop, readSize_eq_zero] at hn
        rcases hn with hfull | hempty
        · exact newline_notMem_of_full hcarry (by omega) hlines
        · rwa [List.length_eq_zero_iff.mp hempty, List.append_nil]
      rw [if_pos hstop, lines_of_notMem hnone]
      simp [output]
    · have hle : n ≤ bufSize - carry.length - 1 ∧ n ≤ rest.length := by
        unfold readSize at hn
        omega
      have htake : (rest.take n).length = n := List.length_take_of_le hle.2
      obtain ⟨buf₁, hrun₁, hnew, hkeep⟩ := @storeAll_spec carry.length (rest.take n) buf (by omega)
      rw [if_neg hstop, hrun₁, ok_bind, store_ok buf₁ (by omega), ok_bind]
      -- the text in the buffer: what was carried over, the chunk, and a zero
      have hlen : (carry ++ rest.take n).length = carry.length + n := by
        rw [List.length_append, htake]
      have htext : bytes (update buf₁ (carry.length + n) 0) 0 (carry ++ rest.take n).length
          = carry ++ rest.take n := by
        rw [hlen, bytes_update (Or.inr (by omega)), bytes_add, Nat.zero_add]
        rw [htake] at hnew
        rw [hnew, bytes_congr fun j hj => hkeep (0 + j) (by omega), hbytes]
      have hall : carry ++ rest = carry ++ rest.take n ++ rest.drop n := by
        rw [List.append_assoc, List.take_append_drop]
      rw [hall, List.mem_append, not_or] at hzero
      have hend : update buf₁ (carry.length + n) 0 (0 + (carry ++ rest.take n).length) = 0 := by
        rw [hlen, Nat.zero_add, update_self]
      have hturns : (carry ++ rest.take n).length < bufSize + 1 := by omega
      obtain ⟨buf₂, q, carry', hrun₂, hq, hbytes', hcarry', hsub, hmore⟩ :=
        scanLines_spec pattern hturns htext hzero.1 hend (by omega) out
      rw [hrun₂, ok_bind, if_pos (by omega)]
      obtain ⟨buf₃, hrun₃, hfront⟩ := memmove_front q carry'.length buf₂ (by omega)
      rw [show carry.length + n - q = carry'.length by omega, hrun₃, ok_bind,
        ih (i + 1) (by rw [List.length_drop]; omega) (hfront.trans hbytes') hcarry' ?_ (by omega) ?_,
        hall, hmore]
      · unfold output
        rw [List.filter_append, List.map_append, List.append_assoc]
      · rw [List.mem_append, not_or]
        exact ⟨fun h => hzero.1 (hsub h), hzero.2⟩
      · intro l hl
        apply hlines
        rw [hall, hmore]
        exact List.mem_append_right _ hl

/-- **`grep` does not depend on the chunks.**  For an input without zeros whose lines have at most
1023 bytes with their newlines, and whatever each `read` returns of it, the lines that match are
written, whole, in order and once each, and no byte outside the buffer is touched. -/
theorem grep_chunking (pattern : List UInt8) (want : ℕ → ℕ) (buf : Buf) {input : List UInt8}
    (hzero : 0 ∉ input) (hlines : ∀ l ∈ lines input, (l ++ [newline]).length ≤ 1023) :
    grep pattern want buf input
      = .ok (((lines input).filter (matchText pattern)).map (· ++ [newline])) := by
  have hshort : ∀ l ∈ lines ([] ++ input), l.length + 1 < bufSize := by
    intro l hl
    have hle := hlines l hl
    rw [List.length_append, List.length_singleton] at hle
    exact Nat.lt_succ_of_le hle
  exact @grepLoop_spec buf pattern want (input.length + 1) 0 [] input (Nat.lt_succ_self _) rfl
    List.not_mem_nil hzero (by decide) hshort []

/-- The lines `a`, `ba` and `c`, read three bytes at a time, and the pattern `a`. -/
theorem grep_chunking_three : grep [97] (fun _ => 3) (fun _ => 0) [97, 10, 98, 97, 10, 99, 10]
    = .ok [[97, 10], [98, 97, 10]] :=
  grep_chunking [97] (fun _ => 3) (fun _ => 0) (by decide) (by decide)

end Xv6.Grep
