/-
# A pipe read into a buffer that is not mapped (`kernel/pipe.c`)

`piperead` takes a byte out of the pipe before it knows whether `copyout` can deliver it.  The
call holds `pi->lock` except while it sleeps, so it is a function of what it finds at each test of
its first loop.  It consumes what it delivers exactly if every byte that it takes has a place in the
buffer (`piperead_exact_iff`); otherwise one byte is lost, and a read that loses its first
byte looks like the end of the file (`piperead_loses_byte`).
-/
import Xv6.PipeModel
import Xv6.CopyExact

namespace Xv6.PipeFault

open Xv6.Sleep (Pipe)
open Sv39 (Word)

/-- What `piperead` finds when it tests the pipe: the pipe, whose counters have 32 bits, and whether
the process has been killed. -/
structure Look where
  pipe : Pipe
  killed : Bool
  nread_lt : pipe.nread < 2 ^ 32
  nwrite_lt : pipe.nwrite < 2 ^ 32

/-- How `piperead` ends: its result, the pipe that the loop of waiting has found, the pipe
afterwards, and the memory. -/
structure ReadEnd where
  ret : ℤ
  found : Pipe
  pipe : Pipe
  ram : Ram

/-- The loop that copies bytes, with `k` turns to go: `i`, the pipe and the memory. -/
def readBytes (pt : PageTable) (addr : Word) : ℕ → ℕ → Pipe → Ram → Except Fault (ℕ × Pipe × Ram)
  | 0, i, pi, ram => .ok (i, pi, ram)
  | k + 1, i, pi, ram =>
    if pi.isEmpty then .ok (i, pi, ram)
    else do
      let c ← UserMem.copyout pt ram (addr + BitVec.ofNat 64 i) (fun _ => pi.head) 1
      if c.ok then readBytes pt addr k (i + 1) pi.next c.ram
      else return (i, pi.next, c.ram)

/-- `piperead(pi, addr, n)`, with what it finds each time that it tests the pipe; `none` as long as
it sleeps. -/
def piperead (pt : PageTable) (ram : Ram) (addr : Word) (n : BitVec 32) :
    List Look → Except Fault (Option ReadEnd)
  | [] => .ok none
  | l :: looks =>
    if l.pipe.isEmpty && l.pipe.writeopen then
      if l.killed then .ok (some ⟨-1, l.pipe, l.pipe, ram⟩)
      else piperead pt ram addr n looks
    else do
      let (i, pi, ram) ← readBytes pt addr n.toInt.toNat 0 l.pipe ram
      return some ⟨i, l.pipe, pi, ram⟩

/-- The number of bytes in a pipe. -/
def available (pi : Pipe) : ℕ := (pi.nwrite + (2 ^ 32 - pi.nread)) % 2 ^ 32

/-- The number of bytes that a call has taken out. -/
def ReadEnd.taken (e : ReadEnd) : ℕ := (e.pipe.nread + (2 ^ 32 - e.found.nread)) % 2 ^ 32

/-- The call has taken out what it says, and has seen the end of the file if it returns `0`. -/
def ReadEnd.Exact (n : BitVec 32) (e : ReadEnd) : Prop :=
  (e.taken : ℤ) = (if e.ret = -1 then 0 else e.ret)
    ∧ (e.ret = 0 → (e.found.isEmpty = true ∧ e.found.writeopen = false) ∨ n.toInt ≤ 0)

/-- Byte `i` of the buffer has a place. -/
def Lands (pt : PageTable) (addr : Word) (i : ℕ) : Prop :=
  translate pt (addr + BitVec.ofNat 64 i).toNat ≠ none

variable {pt : PageTable} {addr : Word} {pi : Pipe}

theorem copyout_byte (pt : PageTable) (ram : Ram) (va : Word) (ch : UInt8) :
    ∃ c, UserMem.copyout pt ram va (fun _ => ch) 1 = .ok c
      ∧ (c.ok = true ↔ translate pt va.toNat ≠ none) := by
  obtain ⟨c, hrun, heq⟩ := UserMem.copyout_eq pt ram va (fun _ => ch) 1
  refine ⟨c, hrun, ?_⟩
  rw [show c.ok = _ from congrArg Prod.fst heq, copyoutBytes_fst, copyout_iff]
  simp

theorem available_eq_zero (hr : pi.nread < 2 ^ 32) (hw : pi.nwrite < 2 ^ 32) :
    available pi = 0 ↔ pi.isEmpty = true := by
  simp only [available, Pipe.isEmpty, decide_eq_true_eq]
  omega

theorem available_next (hr : pi.nread < 2 ^ 32) (hw : pi.nwrite < 2 ^ 32)
    (h : pi.isEmpty = false) : available pi.next + 1 = available pi := by
  simp only [Pipe.isEmpty, decide_eq_false_iff_not] at h
  simp only [available, Pipe.next]
  omega

/-- **The books of the loop**: `j` bytes are delivered, and one more is lost if the next one has
no place. -/
theorem readBytes_spec (k i : ℕ) (ram : Ram) (hr : pi.nread < 2 ^ 32) (hw : pi.nwrite < 2 ^ 32) :
    ∃ j lost ram', readBytes pt addr k i pi ram
        = .ok (i + j, { pi with nread := (pi.nread + j + lost) % 2 ^ 32 }, ram')
      ∧ (∀ x < j, Lands pt addr (i + x))
      ∧ ((lost = 0 ∧ j = min k (available pi))
        ∨ (lost = 1 ∧ j < min k (available pi) ∧ ¬ Lands pt addr (i + j))) := by
  have hstay : pi = { pi with nread := (pi.nread + 0 + 0) % 2 ^ 32 } := by
    rw [add_zero, add_zero, Nat.mod_eq_of_lt hr]
  induction k generalizing i pi ram with
  | zero => exact ⟨0, 0, ram, congrArg (fun q => Except.ok (i, q, ram)) hstay, by simp, by simp⟩
  | succ k ih =>
    cases hempty : pi.isEmpty with
    | true =>
      have hzero := (available_eq_zero hr hw).mpr hempty
      refine ⟨0, 0, ram, ?_, by simp, by simp [hzero]⟩
      rw [readBytes, if_pos hempty]
      exact congrArg (fun q => Except.ok (i, q, ram)) hstay
    | false =>
      have havail := available_next hr hw hempty
      obtain ⟨c, hcopy, hok⟩ := copyout_byte pt ram (addr + BitVec.ofNat 64 i) pi.head
      rw [readBytes, hempty, if_neg Bool.false_ne_true, hcopy]
      by_cases hc : c.ok = true
      · have hnext : pi.next.nread < 2 ^ 32 := Nat.mod_lt _ (by decide)
        obtain ⟨j, lost, ram', hrun, hland, hend⟩ := @ih pi.next (i + 1) c.ram hnext hw
          (by rw [add_zero, add_zero, Nat.mod_eq_of_lt hnext])
        refine ⟨j + 1, lost, ram', ?_, fun x hx => ?_, ?_⟩
        · show (if c.ok then readBytes pt addr k (i + 1) pi.next c.ram else _) = _
          have hi : i + 1 + j = i + (j + 1) := by omega
          have hread : (pi.next.nread + j + lost) % 2 ^ 32
              = (pi.nread + (j + 1) + lost) % 2 ^ 32 := by
            simp only [Pipe.next]
            omega
          rw [if_pos hc, hrun, hi, hread]
          rfl
        · cases x with
          | zero => exact hok.mp hc
          | succ x => exact Nat.add_right_comm i 1 x ▸ hland x (by omega)
        · rw [Nat.add_right_comm i 1 j] at hend
          rcases hend with ⟨hl, hj⟩ | ⟨hl, hj, hno⟩
          · exact Or.inl ⟨hl, by omega⟩
          · exact Or.inr ⟨hl, by omega, hno⟩
      · refine ⟨0, 1, c.ram, ?_, by simp, Or.inr ⟨rfl, by omega, fun hl => hc (hok.mpr hl)⟩⟩
        show (if c.ok then readBytes pt addr k (i + 1) pi.next c.ram else _) = _
        rw [if_neg hc]
        rfl

/-- **`piperead` consumes what it delivers exactly if** every byte of the buffer that it has a byte
for has a place.  It always returns, unless it sleeps. -/
theorem piperead_exact_iff (pt : PageTable) (ram : Ram) (addr : Word) (n : BitVec 32)
    (looks : List Look) :
    ∃ r, piperead pt ram addr n looks = .ok r ∧ ∀ e ∈ r, (e.Exact n ↔
      ∀ i : ℕ, (i : ℤ) < n.toInt → i < available e.found → Lands pt addr i) := by
  have hn : 2 * n.toInt < 2 ^ 32 := BitVec.two_mul_toInt_lt
  induction looks with
  | nil => exact ⟨none, rfl, by simp⟩
  | cons l looks ih =>
    have hzero := available_eq_zero l.nread_lt l.nwrite_lt
    have hlt := l.nread_lt
    rw [piperead]
    split_ifs with hwait hkilled
    · refine ⟨_, rfl, fun e he => ?_⟩
      cases he
      -- the pipe is empty, and nothing is taken
      rw [Bool.and_eq_true] at hwait
      have hself : (l.pipe.nread + (2 ^ 32 - l.pipe.nread)) % 2 ^ 32 = 0 := by
        omega
      refine iff_of_true ⟨congrArg Nat.cast hself, fun h => by cases h⟩ fun i _ hi => ?_
      rw [hzero.mpr hwait.1] at hi
      exact absurd hi (Nat.not_lt_zero i)
    · exact ih
    · obtain ⟨j, lost, ram', hrun, hland, hend⟩ := @readBytes_spec pt addr l.pipe n.toInt.toNat 0
        ram l.nread_lt l.nwrite_lt
      rw [hrun]
      refine ⟨_, rfl, fun e he => ?_⟩
      cases he
      rw [Nat.zero_add] at hend
      have hopen : l.pipe.isEmpty = true → l.pipe.writeopen = false := by
        intro he
        rw [he, Bool.true_and] at hwait
        exact Bool.eq_false_iff.mpr hwait
      have hne : ((0 + j : ℕ) : ℤ) ≠ -1 := by
        omega
      have htaken : ((l.pipe.nread + j + lost) % 2 ^ 32 + (2 ^ 32 - l.pipe.nread)) % 2 ^ 32
          = j + lost := by
        omega
      unfold ReadEnd.Exact ReadEnd.taken
      simp only
      rw [htaken, if_neg hne]
      rcases hend with ⟨rfl, hj⟩ | ⟨rfl, hj, hno⟩
      · refine iff_of_true ⟨by simp, fun h0 => ?_⟩ fun i hi hav => ?_
        · by_cases hn0 : n.toInt ≤ 0
          · exact Or.inr hn0
          · have hempty := hzero.mp (by omega)
            exact Or.inl ⟨hempty, hopen hempty⟩
        · have hl := hland i (by omega)
          rwa [Nat.zero_add] at hl
      · refine iff_of_false (fun h => ?_) fun h => hno (h j (by omega) (by omega))
        have := h.1
        omega

/-- A byte waits in the pipe, and the write end is open. -/
def oneByte : Look where
  pipe := { data := fun _ => 120, nread := 0, nwrite := 1, readopen := true, writeopen := true }
  killed := false
  nread_lt := by decide
  nwrite_lt := by decide

/-- **A byte is lost**: the buffer lies from `MAXVA` on, and the call returns `0` although the
pipe has a byte and can get more; the byte is gone. -/
theorem piperead_loses_byte : ¬ ∀ (pt : PageTable) (ram : Ram) (addr : Word) (n : BitVec 32)
    (looks : List Look) (e : ReadEnd), piperead pt ram addr n looks = .ok (some e) → e.Exact n := by
  intro h
  obtain ⟨c, hcopy, hok⟩ := copyout_byte UserMem.textTable (fun _ => 0) (BitVec.ofNat 64 maxVa) 120
  have hc : c.ok = false := by
    rw [Bool.eq_false_iff, ne_eq, hok]
    decide
  have hrun : piperead UserMem.textTable (fun _ => 0) (BitVec.ofNat 64 maxVa) 1 [oneByte]
      = .ok (some ⟨0, oneByte.pipe, oneByte.pipe.next, c.ram⟩) := by
    have hbytes : readBytes UserMem.textTable (BitVec.ofNat 64 maxVa) 1 0 oneByte.pipe (fun _ => 0)
        = .ok (0, oneByte.pipe.next, c.ram) := by
      rw [readBytes, if_neg (by decide), BitVec.add_zero]
      show UserMem.copyout _ _ _ (fun _ => 120) 1 >>= _ = _
      rw [hcopy]
      show (if c.ok then _ else _) = _
      rw [hc]
      rfl
    rw [piperead, if_neg (by decide)]
    show readBytes _ _ 1 0 _ _ >>= _ = _
    rw [hbytes]
    rfl
  have htaken : ((ReadEnd.taken ⟨0, oneByte.pipe, oneByte.pipe.next, fun _ => 0⟩ : ℕ) : ℤ) = 0 :=
    (h _ _ _ _ _ _ hrun).1
  exact absurd htaken (by decide)

end Xv6.PipeFault
