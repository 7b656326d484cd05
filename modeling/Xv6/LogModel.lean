/-
# The log in memory (`log.c`)

`begin_op`, `log_write` and `end_op` as functions of the log record, under `log.lock`.
The header `lh` is the list of the block numbers in it, so `lh.n` is its length; an index
beyond `LOGSIZE` is an array access outside of its bounds.
-/
import Xv6.KernelBase

namespace Xv6

/-- `MAXOPBLOCKS`. -/
def maxOpBlocks : ℕ := 10

/-- `LOGSIZE`. -/
def logSize : ℕ := maxOpBlocks * 3

/-- `struct log`, without the place of the log on the disk. -/
structure Log where
  outstanding : ℤ
  committing : Bool
  lh : List ℕ
  deriving DecidableEq

/-- The log after `initlog`. -/
def Log.empty : Log := ⟨0, false, []⟩

/-- `begin_op()` goes on instead of sleeping. -/
def Log.admits (l : Log) : Prop :=
  l.committing = false ∧ l.lh.length + (l.outstanding + 1) * maxOpBlocks ≤ logSize

instance (l : Log) : Decidable l.admits := inferInstanceAs (Decidable (_ ∧ _))

/-- `begin_op()`, once it goes on. -/
def Log.beginOp (l : Log) : Log := { l with outstanding := l.outstanding + 1 }

/-- `log_write(b)` for the block number `b`, in a log of `size` blocks: the log, and whether the
buffer is pinned. -/
def Log.logWrite (size : ℕ) (l : Log) (b : ℕ) : Except Fault (Log × Bool) :=
  if l.lh.length ≥ logSize ∨ l.lh.length ≥ size - 1 then .error (.panic "too big a transaction")
  else if l.outstanding < 1 then .error (.panic "log_write outside of trans")
  else
    -- the index at which the loop stops
    let i := l.lh.idxOf b
    if i ≥ logSize then .error .outOfBounds
    else if i = l.lh.length then .ok ({ l with lh := l.lh ++ [b] }, true)
    else .ok ({ l with lh := l.lh.set i b }, false)

/-- `end_op()` up to `commit()`: the log, and whether to commit. -/
def Log.endOp (l : Log) : Except Fault (Log × Bool) :=
  let outstanding := l.outstanding - 1
  if l.committing then .error (.panic "log.committing")
  else if outstanding = 0 then .ok ({ l with outstanding := outstanding, committing := true }, true)
  else .ok ({ l with outstanding := outstanding }, false)

/-- `log.lh.n = 0`, in `commit()`. -/
def Log.clear (l : Log) : Log := { l with lh := [] }

/-- `end_op()` after `commit()`. -/
def Log.committed (l : Log) : Log := { l with committing := false }

/-- What `log_write` does when it returns: a block that is in the log stays where it is. -/
theorem Log.logWrite_ok {size : ℕ} {l : Log} {b : ℕ} (hroom : l.lh.length < logSize)
    (hsize : l.lh.length < size - 1) (hout : 1 ≤ l.outstanding) :
    l.logWrite size b
      = .ok ({ l with lh := if b ∈ l.lh then l.lh else l.lh ++ [b] }, decide (b ∉ l.lh)) := by
  have hidx : l.lh.idxOf b ≤ l.lh.length := List.idxOf_le_length
  unfold Log.logWrite
  rw [if_neg (by omega), if_neg (by omega)]
  simp only [ge_iff_le, Nat.not_le.mpr (Nat.lt_of_le_of_lt hidx hroom), if_false]
  by_cases hb : b ∈ l.lh
  · have hlt : l.lh.idxOf b < l.lh.length := List.idxOf_lt_length_of_mem hb
    have hset : l.lh.set (l.lh.idxOf b) b = l.lh := by
      have hself := List.set_getElem_self hlt
      rwa [List.getElem_idxOf hlt] at hself
    rw [if_neg (Nat.ne_of_lt hlt), if_pos hb, hset]
    simp [hb]
  · rw [if_pos (List.idxOf_eq_length hb), if_neg hb]
    simp [hb]

end Xv6
