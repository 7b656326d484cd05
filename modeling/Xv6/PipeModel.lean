/-
# Pipes

`pipe.c`: processes that write to one pipe, read from it, close its ends and kill each other,
on any number of CPUs.  The bytes of the user buffers are left open, and so is whether `copyin`
and `copyout` fail, unless the buffers are valid.  `return` is written as `brk` from the loop of
the function, after what the function does before it returns.
-/
import Xv6.SleepModel

namespace Xv6.Sleep

open Function LockLang

/-- `PIPESIZE`. -/
def pipeSize : ℕ := 512

/-- `struct pipe`; the counters are 32 bits wide. -/
structure Pipe where
  data : ℕ → UInt8
  nread : ℕ
  nwrite : ℕ
  readopen : Bool
  writeopen : Bool

/-- `pi->nread == pi->nwrite`. -/
def Pipe.isEmpty (pi : Pipe) : Bool := pi.nread = pi.nwrite

/-- `pi->nwrite == pi->nread + PIPESIZE`. -/
def Pipe.isFull (pi : Pipe) : Bool := pi.nwrite = (pi.nread + pipeSize) % 2 ^ 32

/-- `pi->data[pi->nwrite++ % PIPESIZE] = ch`. -/
def Pipe.put (pi : Pipe) (ch : UInt8) : Pipe :=
  { pi with
    data := update pi.data (pi.nwrite % pipeSize) ch
    nwrite := (pi.nwrite + 1) % 2 ^ 32 }

/-- `pi->data[pi->nread++ % PIPESIZE]`: the byte. -/
def Pipe.head (pi : Pipe) : UInt8 := pi.data (pi.nread % pipeSize)

/-- `pi->data[pi->nread++ % PIPESIZE]`: what is left. -/
def Pipe.next (pi : Pipe) : Pipe := { pi with nread := (pi.nread + 1) % 2 ^ 32 }

/-- The channels `&pi->nread` and `&pi->nwrite`, and any other one. -/
inductive PipeChan where
  | nread
  | nwrite
  | other
  deriving DecidableEq

/-- A pipe, and the local variables of the processes that use it: `i`, and what `killed` returned.
History: the bytes that writers have put in, those that readers have got, and whether a
writer has put in a byte since it took `pi->lock` or woke up the readers. -/
structure PipeUse (N : ℕ) where
  pipe : Pipe
  i : Fin N → ℕ
  k : Fin N → Bool
  accepted : List UInt8
  delivered : List UInt8
  fresh : Bool

variable {N : ℕ}

/-- `i = 0`. -/
def PipeUse.start (p : Fin N) (u : PipeUse N) : PipeUse N := { u with i := update u.i p 0 }

/-- The writer has not put in a byte since it took `pi->lock` or woke up the readers. -/
def PipeUse.unfresh (u : PipeUse N) : PipeUse N := { u with fresh := false }

/-- What `pipewrite` does with a byte. -/
def PipeUse.put (p : Fin N) (ch : UInt8) (u : PipeUse N) : PipeUse N :=
  { u with
    pipe := u.pipe.put ch
    i := update u.i p (u.i p + 1)
    accepted := u.accepted ++ [ch]
    fresh := true }

/-- What `piperead` does with a byte, if `copyout` succeeds. -/
def PipeUse.get (p : Fin N) (u : PipeUse N) : PipeUse N :=
  { u with
    pipe := u.pipe.next
    i := update u.i p (u.i p + 1)
    delivered := u.delivered ++ [u.pipe.head] }

/-- What `piperead` does with a byte, if `copyout` fails. -/
def PipeUse.lose (u : PipeUse N) : PipeUse N := { u with pipe := u.pipe.next }

/-- What `killed(pr)` returns. -/
def PipeUse.setKilled (p : Fin N) (b : Bool) (u : PipeUse N) : PipeUse N :=
  { u with k := update u.k p b }

/-- `pi->writeopen = 0`. -/
def PipeUse.closeWrite (u : PipeUse N) : PipeUse N := { u with pipe := { u.pipe with writeopen := false } }

/-- `pi->readopen = 0`. -/
def PipeUse.closeRead (u : PipeUse N) : PipeUse N := { u with pipe := { u.pipe with readopen := false } }

abbrev PipeCode (N : ℕ) := Code N PipeChan (PipeUse N)

/-- `acquire(&pi->lock)`. -/
def lockPipe : PipeCode N := acquire .caller (.guard .other)

/-- `release(&pi->lock); return`. -/
def returnPipe : PipeCode N := .block [.release (.guard .other), .brk]

/-- The end of `pipewrite`. -/
def writeDone (p : Fin N) : PipeCode N :=
  .block [wakeup (some p) .nread, setUser .unfresh, returnPipe]

/-- What the loop of `pipewrite` does after the test of `readopen` and `killed`. -/
def writeByte (faults : Bool) (p : Fin N) : PipeCode N :=
  ifUser (fun u => u.pipe.isFull)
    (.block [wakeup (some p) .nread, setUser .unfresh, sleep p .nwrite .other, setUser .unfresh])
    (.any fun b => if faults && b = 0 then writeDone p else setUser (.put p (UInt8.ofNat b)))

/-- `pipewrite(pi, addr, n)`. -/
def pipewrite (faults : Bool) (p : Fin N) (n : ℕ) : PipeCode N := .block [
  lockPipe,
  setUser fun u => (u.start p).unfresh,
  .loop (ifUser (fun u => u.i p < n)
    (ifUser (fun u => !u.pipe.readopen)
      returnPipe
      (.block [killed p (.setKilled p), ifUser (fun u => u.k p) returnPipe (writeByte faults p)]))
    (writeDone p))]

/-- The loop of `piperead` that copies bytes. -/
def readBytes (faults : Bool) (p : Fin N) (n : ℕ) : PipeCode N :=
  .loop (ifUser (fun u => u.i p < n)
    (ifUser (fun u => u.pipe.isEmpty)
      .brk
      (.any fun b => if faults && b = 0 then .block [setUser .lose, .brk] else setUser (.get p)))
    .brk)

/-- `piperead(pi, addr, n)`. -/
def piperead (faults : Bool) (p : Fin N) (n : ℕ) : PipeCode N := .block [
  lockPipe,
  .loop (ifUser (fun u => u.pipe.isEmpty && u.pipe.writeopen)
    (.block [killed p (.setKilled p), ifUser (fun u => u.k p) returnPipe (sleep p .nread .other)])
    (.block [setUser (.start p), readBytes faults p n, wakeup (some p) .nwrite, returnPipe]))]

/-- `pipeclose(pi, writable)`, up to `kfree`. -/
def pipeclose (p : Fin N) (writable : Bool) : PipeCode N := .block [
  lockPipe,
  if writable then .block [setUser .closeWrite, wakeup (some p) .nread]
  else .block [setUser .closeRead, wakeup (some p) .nwrite],
  .release (.guard .other)]

/-- What a process does next: `m` is the number of bytes or the process to kill. -/
def pipeCall (faults : Bool) (p : Fin N) (m : ℕ) : ℕ → PipeCode N
  | 0 => pipewrite faults p m
  | 1 => piperead faults p m
  | 2 => pipeclose p true
  | 3 => pipeclose p false
  | 4 => if h : m < N then kill ⟨m, h⟩ else .skip
  | 5 => yield p
  | _ => wakeup (some p) .other

/-- A process that uses the pipe. -/
def pipeProcess (faults : Bool) (p : Fin N) : PipeCode N := .block [
  .release (.proc p),
  .loop (.any fun n => pipeCall faults p (n / 7) (n % 7))]

/-- An interrupt: a process is woken up, or yields. -/
def pipeTrap (me : Option (Fin N)) : PipeCode N :=
  .any fun n =>
    if n = 0 then me.elim .skip fun p => .ite (fun _ t => (t.slot p).state = .running) (yield p) .skip
    else wakeup me .other

/-- Processes that use one pipe. -/
def pipeSystem (N : ℕ) (faults : Bool) :
    System (Table N PipeChan (PipeUse N)) (Use N) (Lock N) (Fin N) :=
  system (pipeProcess faults) pipeTrap

/-- The pipe that `pipealloc` makes. -/
def newPipe (data : ℕ → UInt8) : Pipe :=
  { data := data, nread := 0, nwrite := 0, readopen := true, writeopen := true }

/-- Nothing has been written yet. -/
def pipeUse₀ (N : ℕ) (data : ℕ → UInt8) : PipeUse N :=
  { pipe := newPipe data, i := fun _ => 0, k := fun _ => false, accepted := [], delivered := [],
    fresh := false }

/-- The processes of `alive` have the new pipe. -/
def pipeBooted (N : ℕ) (faults : Bool) (alive : Fin N → Bool) (data : ℕ → UInt8) :
    State (Table N PipeChan (PipeUse N)) (Use N) (Lock N) (Fin N) :=
  booted (pipeProcess faults) alive (pipeUse₀ N data)

end Xv6.Sleep
