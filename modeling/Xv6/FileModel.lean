/-
# Descriptors, open files and pipes (`kernel/file.c`, `kernel/pipe.c`, `kernel/sysfile.c`)

`ProcModel` has the open files of the processes without the pipes.  Here the pipes are
added: which entries of `ftable` are ends of a pipe, what a pipe knows of its ends,
and the page it is in.  The calls are those that make or drop references to entries
of `ftable`, each with its failures and with whether it returned an error.

A pipe gets a number when it is made.  The numbers and the count of the calls of
`kfree` for each are history: the code does not have them.  What a pipe holds, and who
sleeps on it, is left out.
-/
import Xv6.ExecModel

namespace Xv6.Ftable

open Function

/-- What `struct pipe` says of the ends, and the number of the pipe. -/
structure Pipe where
  readopen : Bool := false
  writeopen : Bool := false
  id : ℕ := 0

/-- The tables of the kernel and the pipes. -/
structure Tables where
  kernel : Kernel
  /-- The pipe of an `FD_PIPE`, as the address of its page, and `writable`. -/
  pipeOf : ℕ → Option (ℕ × Bool)
  pipe : ℕ → Pipe
  /-- How many pipes there have been. -/
  born : ℕ
  /-- How often the page of each of them has been given to `kfree`. -/
  freed : ℕ → ℕ

/-- `f->type`, with a device as an inode. -/
inductive FileType where
  | none
  | pipe
  | inode
  deriving DecidableEq, Repr

namespace Tables

def fileType (s : Tables) (f : ℕ) : FileType :=
  if (s.pipeOf f).isSome then .pipe else if (s.kernel.file f).ip.isSome then .inode else .none

/-- Write entry `fd` of the open files of `p`. -/
def setFd (s : Tables) (p : ℕ) (fd : Fin nofile) (f : Option ℕ) : Tables :=
  { s with kernel := s.kernel.setFd p fd f }

/-- Change the entry `f` of `ftable`. -/
def setFile (s : Tables) (f : ℕ) (file : File) : Tables :=
  { s with kernel := { s.kernel with file := update s.kernel.file f file } }

/-- The allocator and what it answers. -/
def setMem (s : Tables) (m : PagePool) : Tables := { s with kernel := { s.kernel with mem := m } }

end Tables

/-! ## Entries of `ftable` -/

/-- `filealloc()`. -/
def filealloc (s : Tables) : Option ℕ × Tables :=
  match (List.range nfile).find? (fun f => (s.kernel.file f).ref = 0) with
  | some f => (some f, s.setFile f { s.kernel.file f with ref := 1 })
  | none => (none, s)

/-- `filedup(f)`. -/
def filedup (s : Tables) (f : ℕ) : Except Fault Tables :=
  if (s.kernel.file f).ref < 1 then .error (.panic "filedup")
  else .ok (s.setFile f { s.kernel.file f with ref := (s.kernel.file f).ref + 1 })

/-- The flag of one end is cleared. -/
def Pipe.shut (pi : Pipe) (writable : Bool) : Pipe :=
  if writable then { pi with writeopen := false } else { pi with readopen := false }

/-- `pipeclose(pi, writable)`. -/
def pipeclose (s : Tables) (pi : ℕ) (writable : Bool) : Except Fault Tables :=
  let shut := (s.pipe pi).shut writable
  let s := { s with pipe := update s.pipe pi shut }
  if shut.readopen = false ∧ shut.writeopen = false then do
    let m ← kfree s.kernel.mem pi
    return { s.setMem m with freed := update s.freed shut.id (s.freed shut.id + 1) }
  else .ok s

/-- The entry `f` is free: `ref` is `0` and `type` is `FD_NONE`. -/
def Tables.clearFile (s : Tables) (f : ℕ) : Tables :=
  { s.setFile f { ref := 0, ip := none } with pipeOf := update s.pipeOf f none }

/-- The end of `fileclose`, where `pipe` and `ip` are what the entry was. -/
def releaseFile (s : Tables) (pipe : Option (ℕ × Bool)) (ip : Option ℕ) : Except Fault Tables :=
  match pipe, ip with
  | some (pi, writable), _ => pipeclose s pi writable
  | none, some ip => .ok { s with kernel := iput s.kernel ip }
  | none, none => .ok s

/-- `fileclose(f)`. -/
def fileclose (s : Tables) (f : ℕ) : Except Fault Tables :=
  let ff := s.kernel.file f
  if ff.ref < 1 then .error (.panic "fileclose")
  else if ff.ref - 1 > 0 then .ok (s.setFile f { ff with ref := ff.ref - 1 })
  else releaseFile (s.clearFile f) (s.pipeOf f) ff.ip

/-- `fdalloc(f)` in process `p`. -/
def fdalloc (s : Tables) (p f : ℕ) : Option (Fin nofile) × Tables :=
  match (List.finRange nofile).find? (fun fd => (s.kernel.proc p).ofile fd = none) with
  | some fd => (some fd, s.setFd p fd (some f))
  | none => (none, s)

/-! ## Pipes -/

/-- The new pipe in the page `pi`, with the ends `f0` and `f1`. -/
def Tables.newPipe (s : Tables) (f0 f1 pi : ℕ) : Tables :=
  { s with
    pipe := update s.pipe pi { readopen := true, writeopen := true, id := s.born }
    pipeOf := update (update s.pipeOf f0 (some (pi, false))) f1 (some (pi, true))
    born := s.born + 1 }

/-- `pipealloc(&f0, &f1)`, with `none` for `-1`.  At the label `bad` there is never a page: the
call of `kalloc` is the last thing that can fail. -/
def pipealloc (s : Tables) : Except Fault (Option (ℕ × ℕ) × Tables) :=
  match filealloc s with
  | (none, s) => .ok (none, s)
  | (some f0, s) =>
    match filealloc s with
    | (none, s) => do
      let s ← fileclose s f0
      return (none, s)
    | (some f1, s) =>
      match kalloc s.kernel.mem with
      | (none, m) => do
        let s ← fileclose (s.setMem m) f0
        let s ← fileclose s f1
        return (none, s)
      | (some pi, m) => .ok (some (f0, f1), (s.setMem m).newPipe f0 f1 pi)

/-- The end of a failing `sys_pipe`. -/
def closeEnds (s : Tables) (rf wf : ℕ) : Except Fault (Bool × Tables) := do
  let s ← fileclose s rf
  let s ← fileclose s wf
  return (false, s)

/-- `sys_pipe()` called by `p`, and whether it succeeds; `copyFails` says whether one of the two
calls of `copyout` fails. -/
def sysPipe (s : Tables) (p : ℕ) (copyFails : Bool) : Except Fault (Bool × Tables) := do
  match ← pipealloc s with
  | (none, s) => return (false, s)
  | (some (rf, wf), s) =>
    match fdalloc s p rf with
    | (none, s) => closeEnds s rf wf
    | (some fd0, s) =>
      match fdalloc s p wf with
      | (none, s) => closeEnds (s.setFd p fd0 none) rf wf
      | (some fd1, s) =>
        if copyFails then closeEnds ((s.setFd p fd0 none).setFd p fd1 none) rf wf
        else return (true, s)

/-! ## The other calls -/

/-- `sys_open()` called by `p`; `path` is the inode that the path has led to, `none` where it
leads to none that may be opened. -/
def sysOpen (s : Tables) (p : ℕ) (path : Option ℕ) : Except Fault (Bool × Tables) :=
  match path with
  | none => .ok (false, s)
  | some ip =>
    let s := { s with kernel := idup s.kernel ip }
    match filealloc s with
    | (none, s) => .ok (false, { s with kernel := iput s.kernel ip })
    | (some f, s) =>
      match fdalloc s p f with
      | (none, s) => do
        let s ← fileclose s f
        return (false, { s with kernel := iput s.kernel ip })
      | (some _, s) => .ok (true, s.setFile f { s.kernel.file f with ip := some ip })

/-- `sys_dup()` called by `p`. -/
def sysDup (s : Tables) (p : ℕ) (fd : ℤ) : Except Fault (Bool × Tables) :=
  match argfd s.kernel p fd with
  | none => .ok (false, s)
  | some (_, f) =>
    match fdalloc s p f with
    | (none, s) => .ok (false, s)
    | (some _, s) => do return (true, ← filedup s f)

/-- `sys_close()` called by `p`. -/
def sysClose (s : Tables) (p : ℕ) (fd : ℤ) : Except Fault (Bool × Tables) :=
  match argfd s.kernel p fd with
  | none => .ok (false, s)
  | some (fd, f) => do return (true, ← fileclose (s.setFd p fd none) f)

/-- One turn of the loop of `exit` over the open files. -/
def closeFile (p : ℕ) (s : Tables) (fd : Fin nofile) : Except Fault Tables :=
  match (s.kernel.proc p).ofile fd with
  | none => .ok s
  | some f => do
    let s ← fileclose s f
    return s.setFd p fd none

/-- `exit(status)` called by `p`.  After the loop over the open files come the rest of `exit`
on the tables: the loop in there finds no file open. -/
def exit (s : Tables) (p : ℕ) (status : ℤ) : Except Fault Tables := do
  if s.kernel.initproc = some p then .error (.panic "init exiting")
  else
    let s ← (List.finRange nofile).foldlM (closeFile p) s
    let k ← Xv6.exit s.kernel p status
    return { s with kernel := k }

/-! ## Runs -/

/-- What can happen next. -/
inductive Call where
  | sysOpen (p : ℕ) (path : Option ℕ)
  | sysPipe (p : ℕ) (supply : List ℕ) (copyFails : Bool)
  | sysDup (p : ℕ) (fd : ℤ)
  | sysClose (p : ℕ) (fd : ℤ)
  | fork (p : ℕ) (supply : List ℕ)
  | clone (p : ℕ) (supply : List ℕ)
  | exit (p : ℕ) (status : ℤ)
  | wait (p : ℕ) (copyFails : Bool)
  | dispatch (p : ℕ)
  | yield (p : ℕ)

/-- The process that makes a call. -/
def Call.proc : Call → ℕ
  | .sysOpen p _ | .sysPipe p _ _ | .sysDup p _ | .sysClose p _ | .fork p _ | .clone p _ | .exit p _
  | .wait p _ | .dispatch p | .yield p => p

/-- The state the process must be in. -/
def Call.needs : Call → ProcState
  | .dispatch _ => .runnable
  | _ => .running

/-- A call that can happen now. -/
def Call.Enabled (c : Call) (s : Tables) : Prop :=
  c.proc < nproc ∧ (s.kernel.proc c.proc).state = c.needs

instance Call.decidableEnabled (c : Call) (s : Tables) : Decidable (c.Enabled s) :=
  inferInstanceAs (Decidable (_ ∧ _))

/-- One event of `ProcModel` that concerns no pipe. -/
def kernelStep (s : Tables) (e : Event) (succeeds : Option ℕ → Bool) : Except Fault (Bool × Tables) := do
  let (r, k) ← Xv6.step s.kernel e
  return (succeeds r, { s with kernel := k })

/-- One call, and whether it succeeds. -/
def call (s : Tables) : Call → Except Fault (Bool × Tables)
  | .sysOpen p path => sysOpen s p path
  | .sysPipe p supply copyFails => sysPipe { s with kernel := s.kernel.refill supply } p copyFails
  | .sysDup p fd => sysDup s p fd
  | .sysClose p fd => sysClose s p fd
  | .fork p supply => kernelStep s (.fork p supply) Option.isSome
  | .clone p supply => kernelStep s (.clone p supply) Option.isSome
  | .exit p status => do return (true, ← exit s p status)
  | .wait p copyFails => kernelStep s (.wait p copyFails) fun _ => true
  | .dispatch p => kernelStep s (.dispatch p) fun _ => true
  | .yield p => kernelStep s (.yield p) fun _ => true

/-- The tables after `userinit`: no pipe has been made. -/
def start (k : Kernel) : Tables where
  kernel := k
  pipeOf := fun _ => none
  pipe := fun _ => {}
  born := 0
  freed := fun _ => 0

/-- The tables that runs lead to. -/
inductive Reach : Tables → Prop
  | start {boot : Finset ℕ} {k : Kernel} : StartedFrom boot k → Reach (start k)
  | call {s t : Tables} {c : Call} {ok : Bool} : Reach s → c.Enabled s → call s c = .ok (ok, t) →
      Reach t

end Xv6.Ftable
