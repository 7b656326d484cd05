/-
# `exec`, `sbrk` and `kill` (`kernel/exec.c`, `kernel/proc.c`, `kernel/sysfile.c`)

The calls that change the memory of a process that exists.  What `exec` reads from the
file system and from user memory is its input: an `Image` gives the result of every
read of the file, `Fetched` that of every read of the argument array.  The bytes of
the pages are left out, and so is what the call does to the trapframe and the name.

`SysReach` describes all runs of the system with these calls, `kill`, and the events
of `ProcModel`.
-/
import Xv6.ProcModel

namespace Xv6

/-! ## `sbrk` -/

/-- The value of an expression on `uint64`. -/
def uint64 (x : ℤ) : ℕ := (x % 2 ^ 64).toNat

/-- `growproc(n)` called by `p`. -/
def growproc (s : Kernel) (p : ℕ) (n : ℤ) : Except Fault (ℤ × Kernel) := do
  let sz := (s.proc p).sz
  if n > 0 then
    let pt ← deref (s.proc p).pagetable
    let (sz, pt, m) ← uvmalloc pt s.mem sz (uint64 (sz + n)) true false
    let s := { s with mem := m }.updProc p fun q => { q with pagetable := some pt }
    if sz = 0 then return (-1, s)
    else return (0, s.updProc p fun q => { q with sz := sz })
  else if n < 0 then
    let pt ← deref (s.proc p).pagetable
    let (sz, pt, m) ← uvmdealloc pt s.mem sz (uint64 (sz + n))
    return (0, { s with mem := m }.updProc p fun q => { q with pagetable := some pt, sz := sz })
  else return (0, s)

/-! ## `exec` -/

/-- `ELF_MAGIC`. -/
def elfMagic : UInt32 := 0x464C457F

/-- `ELF_PROG_LOAD`. -/
def elfProgLoad : UInt32 := 1

/-- `MAXARG`. -/
def maxArg : ℕ := 32

/-- `struct elfhdr`, as far as `exec` looks at it. -/
structure ElfHdr where
  magic : UInt32
  phnum : UInt16

/-- `struct proghdr`, as far as `exec` looks at it. -/
structure ProgHdr where
  type : UInt32
  flags : UInt32
  vaddr : UInt64
  filesz : UInt64
  memsz : UInt64

/-- What the file system answers: whether `namei` finds the path, the ELF header and the
program headers (`none` for a short read), and whether `loadseg` can read the page at an
offset of a segment. -/
structure Image where
  found : Bool
  header : Option ElfHdr
  ph : ℕ → Option ProgHdr
  reads : ℕ → ℕ → Bool

/-- `flags2perm(flags)`: `PTE_W` and `PTE_X`. -/
def flags2perm (flags : UInt32) : Bool × Bool := (flags &&& 2 != 0, flags &&& 1 != 0)

/-- The loop of `loadseg(pagetable, va, ip, offset, sz)` from `i` on, which is a `uint`. -/
def loadsegFrom (pt : PageTable) (va sz : ℕ) (reads : ℕ → Bool) : ℕ → ℕ → Except Fault Bool
  | 0, _ => .error .noReturn
  | fuel + 1, i =>
    if i < sz then
      if walkaddr pt (uint64 (va + i)) = 0 then .error (.panic "loadseg: address should exist")
      else if reads i = false then .ok false
      else loadsegFrom pt va sz reads fuel ((i + pgSize) % 2 ^ 32)
    else .ok true

/-- `loadseg(pagetable, va, ip, offset, sz)`: `false` for the result `-1`. -/
def loadseg (pt : PageTable) (va sz : ℕ) (reads : ℕ → Bool) : Except Fault Bool :=
  loadsegFrom pt va (sz % 2 ^ 32) reads (2 ^ 32 / pgSize + 1) 0

/-- A page table that `exec` is filling. -/
structure Loading where
  pt : PageTable
  mem : PagePool
  sz : ℕ

/-- The loop of `exec` over `n` program headers from `i` on: `false` where it goes to `bad`. -/
def execLoad (img : Image) : ℕ → ℕ → Loading → Except Fault (Bool × Loading)
  | 0, _, l => .ok (true, l)
  | n + 1, i, l =>
    match img.ph i with
    | none => .ok (false, l)
    | some ph =>
      if ph.type ≠ elfProgLoad then execLoad img n (i + 1) l
      else if ph.memsz < ph.filesz then .ok (false, l)
      else if ph.vaddr + ph.memsz < ph.vaddr then .ok (false, l)
      else if ph.vaddr.toNat % pgSize ≠ 0 then .ok (false, l)
      else do
        let (w, x) := flags2perm ph.flags
        let (sz1, pt, m) ← uvmalloc l.pt l.mem l.sz (ph.vaddr + ph.memsz).toNat w x
        if sz1 = 0 then .ok (false, ⟨pt, m, l.sz⟩)
        else
          let ok ← loadseg pt ph.vaddr.toNat ph.filesz.toNat (img.reads i)
          if ok then execLoad img n (i + 1) ⟨pt, m, sz1⟩ else .ok (false, ⟨pt, m, sz1⟩)

/-- The loop of `exec` that pushes the argument strings, given their lengths: the stack
pointer and `argc`, or `none` where it goes to `bad`. -/
def pushArgs (pt : PageTable) (stackbase : ℕ) : List ℕ → ℕ → ℕ → Option (ℕ × ℕ)
  | [], argc, sp => some (sp, argc)
  | len :: l, argc, sp =>
    if argc ≥ maxArg then none
    else
      let sp := sp - (len + 1)
      let sp := sp - sp % 16
      if sp < stackbase then none
      else if copyout pt sp (len + 1) = false then none
      else pushArgs pt stackbase l (argc + 1) sp

/-- The part of `exec` that makes the stack: `argc`, or `none` where it goes to `bad`. -/
def execStack (l : Loading) (args : List ℕ) : Except Fault (Option ℕ × Loading) := do
  let sz := pgRoundUp l.sz
  let (sz1, pt, m) ← uvmalloc l.pt l.mem sz (sz + 2 * pgSize) true false
  if sz1 = 0 then .ok (none, ⟨pt, m, sz⟩)
  else
    let pt ← uvmclear pt (sz1 - 2 * pgSize)
    let l : Loading := ⟨pt, m, sz1⟩
    let stackbase := sz1 - pgSize
    match pushArgs pt stackbase args 0 sz1 with
    | none => return (none, l)
    | some (sp, argc) =>
      -- the array of pointers
      let sp := sp - (argc + 1) * 8
      let sp := sp - sp % 16
      if sp < stackbase then return (none, l)
      else if copyout pt sp ((argc + 1) * 8) = false then return (none, l)
      else return (some argc, l)

/-- The label `bad` of `exec`, with the page table that has been made. -/
def execBad (s : Kernel) (l : Loading) : Except Fault (ℤ × Kernel) := do
  let m ← procFreepagetable l.pt l.mem l.sz
  return (-1, { s with mem := m })

/-- The end of `exec`: the new image replaces the old one. -/
def execCommit (s : Kernel) (p argc : ℕ) (l : Loading) : Except Fault (ℤ × Kernel) := do
  let _ ← deref (s.proc p).trapframe
  let old ← deref (s.proc p).pagetable
  let m ← procFreepagetable old l.mem (s.proc p).sz
  return (argc, { s with mem := m }.updProc p fun q => { q with pagetable := some l.pt, sz := l.sz })

/-- `exec` from the point on where the new page table exists. -/
def execImage (s : Kernel) (p : ℕ) (img : Image) (elf : ElfHdr) (args : List ℕ) (l : Loading) :
    Except Fault (ℤ × Kernel) := do
  match ← execLoad img elf.phnum.toNat 0 l with
  | (false, l) => execBad s l
  | (true, l) =>
    match ← execStack l args with
    | (none, l) => execBad s l
    | (some argc, l) => execCommit s p argc l

/-- `exec(path, argv)` called by `p`, where `args` are the lengths of the strings in `argv`. -/
def exec (s : Kernel) (p : ℕ) (img : Image) (args : List ℕ) : Except Fault (ℤ × Kernel) :=
  if img.found = false then .ok (-1, s)
  else match img.header with
    | none => .ok (-1, s)
    | some elf =>
      if elf.magic ≠ elfMagic then .ok (-1, s)
      else do
        match ← procPagetable s.trampoline ((s.proc p).trapframe.getD 0) s.mem with
        | (none, m) => return (-1, { s with mem := m })
        | (some pt, m) => execImage s p img elf args ⟨pt, m, 0⟩

/-- What `sys_exec` finds in entry `i` of the user's `argv`. -/
inductive Fetched where
  /-- `fetchaddr` fails. -/
  | badAddr
  | null
  /-- The entry is an address; `fetchstr` fails there, or finds a string of some length. -/
  | str (len : Option ℕ)

/-- The loop of `sys_exec` that copies the arguments, with `n` entries of `argv` left: whether
it succeeds, and the pages and lengths of the strings. -/
def fetchArgs (args : ℕ → Fetched) : ℕ → ℕ → PagePool → Bool × List (ℕ × ℕ) × PagePool
  | 0, _, m => (false, [], m)
  | n + 1, i, m =>
    match args i with
    | .badAddr => (false, [], m)
    | .null => (true, [], m)
    | .str len =>
      match kalloc m with
      | (none, m) => (false, [], m)
      | (some page, m) =>
        match len with
        | none => (false, [(page, 0)], m)
        | some len =>
          let (ok, argv, m) := fetchArgs args n (i + 1) m
          (ok, (page, len) :: argv, m)

/-- The end of `sys_exec` with the result `ret`. -/
def freeArgs (s : Kernel) (argv : List (ℕ × ℕ)) (ret : ℤ) : Except Fault (ℤ × Kernel) := do
  let m ← argv.foldlM (fun m a => kfree m a.1) s.mem
  return (ret, { s with mem := m })

/-- `sys_exec()` called by `p`; `path` says whether the path can be copied. -/
def sysExec (s : Kernel) (p : ℕ) (path : Bool) (args : ℕ → Fetched) (img : Image) :
    Except Fault (ℤ × Kernel) :=
  if path = false then .ok (-1, s)
  else match fetchArgs args maxArg 0 s.mem with
    | (false, argv, m) => freeArgs { s with mem := m } argv (-1)
    | (true, argv, m) => do
      let (ret, s) ← exec { s with mem := m } p img (argv.map Prod.snd)
      freeArgs s argv ret

/-! ## Runs -/

/-- What can happen next. -/
inductive SysEvent where
  | proc (e : Event)
  | sbrk (p : ℕ) (n : ℤ) (supply : List ℕ)
  | exec (p : ℕ) (path : Bool) (args : ℕ → Fetched) (img : Image) (supply : List ℕ)
  | kill (p : ℕ) (pid : ℤ)

/-- An event that can happen now: a process makes a call while it runs.  Calls of `kill` are
those with a pid other than `0`, which is what `freeproc` leaves in a slot. -/
def SysEnabled (s : Kernel) : SysEvent → Prop
  | .proc e => Enabled s e
  | .sbrk p _ _ | .exec p _ _ _ _ => p < nproc ∧ (s.proc p).state = .running
  | .kill p pid => (p < nproc ∧ (s.proc p).state = .running) ∧ pid ≠ 0

instance (s : Kernel) : (e : SysEvent) → Decidable (SysEnabled s e)
  | .proc e => inferInstanceAs (Decidable (Enabled s e))
  | .sbrk _ _ _ | .exec _ _ _ _ _ => inferInstanceAs (Decidable (_ ∧ _))
  | .kill _ _ => inferInstanceAs (Decidable (_ ∧ _))

/-- One event. -/
def sysStep (s : Kernel) : SysEvent → Except Fault Kernel
  | .proc e => do return (← step s e).2
  | .sbrk p n supply => do return (← growproc (s.refill supply) p n).2
  | .exec p path args img supply => do return (← sysExec (s.refill supply) p path args img).2
  | .kill _ pid => .ok (kill s pid).2

/-- The state after `userinit`, where the pages of `boot` were outstanding before it. -/
def StartedFrom (boot : Finset ℕ) (s : Kernel) : Prop :=
  (∃ kend trampoline supply, userinit (bootState kend trampoline boot supply) = .ok s)
  ∧ ∃ p pt pte, s.initproc = some p ∧ (s.proc p).pagetable = some pt ∧ pt.lookup 0 = some pte

theorem StartedFrom.started {boot : Finset ℕ} {s : Kernel} (h : StartedFrom boot s) : Started s := by
  obtain ⟨⟨kend, trampoline, supply, hrun⟩, hmapped⟩ := h
  exact ⟨⟨kend, trampoline, boot, supply, hrun⟩, hmapped⟩

/-- `SysReach boot s`: some run leads to `s` from a start with the pages of `boot` outstanding,
those that the kernel has allocated for itself. -/
inductive SysReach (boot : Finset ℕ) : Kernel → Prop
  | start {s : Kernel} : StartedFrom boot s → SysReach boot s
  | step {s s' : Kernel} {e : SysEvent} : SysReach boot s → SysEnabled s e →
      sysStep s e = .ok s' → SysReach boot s'

end Xv6
