/-
# The inode table

`iget`, `idup`, `ilock`, `iunlock`, `iput` and `ialloc` of `fs.c`, cut where a lock is taken or
released, for any number of activities.  A reference is what a variable, an open file or a current
directory has to an entry; it may be used by several activities at once, but it is given up by
`iput` only when nobody uses it.  A process that has two inodes locked counts as two activities.

The inodes on disk are those in the buffer cache: each access is between `bread` and `brelse` of
the inode's block.  An inode's incarnation is counted as history when `ialloc` takes it.
-/
import Xv6.KernelBase

namespace Xv6.Itable

open Function

/-- `NINODE`. -/
def ninode : ℕ := 50

/-- `NDIRECT + 1`, the length of `addrs`. -/
def naddrs : ℕ := 13

/-- `struct dinode`, also the part of `struct inode` that is copied from there. -/
structure Dinode where
  type : ℤ
  major : ℤ
  minor : ℤ
  nlink : ℤ
  size : ℕ
  addrs : Fin naddrs → ℕ
  deriving DecidableEq

/-- The inode `ialloc` writes. -/
def Dinode.new (type : ℤ) : Dinode := ⟨type, 0, 0, 0, 0, fun _ => 0⟩

/-- What `itrunc` leaves of an inode. -/
def Dinode.trunc (d : Dinode) : Dinode := { d with size := 0, addrs := fun _ => 0 }

/-- `struct inode`, without its lock; `gen` is history, the incarnation that was read. -/
structure Inode where
  dev : ℕ
  inum : ℕ
  ref : ℤ
  valid : Bool
  copy : Dinode
  gen : ℕ

/-- Where an inode is on disk. -/
def Inode.place (ip : Inode) : ℕ × ℕ := (ip.dev, ip.inum)

/-- A reference: a holder and the entry it points to. -/
structure Ref (H : Type) where
  holder : H
  ip : Fin ninode
  deriving DecidableEq

/-- Where an activity is. -/
inductive Pc (H : Type) where
  | idle
  /-- `ilock`, at `acquiresleep`. -/
  | lockWait (r : Ref H)
  /-- `ilock`, at the test of `valid`. -/
  | lockRead (r : Ref H)
  /-- `ilock` has returned; the inode may have been changed since the last `iupdate`. -/
  | locked (r : Ref H) (changed : Bool)
  /-- `iput`, at `itrunc`. -/
  | putTrunc (r : Ref H)
  /-- `iput`, at `ip->type = 0`. -/
  | putType (r : Ref H)
  /-- `iput`, at `ip->valid = 0`. -/
  | putValid (r : Ref H)
  /-- `iput`, at the second `acquire(&itable.lock)`. -/
  | putRef (r : Ref H)
  /-- `ialloc`, at `bread` of the inode `inum`. -/
  | alloc (dev inum : ℕ) (type : ℤ)
  /-- `ialloc`, at `iget`. -/
  | allocGet (dev inum : ℕ)
  deriving DecidableEq

/-- The reference an activity uses. -/
def Pc.ref? {H : Type} : Pc H → Option (Ref H)
  | .lockWait r | .lockRead r | .locked r _ | .putTrunc r | .putType r | .putValid r | .putRef r =>
    some r
  | _ => none

/-- The reference an activity is giving up. -/
def Pc.put? {H : Type} : Pc H → Option (Ref H)
  | .putTrunc r | .putType r | .putValid r | .putRef r => some r
  | _ => none

/-- The table, the inodes on disk, the references and the activities. -/
structure State (A H : Type) where
  inode : Fin ninode → Inode
  lock : Fin ninode → Option A
  disk : ℕ × ℕ → Dinode
  gen : ℕ × ℕ → ℕ
  ninodes : ℕ
  refs : Finset (Ref H)
  pc : A → Pc H

variable {A H : Type} [DecidableEq A] [DecidableEq H]

/-! ## The functions -/

/-- Move an activity. -/
def goto (a : A) (c : Pc H) (s : State A H) : State A H :=
  { s with pc := update s.pc a c }

/-- Change an entry. -/
def setInode (e : Fin ninode) (f : Inode → Inode) (s : State A H) : State A H :=
  { s with inode := update s.inode e (f (s.inode e)) }

/-- `ip->ref++`, for a new reference. -/
def addRef (r : Ref H) (s : State A H) : State A H :=
  { setInode r.ip (fun ip => { ip with ref := ip.ref + 1 }) s with refs := insert r s.refs }

/-- `ip->ref--`. -/
def dropRef (r : Ref H) (s : State A H) : State A H :=
  { setInode r.ip (fun ip => { ip with ref := ip.ref - 1 }) s with refs := s.refs.erase r }

/-- The entry `iget` finds. -/
def found (dev inum : ℕ) (s : State A H) : Option (Fin ninode) :=
  (List.finRange ninode).find? fun e =>
    decide (0 < (s.inode e).ref ∧ (s.inode e).dev = dev ∧ (s.inode e).inum = inum)

/-- The entry `iget` recycles. -/
def empty (s : State A H) : Option (Fin ninode) :=
  (List.finRange ninode).find? fun e => decide ((s.inode e).ref = 0)

/-- An entry without references gets to stand for another inode. -/
def recycle (r : Ref H) (dev inum : ℕ) (s : State A H) : State A H :=
  { setInode r.ip (fun ip => { ip with dev := dev, inum := inum, ref := 1, valid := false }) s with
    refs := insert r s.refs }

/-- `iget(dev, inum)`, for the holder `h`. -/
def iget (h : H) (dev inum : ℕ) (s : State A H) : Except Fault (State A H) :=
  match found dev inum s with
  | some e => .ok (addRef ⟨h, e⟩ s)
  | none =>
    match empty s with
    | none => .error (.panic "iget: no inodes")
    | some e =>
      .ok (recycle ⟨h, e⟩ dev inum s)

/-- `iupdate(ip)`. -/
def iupdate (e : Fin ninode) (s : State A H) : State A H :=
  { s with disk := update s.disk (s.inode e).place (s.inode e).copy }

/-- `ilock`, up to `acquiresleep`. -/
def ilock (a : A) (r : Ref H) (s : State A H) : Except Fault (State A H) :=
  if (s.inode r.ip).ref < 1 then .error (.panic "ilock") else .ok (goto a (.lockWait r) s)

/-- `acquiresleep(&ip->lock)`, when it is free. -/
def acquiresleep (a : A) (e : Fin ninode) (s : State A H) : State A H :=
  { s with lock := update s.lock e (some a) }

/-- `releasesleep(&ip->lock)`. -/
def releasesleep (e : Fin ninode) (s : State A H) : State A H :=
  { s with lock := update s.lock e none }

/-- Read an inode from disk. -/
def readInode (e : Fin ninode) (s : State A H) : State A H :=
  setInode e (fun ip =>
    { ip with copy := s.disk ip.place, valid := true, gen := s.gen ip.place }) s

/-- `ilock`, after `acquiresleep`. -/
def ilockRead (a : A) (r : Ref H) (s : State A H) : Except Fault (State A H) :=
  if (s.inode r.ip).valid then .ok (goto a (.locked r false) s)
  else if (s.disk (s.inode r.ip).place).type = 0 then .error (.panic "ilock: no type")
  else .ok (goto a (.locked r false) (readInode r.ip s))

/-- `iunlock(ip)`. -/
def iunlock (a : A) (r : Ref H) (s : State A H) : Except Fault (State A H) :=
  if s.lock r.ip ≠ some a ∨ (s.inode r.ip).ref < 1 then .error (.panic "iunlock")
  else .ok (goto a .idle (releasesleep r.ip s))

/-- `iput(ip)`, up to `release(&itable.lock)`.  With the lock of the inode taken by someone else,
`acquiresleep` would sleep with `itable.lock` held. -/
def iput (a : A) (r : Ref H) (s : State A H) : Except Fault (State A H) :=
  if (s.inode r.ip).ref = 1 ∧ (s.inode r.ip).valid ∧ (s.inode r.ip).copy.nlink = 0 then
    if s.lock r.ip = none then .ok (goto a (.putTrunc r) (acquiresleep a r.ip s))
    else .error (.panic "sched locks")
  else .ok (dropRef r s)

/-- `ip->...` is changed in memory. -/
def setCopy (e : Fin ninode) (f : Dinode → Dinode) (s : State A H) : State A H :=
  setInode e (fun ip => { ip with copy := f ip.copy }) s

/-- `ip->valid = 0`. -/
def invalidate (e : Fin ninode) (s : State A H) : State A H :=
  setInode e (fun ip => { ip with valid := false }) s

/-- One turn of the loop of `ialloc`. -/
def iallocTurn (a : A) (dev inum : ℕ) (type : ℤ) (s : State A H) : State A H :=
  if inum < s.ninodes then
    if (s.disk (dev, inum)).type = 0 then
      goto a (.allocGet dev inum) { s with
        disk := update s.disk (dev, inum) (.new type)
        gen := update s.gen (dev, inum) (s.gen (dev, inum) + 1) }
    else goto a (.alloc dev (inum + 1) type) s
  else goto a .idle s

/-- An activity in `ilock`, `iput` or the loop of `ialloc` gets on. -/
def run (a : A) (s : State A H) : Except Fault (State A H) :=
  match s.pc a with
  | .lockWait r => .ok (goto a (.lockRead r) (acquiresleep a r.ip s))
  | .lockRead r => ilockRead a r s
  | .putTrunc r => .ok (goto a (.putType r) (iupdate r.ip (setCopy r.ip .trunc s)))
  | .putType r =>
    .ok (goto a (.putValid r) (iupdate r.ip (setCopy r.ip (fun d => { d with type := 0 }) s)))
  | .putValid r =>
    .ok (goto a (.putRef r) (releasesleep r.ip (invalidate r.ip s)))
  | .putRef r => .ok (goto a .idle (dropRef r s))
  | .alloc dev inum type => .ok (iallocTurn a dev inum type s)
  | _ => .ok s

/-! ## Runs -/

/-- What can happen next. -/
inductive Event (A H : Type) where
  /-- `iget` for a holder `h` without a reference. -/
  | iget (h : H) (dev inum : ℕ)
  /-- `idup` of a reference, for a holder `h`. -/
  | idup (r : Ref H) (h : H)
  /-- `ilock` is called. -/
  | ilock (a : A) (r : Ref H)
  /-- An activity in `ilock`, `iput` or the loop of `ialloc` gets on. -/
  | run (a : A)
  /-- The inode an activity has locked gets other contents in memory. -/
  | change (a : A) (r : Ref H) (d : Dinode)
  /-- `iupdate` of an inode that an activity has locked. -/
  | iupdate (a : A) (r : Ref H)
  | iunlock (a : A) (r : Ref H)
  | iput (a : A) (r : Ref H)
  | ialloc (a : A) (dev : ℕ) (type : ℤ)
  /-- The `iget` of `ialloc`, for a holder `h`. -/
  | allocGet (a : A) (h : H)

/-- The activity waits for a lock that is taken. -/
def State.blocked (s : State A H) (a : A) : Bool :=
  match s.pc a with
  | .lockWait r => (s.lock r.ip).isSome
  | _ => false

/-- The activity is at the `iget` of `ialloc`. -/
def Pc.allocGets {H : Type} : Pc H → Bool
  | .allocGet _ _ => true
  | _ => false

/-- The holder has no reference. -/
def State.Without (s : State A H) (h : H) : Prop := ∀ r ∈ s.refs, r.holder ≠ h

/-- Nobody is giving the reference up. -/
def State.Kept (s : State A H) (r : Ref H) : Prop := r ∈ s.refs ∧ ∀ a, (s.pc a).put? ≠ some r

/-- What callers see to: references that are used exist, a reference is given up when nobody uses
it, only `iput` frees an inode, and a changed inode is written back before it is unlocked. -/
def Enabled (s : State A H) : Event A H → Prop
  | .iget h _ _ => s.Without h
  | .idup r h => s.Kept r ∧ s.Without h
  | .ilock a r => s.pc a = .idle ∧ s.Kept r
  | .run a => s.blocked a = false
  | .change a r d => (∃ b, s.pc a = .locked r b) ∧ d.type = (s.inode r.ip).copy.type
  | .iupdate a r => ∃ b, s.pc a = .locked r b
  | .iunlock a r => s.pc a = .locked r false
  | .iput a r => s.pc a = .idle ∧ r ∈ s.refs ∧ ∀ b, (s.pc b).ref? ≠ some r
  | .ialloc a _ type => s.pc a = .idle ∧ type ≠ 0
  | .allocGet a h => (s.pc a).allocGets = true ∧ s.Without h

instance State.decidableWithout (s : State A H) (h : H) : Decidable (s.Without h) :=
  inferInstanceAs (Decidable (∀ r ∈ s.refs, r.holder ≠ h))

instance State.decidableKept [Fintype A] (s : State A H) (r : Ref H) : Decidable (s.Kept r) :=
  inferInstanceAs (Decidable (_ ∧ _))

instance decidableEnabled [Fintype A] (s : State A H) : (e : Event A H) → Decidable (Enabled s e)
  | .iget h _ _ => inferInstanceAs (Decidable (s.Without h))
  | .idup _ _ | .ilock _ _ | .change _ _ _ | .iput _ _ | .ialloc _ _ _ | .allocGet _ _ =>
    inferInstanceAs (Decidable (_ ∧ _))
  | .run _ | .iunlock _ _ => inferInstanceAs (Decidable (_ = _))
  | .iupdate a r => inferInstanceAs (Decidable (∃ b, s.pc a = .locked r b))

/-- The last step of `ialloc`. -/
def allocGet (a : A) (h : H) (s : State A H) : Except Fault (State A H) :=
  match s.pc a with
  | .allocGet dev inum => do
    let t ← iget h dev inum s
    .ok (goto a .idle t)
  | _ => .ok s

/-- One step. -/
def step (s : State A H) : Event A H → Except Fault (State A H)
  | .iget h dev inum => iget h dev inum s
  | .idup r h => .ok (addRef ⟨h, r.ip⟩ s)
  | .ilock a r => ilock a r s
  | .run a => run a s
  | .change a r d => .ok (goto a (.locked r true) (setCopy r.ip (fun _ => d) s))
  | .iupdate a r => .ok (goto a (.locked r false) (iupdate r.ip s))
  | .iunlock a r => iunlock a r s
  | .iput a r => iput a r s
  | .ialloc a dev type => .ok (goto a (.alloc dev 1 type) s)
  | .allocGet a h => allocGet a h s

/-- An empty table, with any inodes on disk. -/
def start (disk : ℕ × ℕ → Dinode) (ninodes : ℕ) : State A H where
  inode := fun _ => ⟨0, 0, 0, false, .new 0, 0⟩
  lock := fun _ => none
  disk := disk
  gen := fun _ => 0
  ninodes := ninodes
  refs := ∅
  pc := fun _ => .idle

/-- The states reachable from a start state. -/
inductive Reach (disk : ℕ × ℕ → Dinode) (ninodes : ℕ) : State A H → Prop where
  | start : Reach disk ninodes (start disk ninodes)
  | step {s t : State A H} {e : Event A H} (h : Reach disk ninodes s) (he : Enabled s e)
      (hs : step s e = .ok t) : Reach disk ninodes t

end Xv6.Itable
