/-
# The virtio disk driver and its device

`virtio_disk_rw` and `virtio_disk_intr` (`virtio_disk.c`), for any number of processes and
buffers, with the device on the other side of the two rings.  All of the driver runs under
`vdisk_lock`; it is cut where the device can see the difference: before and after a ring entry is
written, and where an index is read or advanced.  `sleep` and `wakeup` are atomic.  A buffer is
passed to `virtio_disk_rw` only by a process that holds its sleep lock: `bread` has it from
`bget`, and `bwrite` checks it.

A number for each request, written beside its head on the rings, and the clearings of `b->disk`
are kept as history; nothing reads them.
-/
import Xv6.KernelBase
import Xv6.RingQueue

namespace Xv6.Virtio

open Function

/-! ## The memory shared with the device -/

/-- `NUM`, the number of descriptors and the size of the rings. -/
def numDesc : ℕ := 8

/-- `VRING_DESC_F_NEXT`. -/
def descNext : ℕ := 1

/-- `VRING_DESC_F_WRITE`. -/
def descWrite : ℕ := 2

/-- `VIRTIO_BLK_T_IN`, read the disk. -/
def blkIn : ℕ := 0

/-- `VIRTIO_BLK_T_OUT`, write the disk. -/
def blkOut : ℕ := 1

/-- `BSIZE`. -/
def bSize : ℕ := 1024

/-- `sizeof(struct virtio_blk_req)`. -/
def sizeofBlkReq : ℕ := 16

/-- What an address in a descriptor points to: `&disk.ops[i]`, `b->data` or
`&disk.info[i].status`. -/
inductive Addr (B : Type) where
  | null
  | op (i : ℕ)
  | data (b : B)
  | status (i : ℕ)
  deriving DecidableEq

/-- `struct virtq_desc`. -/
structure Desc (B : Type) where
  addr : Addr B
  len : ℕ
  flags : ℕ
  next : ℕ

/-- The descriptor `free_desc` leaves. -/
def Desc.zero {B : Type} : Desc B := ⟨.null, 0, 0, 0⟩

/-- `flags & VRING_DESC_F_NEXT`. -/
def Desc.hasNext {B : Type} (d : Desc B) : Bool := d.flags &&& descNext ≠ 0

/-- `flags & VRING_DESC_F_WRITE`. -/
def Desc.writes {B : Type} (d : Desc B) : Bool := d.flags &&& descWrite ≠ 0

/-- `struct virtio_blk_req`. -/
structure BlkReq where
  type : ℕ
  reserved : ℕ
  sector : ℕ
  deriving DecidableEq

/-- An entry of `disk.info`. -/
structure Info (B : Type) where
  b : Option B
  status : ℕ

/-- A ring entry: the head of a chain.  `req` is history, the request whose head it is. -/
structure Slot where
  id : ℕ
  req : ℕ
  deriving DecidableEq

/-- A ring and its index, 16 bits wide. -/
structure Ring where
  ring : ℕ → Slot
  idx : ℕ

/-- `ring[idx % NUM] = sl`. -/
def Ring.put (r : Ring) (sl : Slot) : Ring :=
  { r with ring := update r.ring (r.idx % numDesc) sl }

/-- `idx += 1`. -/
def Ring.bump (r : Ring) : Ring := { r with idx := add16 r.idx 1 }

/-- The entries from the index `lo` up to `idx`. -/
def Ring.from (r : Ring) (lo : ℕ) : List Slot :=
  RingQueue.contents (2 ^ 16) numDesc r.ring lo r.idx

/-! ## Processes, interrupt and device -/

/-- The arguments of `virtio_disk_rw`, with the `blockno` it reads. -/
structure Call (B : Type) where
  b : B
  blockno : ℕ
  write : Bool
  deriving DecidableEq

/-- `b->blockno * (BSIZE / 512)`, in 32 bits. -/
def Call.sector {B : Type} (c : Call B) : ℕ := c.blockno * (bSize / 512) % 2 ^ 32

/-- `idx[3]`. -/
structure Chain where
  idx0 : ℕ
  idx1 : ℕ
  idx2 : ℕ
  deriving DecidableEq

def Chain.toList (ch : Chain) : List ℕ := [ch.idx0, ch.idx1, ch.idx2]

/-- A request with its descriptors and, as history, its number. -/
structure Req (B : Type) where
  call : Call B
  chain : Chain
  no : ℕ
  deriving DecidableEq

/-- The ring entry of a request. -/
def Req.slot {B : Type} (q : Req B) : Slot := ⟨q.chain.idx0, q.no⟩

/-- Where a process is in `virtio_disk_rw`. -/
inductive Point (B : Type) where
  /-- Not in it. -/
  | user
  /-- At `alloc3_desc`. -/
  | alloc (c : Call B)
  /-- Before the descriptors are formatted. -/
  | format (c : Call B) (ch : Chain)
  /-- Before `avail->ring` is written. -/
  | ring (q : Req B)
  /-- Before `avail->idx += 1`. -/
  | bump (q : Req B)
  /-- At `while(b->disk == 1)`. -/
  | wait (q : Req B)
  deriving DecidableEq

/-- The channels the driver sleeps on: `&disk.free[0]` and `b`. -/
inductive Chan (B : Type) where
  | free
  | buf (b : B)
  deriving DecidableEq

/-- A process in `virtio_disk_rw` waits for `vdisk_lock`, holds it, or sleeps. -/
inductive Mode (B : Type) where
  | wants
  | holds
  | asleep (ch : Chan B)
  deriving DecidableEq

/-- Where `virtio_disk_intr` is: not running, at the test of its loop, or after reading `id`. -/
inductive Intr where
  | idle
  | test
  | body (sl : Slot)
  deriving DecidableEq

/-- Who holds `vdisk_lock`. -/
inductive Holder (P : Type) where
  | proc (p : P)
  | intr
  deriving DecidableEq

/-- What the device does for a request: the fields of the operation, the buffer, and whether it
writes into the buffer. -/
structure Transfer (B : Type) where
  type : ℕ
  sector : ℕ
  buf : B
  toBuf : Bool
  deriving DecidableEq

/-- What a call asks for. -/
def Call.transfer {B : Type} (c : Call B) : Transfer B :=
  ⟨if c.write then blkOut else blkIn, c.sector, c.b, !c.write⟩

/-- The driver, its callers and the device.

`lastAvail` is the device's index into the available ring; `active` are the heads it has read
from there, `finished` those it has carried out, `pushing` the one it has written to the used ring
without advancing the index yet.

History: `born` requests have been formatted, `request` gives their arguments, `current` is the
request that last set a buffer's flag, `clears` lists for a request the completions that cleared
its flag, `served` what the device did for it, and `returned` is set when its call returns. -/
structure State (P B : Type) where
  free : ℕ → Bool
  desc : ℕ → Desc B
  ops : ℕ → BlkReq
  info : ℕ → Info B
  avail : Ring
  used : Ring
  usedIdx : ℕ
  disk : B → Bool
  owner : B → Option P
  lock : Option (Holder P)
  point : P → Point B
  mode : P → Mode B
  intr : Intr
  lastAvail : ℕ
  active : List Slot
  finished : List Slot
  pushing : Option Slot
  born : ℕ
  request : ℕ → Option (Call B)
  current : B → ℕ
  clears : ℕ → List ℕ
  served : ℕ → List (Transfer B)
  returned : ℕ → Bool

variable {P B : Type} [DecidableEq P] [DecidableEq B]

/-! ## Descriptors -/

/-- `wakeup(chan)`. -/
def wakeup (ch : Chan B) (s : State P B) : State P B :=
  { s with mode := fun p => if s.mode p = .asleep ch then .wants else s.mode p }

/-- `alloc_desc()`; `none` is `-1`. -/
def allocDesc (s : State P B) : Option (ℕ × State P B) :=
  ((List.range numDesc).find? s.free).map fun i =>
    (i, { s with free := update s.free i false })

/-- What `free_desc(i)` does after its checks. -/
def freed (i : ℕ) (s : State P B) : State P B :=
  wakeup .free { s with
    desc := update s.desc i .zero
    free := update s.free i true }

/-- `free_desc(i)`. -/
def freeDesc (i : ℕ) (s : State P B) : Except Fault (State P B) :=
  if numDesc ≤ i then .error (.panic "free_desc 1")
  else if s.free i then .error (.panic "free_desc 2")
  else .ok (freed i s)

/-- `free_chain(i)`.  Each turn frees one more of the descriptors, so `NUM + 1` turns are enough
for it to return or to panic. -/
def freeChain : ℕ → ℕ → State P B → Except Fault (State P B)
  | 0, _, _ => .error .noReturn
  | fuel + 1, i, s => do
    let t ← freeDesc i s
    if (s.desc i).hasNext then freeChain fuel (s.desc i).next t else .ok t

/-- `alloc3_desc` without a descriptor left: free those in `idx` and return `-1`. -/
def rollback (idx : List ℕ) (s : State P B) : Except Fault (Option Chain × State P B) := do
  let t ← idx.foldlM (fun t j => freeDesc j t) s
  .ok (none, t)

/-- `alloc3_desc(idx)`; `none` is `-1`. -/
def alloc3Desc (s : State P B) : Except Fault (Option Chain × State P B) :=
  match allocDesc s with
  | none => rollback [] s
  | some (i, s) =>
    match allocDesc s with
    | none => rollback [i] s
    | some (j, s) =>
      match allocDesc s with
      | none => rollback [i, j] s
      | some (k, s) => .ok (some ⟨i, j, k⟩, s)

/-! ## `virtio_disk_rw` -/

/-- The operation `virtio_disk_rw` formats. -/
def Call.op (c : Call B) : BlkReq := ⟨if c.write then blkOut else blkIn, 0, c.sector⟩

/-- `desc[idx[0]]`. -/
def desc0 (ch : Chain) : Desc B := ⟨.op ch.idx0, sizeofBlkReq, descNext, ch.idx1⟩

/-- `desc[idx[1]]`. -/
def desc1 (c : Call B) (ch : Chain) : Desc B :=
  ⟨.data c.b, bSize, (if c.write then 0 else descWrite) ||| descNext, ch.idx2⟩

/-- `desc[idx[2]]`. -/
def desc2 (ch : Chain) : Desc B := ⟨.status ch.idx0, 1, descWrite, 0⟩

/-- Move a process to another point. -/
def goto (p : P) (pt : Point B) (s : State P B) : State P B :=
  { s with point := update s.point p pt }

/-- `acquire(&disk.vdisk_lock)`, when it is free. -/
def acquire (p : P) (s : State P B) : State P B :=
  { s with lock := some (.proc p), mode := update s.mode p .holds }

/-- `sleep(chan, &disk.vdisk_lock)`, up to the point where the process is woken up. -/
def sleep (p : P) (ch : Chan B) (s : State P B) : State P B :=
  { s with lock := none, mode := update s.mode p (.asleep ch) }

/-- `release(&disk.vdisk_lock)` and return. -/
def release (p : P) (s : State P B) : State P B :=
  { s with lock := none, mode := update s.mode p .wants }

/-- Format the descriptors, set `b->disk` and record the buffer. -/
def format (c : Call B) (ch : Chain) (s : State P B) : State P B :=
  { s with
    ops := update s.ops ch.idx0 c.op
    desc := update (update (update s.desc ch.idx0 (desc0 ch))
      ch.idx1 (desc1 c ch)) ch.idx2 (desc2 ch)
    info := update s.info ch.idx0 ⟨some c.b, 0xff⟩
    disk := update s.disk c.b true
    born := s.born + 1
    request := update s.request s.born (some c)
    current := update s.current c.b s.born }

/-- `disk.info[idx[0]].b = 0`. -/
def forget (ch : Chain) (s : State P B) : State P B :=
  { s with info := update s.info ch.idx0 { s.info ch.idx0 with b := none } }

/-- The process gets on by one step while it holds `vdisk_lock`. -/
def runPoint (p : P) (s : State P B) : Point B → Except Fault (State P B)
  | .user => .ok s
  | .alloc c => do
    let (r, t) ← alloc3Desc s
    match r with
    | some ch => .ok (goto p (.format c ch) t)
    | none => .ok (sleep p .free t)
  | .format c ch => .ok (goto p (.ring ⟨c, ch, s.born⟩) (format c ch s))
  | .ring q => .ok (goto p (.bump q) { s with avail := s.avail.put q.slot })
  | .bump q => .ok (goto p (.wait q) { s with avail := s.avail.bump })
  | .wait q =>
    if s.disk q.call.b then .ok (sleep p (.buf q.call.b) s)
    else do
      let t ← freeChain (numDesc + 1) q.chain.idx0 (forget q.chain s)
      .ok (goto p .user (release p { t with returned := update t.returned q.no true }))

/-! ## `virtio_disk_intr` -/

/-- `b->disk = 0; wakeup(b)`, by the completion of request `r`. -/
def clear (b : B) (r : ℕ) (s : State P B) : State P B :=
  wakeup (.buf b) { s with
    disk := update s.disk b false
    clears := update s.clears (s.current b) (s.clears (s.current b) ++ [r]) }

/-- The interrupt handler gets on by one step. -/
def intrRun (s : State P B) : Except Fault (State P B) :=
  match s.intr with
  | .idle => .ok { s with lock := some .intr, intr := .test }
  | .test =>
    if s.usedIdx = s.used.idx then .ok { s with lock := none, intr := .idle }
    else .ok { s with intr := .body (s.used.ring (s.usedIdx % numDesc)) }
  | .body sl =>
    if numDesc ≤ sl.id then .error .outOfBounds
    else if (s.info sl.id).status ≠ 0 then .error (.panic "virtio_disk_intr status")
    else do
      let b ← deref (s.info sl.id).b
      .ok { clear b sl.req s with usedIdx := add16 s.usedIdx 1, intr := .test }

/-! ## The device -/

/-- The chain the device finds at `head`: what to do, and where the status goes. -/
def walk (s : State P B) (head : ℕ) : Option (Transfer B × ℕ) :=
  let d0 := s.desc head
  let d1 := s.desc d0.next
  let d2 := s.desc d1.next
  if d0.hasNext && !d0.writes && d1.hasNext && !d2.hasNext && d2.writes then
    match d0.addr, d1.addr, d2.addr with
    | .op i, .data b, .status k => some (⟨(s.ops i).type, (s.ops i).sector, b, d1.writes⟩, k)
    | _, _, _ => none
  else none

/-- Carry out a request and write its status, if it is well formed. -/
def serve (sl : Slot) (s : State P B) : State P B :=
  match walk s sl.id with
  | some (x, k) =>
    { s with
      info := update s.info k { s.info k with status := 0 }
      served := update s.served sl.req (s.served sl.req ++ [x]) }
  | none => s

/-! ## Runs -/

/-- What can happen next. -/
inductive Event (P B : Type) where
  /-- `acquiresleep(&b->lock)` returns in process `p`. -/
  | lockBuf (p : P) (b : B)
  /-- `releasesleep(&b->lock)`. -/
  | unlockBuf (p : P) (b : B)
  /-- Process `p` calls `virtio_disk_rw`. -/
  | call (p : P) (c : Call B)
  /-- Process `p` takes `vdisk_lock`. -/
  | acquire (p : P)
  /-- Process `p` gets on while it holds `vdisk_lock`. -/
  | run (p : P)
  /-- `kill` makes process `p` runnable. -/
  | kill (p : P)
  /-- The interrupt handler starts or gets on. -/
  | intr
  /-- The device reads the next entry of the available ring. -/
  | take
  /-- The device carries out a request it has read. -/
  | serve (sl : Slot)
  /-- The device writes the used ring. -/
  | push (sl : Slot)
  /-- The device advances the index of the used ring. -/
  | publish
  deriving DecidableEq

/-- What the rest of the system sees to: the sleep locks of the buffers, `vdisk_lock`, and that
the device returns only heads it was given. -/
def Enabled (s : State P B) : Event P B → Prop
  | .lockBuf p b => s.point p = .user ∧ s.owner b = none
  | .unlockBuf p b => s.point p = .user ∧ s.owner b = some p
  | .call p c => s.point p = .user ∧ s.owner c.b = some p
  | .acquire p => s.point p ≠ .user ∧ s.mode p = .wants ∧ s.lock = none
  | .run p => s.point p ≠ .user ∧ s.mode p = .holds
  | .kill p => s.mode p ≠ .holds
  | .intr => s.intr = .idle → s.lock = none
  | .take => s.lastAvail ≠ s.avail.idx
  | .serve sl => sl ∈ s.active
  | .push sl => sl ∈ s.finished ∧ s.pushing = none
  | .publish => s.pushing ≠ none

instance decidableEnabled (s : State P B) : (e : Event P B) → Decidable (Enabled s e)
  | .lockBuf _ _ | .unlockBuf _ _ | .call _ _ | .acquire _ | .run _ | .push _ =>
    inferInstanceAs (Decidable (_ ∧ _))
  | .kill _ | .take => inferInstanceAs (Decidable (_ ≠ _))
  | .intr => inferInstanceAs (Decidable (_ → _))
  | .serve sl => inferInstanceAs (Decidable (sl ∈ s.active))
  | .publish => inferInstanceAs (Decidable (_ ≠ _))

/-- One step. -/
def step (s : State P B) : Event P B → Except Fault (State P B)
  | .lockBuf p b => .ok { s with owner := update s.owner b (some p) }
  | .unlockBuf _ b => .ok { s with owner := update s.owner b none }
  | .call p c => .ok (goto p (.alloc c) s)
  | .acquire p => .ok (acquire p s)
  | .run p => runPoint p s (s.point p)
  | .kill p => .ok { s with mode := update s.mode p .wants }
  | .intr => intrRun s
  | .take => .ok { s with
      lastAvail := add16 s.lastAvail 1
      active := s.active ++ [s.avail.ring (s.lastAvail % numDesc)] }
  | .serve sl => .ok { serve sl s with
      active := s.active.erase sl
      finished := s.finished ++ [sl] }
  | .push sl => .ok { s with
      used := s.used.put sl
      finished := s.finished.erase sl
      pushing := some sl }
  | .publish => .ok { s with used := s.used.bump, pushing := none }

/-- The state `virtio_disk_init` leaves, except that the indices stand at `n`: it is `0` there, and
any other value is as good. -/
def start (n : ℕ) : State P B where
  free := fun i => decide (i < numDesc)
  desc := fun _ => .zero
  ops := fun _ => ⟨0, 0, 0⟩
  info := fun _ => ⟨none, 0⟩
  avail := ⟨fun _ => ⟨0, 0⟩, n % 2 ^ 16⟩
  used := ⟨fun _ => ⟨0, 0⟩, n % 2 ^ 16⟩
  usedIdx := n % 2 ^ 16
  disk := fun _ => false
  owner := fun _ => none
  lock := none
  point := fun _ => .user
  mode := fun _ => .wants
  intr := .idle
  lastAvail := n % 2 ^ 16
  active := []
  finished := []
  pushing := none
  born := 0
  request := fun _ => none
  current := fun _ => 0
  clears := fun _ => []
  served := fun _ => []
  returned := fun _ => false

/-- The states reachable from `start n`. -/
inductive Reach (n : ℕ) : State P B → Prop where
  | start : Reach n (start n)
  | step {s t : State P B} {e : Event P B} (h : Reach n s) (he : Enabled s e)
      (hs : step s e = .ok t) : Reach n t

/-- The requests that are published and not yet carried out. -/
def State.todo (s : State P B) : List Slot := s.avail.from s.lastAvail ++ s.active

/-- The requests that are carried out and not yet handled by `virtio_disk_intr`. -/
def State.done (s : State P B) : List Slot :=
  s.finished ++ s.pushing.toList ++ s.used.from s.usedIdx

/-- The requests that are published and not yet handled by `virtio_disk_intr`. -/
def State.out (s : State P B) : List Slot := s.todo ++ s.done

/-- The descriptors of a process in `virtio_disk_rw`. -/
def Point.chain? : Point B → Option Chain
  | .format _ ch => some ch
  | .ring q | .bump q | .wait q => some q.chain
  | _ => none

end Xv6.Virtio
