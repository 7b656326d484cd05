/-
# The buffer cache (`kernel/bio.c`)

The list of buffers with its two links, and the functions that change it.  What a function does
under `bcache.lock` is one step; the sleep locks of the buffers and their data are left out.  A node
of the list is a buffer or `bcache.head`.

A run of calls carries along what each buffer is used for: the references of `bget` that have not
been released, the pins, and the call at which its reference count last dropped to `0`.
-/
import Xv6.LinkedRing
import Xv6.LogModel

namespace Xv6.Bcache

open Function LinkedRing

/-! ## The functions -/

/-- `NBUF`. -/
def nbuf : ℕ := maxOpBlocks * 3

/-- A node of the list: a buffer, or `none` for `bcache.head`. -/
abbrev Node := Option (Fin nbuf)

/-- `bcache`. -/
structure Cache where
  links : Links Node
  dev : Fin nbuf → UInt32
  blockno : Fin nbuf → UInt32
  valid : Fin nbuf → Bool
  refcnt : Fin nbuf → UInt32

/-- `binit()`. -/
def binit : Cache where
  links := (List.finRange nbuf).foldl (fun k b => k.push none (some b))
    ⟨fun _ => none, fun _ => none⟩
  dev := fun _ => 0
  blockno := fun _ => 0
  valid := fun _ => false
  refcnt := fun _ => 0

/-- The two loops of `bget`: the first buffer from a node on for which `p` holds. -/
def scan (link : Node → Node) (p : Fin nbuf → Bool) : ℕ → Node → Except Fault (Option (Fin nbuf))
  | 0, _ => .error .noReturn
  | _ + 1, none => .ok none
  | fuel + 1, some b => if p b then .ok (some b) else scan link p fuel (link (some b))

/-- `bget(dev, blockno)`. -/
def bget (c : Cache) (dev blockno : UInt32) : Except Fault (Fin nbuf × Cache) := do
  match ← scan c.links.next (fun b => c.dev b = dev ∧ c.blockno b = blockno) (nbuf + 1)
      (c.links.next none) with
  | some b => return (b, { c with refcnt := update c.refcnt b (c.refcnt b + 1) })
  | none =>
    match ← scan c.links.prev (fun b => c.refcnt b = 0) (nbuf + 1) (c.links.prev none) with
    | some b =>
      return (b, { c with
        dev := update c.dev b dev
        blockno := update c.blockno b blockno
        valid := update c.valid b false
        refcnt := update c.refcnt b 1 })
    | none => .error (.panic "bget: no buffers")

/-- `bpin(b)`. -/
def bpin (c : Cache) (b : Fin nbuf) : Cache :=
  { c with refcnt := update c.refcnt b (c.refcnt b + 1) }

/-- `bunpin(b)`. -/
def bunpin (c : Cache) (b : Fin nbuf) : Cache :=
  { c with refcnt := update c.refcnt b (c.refcnt b - 1) }

/-- `brelse(b)` by the holder of its lock. -/
def brelse (c : Cache) (b : Fin nbuf) : Cache :=
  let c := { c with refcnt := update c.refcnt b (c.refcnt b - 1) }
  if c.refcnt b = 0 then { c with links := (c.links.unlink (some b)).push none (some b) } else c

/-! ## Runs -/

/-- A call. -/
inductive Call where
  | bget (dev blockno : UInt32)
  | brelse (b : Fin nbuf)
  | bpin (b : Fin nbuf)
  | bunpin (b : Fin nbuf)

/-- The cache in a run. -/
structure Run where
  cache : Cache
  /-- The references of `bget` that have not been released. -/
  held : Fin nbuf → ℕ
  pins : Fin nbuf → ℕ
  /-- The number of the call at which the reference count last dropped to `0`, or `0`. -/
  since : Fin nbuf → ℕ
  /-- How many calls there have been. -/
  now : ℕ

/-- The run after one more call. -/
def Run.tick (s : Run) (c : Cache) (held pins : Fin nbuf → ℕ) : Run where
  cache := c
  held := held
  pins := pins
  since := fun b => if s.cache.refcnt b ≠ 0 ∧ c.refcnt b = 0 then s.now + 1 else s.since b
  now := s.now + 1

/-- One call. -/
def step (s : Run) : Call → Except Fault Run
  | .bget dev blockno => do
    let (b, c) ← bget s.cache dev blockno
    return s.tick c (update s.held b (s.held b + 1)) s.pins
  | .brelse b =>
    .ok (s.tick (brelse s.cache b) (update s.held b (s.held b - 1)) s.pins)
  | .bpin b => .ok (s.tick (bpin s.cache b) s.held (update s.pins b (s.pins b + 1)))
  | .bunpin b => .ok (s.tick (bunpin s.cache b) s.held (update s.pins b (s.pins b - 1)))

/-- Every release matches a `bget`, and every `bunpin` a `bpin`, while the buffer is held. -/
def Matched (s : Run) : Call → Prop
  | .bget _ _ | .bpin _ => True
  | .brelse b => 0 < s.held b
  | .bunpin b => 0 < s.pins b ∧ 0 < s.held b

/-- A call that takes a reference finds every buffer with less than `2 ^ 32 - 1` of them. -/
def Room (s : Run) : Call → Prop
  | .bget _ _ | .bpin _ => ∀ b, s.held b + s.pins b + 1 < 2 ^ 32
  | .brelse _ | .bunpin _ => True

/-- The state after `binit`. -/
def start : Run := ⟨binit, fun _ => 0, fun _ => 0, fun _ => 0, 0⟩

/-- The states that calls lead to, if each meets the condition `P`. -/
inductive Reach (P : Run → Call → Prop) : Run → Prop
  | start : Reach P start
  | step {s s' : Run} {c : Call} : Reach P s → P s c → step s c = .ok s' → Reach P s'

end Xv6.Bcache
