/-
# The allocator of user programs (`user/umalloc.c`)

`free`, `morecore` and `malloc`, with `sbrk` as `sys_sbrk` and `growproc` have it.  The fields of
the headers are two maps on addresses.  An access beyond the last page of the program is a page
fault, which kills the process.  Whether the kernel finds the pages for a growing process is an
input of the model.
-/
import Xv6.ExecModel

namespace Xv6.Umalloc

open Function

/-- How a call can end without a result. -/
inductive Stop where
  | pageFault
  | noReturn
  deriving DecidableEq

/-- The memory of a program, as far as the allocator uses it; `sizeof(Header)` is 16. -/
structure Heap where
  /-- `&base`. -/
  base : ℕ
  /-- `p->s.ptr`. -/
  ptr : ℕ → ℕ
  /-- `p->s.size`. -/
  size : ℕ → ℕ
  freep : ℕ
  /-- The size of the process. -/
  brk : ℕ
  /-- Whether the kernel has the pages, for the calls of `sbrk` to come. -/
  grants : List Bool

namespace Heap

/-- A program may use the pages up to its break. -/
def access (h : Heap) (a : ℕ) : Except Stop Unit :=
  if a + 16 ≤ pgRoundUp h.brk then .ok () else .error .pageFault

/-- `sbrk(n)`, with `none` for `-1`. -/
def sbrk (h : Heap) (n : ℤ) : Option ℕ × Heap :=
  if n > 0 then
    if h.grants.head? = some true ∧ h.brk + n.toNat ≤ physTop then
      (some h.brk, { h with brk := h.brk + n.toNat, grants := h.grants.tail })
    else (none, { h with grants := h.grants.tail })
  else if n < 0 then (some h.brk, { h with brk := min h.brk (uint64 (h.brk + n)) })
  else (some h.brk, h)

/-- The loop of `free`: the node behind which `bp` belongs. -/
def place (h : Heap) (bp : ℕ) : ℕ → ℕ → Except Stop ℕ
  | 0, _ => .error .noReturn
  | fuel + 1, p => do
    h.access p
    if bp > p ∧ bp < h.ptr p then return p
    else if p ≥ h.ptr p ∧ (bp > p ∨ bp < h.ptr p) then return p
    else h.place bp fuel (h.ptr p)

/-- More turns than a loop over the free list takes. -/
def turns : ℕ := 2 ^ 40

/-- The node `bp` takes in the block behind it, or goes before it. -/
def joinUpper (h : Heap) (bp next : ℕ) : Except Stop Heap := do
  if bp + 16 * h.size bp = next then
    h.access next
    return { h with
      size := update h.size bp ((h.size bp + h.size next) % 2 ^ 32)
      ptr := update h.ptr bp (h.ptr next) }
  else return { h with ptr := update h.ptr bp next }

/-- The node `p` takes in the block behind it, or goes before it. -/
def joinLower (h : Heap) (p bp : ℕ) : Heap :=
  if p + 16 * h.size p = bp then
    { h with
      size := update h.size p ((h.size p + h.size bp) % 2 ^ 32)
      ptr := update h.ptr p (h.ptr bp) }
  else { h with ptr := update h.ptr p bp }

/-- `free(ap)`. -/
def free (h : Heap) (ap : ℕ) : Except Stop Heap := do
  let bp := ap - 16
  let p ← h.place bp turns h.freep
  h.access bp
  let h ← h.joinUpper bp (h.ptr p)
  return { h.joinLower p bp with freep := p }

/-- `morecore` asks for 4096 units at least. -/
def moreUnits (nu : ℕ) : ℕ := if nu < 4096 then 4096 else nu

/-- `morecore` behind its call of `sbrk`, with 0 for the null pointer. -/
def addCore (h : Heap) (nu : ℕ) : Option ℕ → Except Stop (ℕ × Heap)
  | none => .ok (0, h)
  | some p => do
    h.access p
    let h ← { h with size := update h.size p nu }.free (p + 16)
    return (h.freep, h)

/-- `morecore(nu)`.  The product `nu * sizeof(Header)` has 64 bits, the parameter of `sbrk` is an
`int`. -/
def morecore (h : Heap) (nu : ℕ) : Except Stop (ℕ × Heap) :=
  let r := h.sbrk (int32 (moreUnits nu * 16))
  r.2.addCore (moreUnits nu) r.1

/-- The block `p` behind `prevp` is handed out, or its upper part. -/
def take (h : Heap) (nunits prevp p : ℕ) : Except Stop (ℕ × Heap) := do
  if h.size p = nunits then
    return (p + 16, { h with ptr := update h.ptr prevp (h.ptr p), freep := prevp })
  else
    let size := h.size p - nunits
    let q := p + 16 * size
    h.access q
    return (q + 16, { h with
      size := update (update h.size p size) q nunits, freep := prevp })

/-- The loop of `malloc`. -/
def findFit (nunits : ℕ) : ℕ → Heap → ℕ → ℕ → Except Stop (ℕ × Heap)
  | 0, _, _, _ => .error .noReturn
  | fuel + 1, h, prevp, p => do
    h.access p
    if h.size p ≥ nunits then h.take nunits prevp p
    else if p = h.freep then
      let (p, h) ← h.morecore nunits
      if p = 0 then return (0, h)
      else
        h.access p
        findFit nunits fuel h p (h.ptr p)
    else findFit nunits fuel h p (h.ptr p)

/-- The first call makes the ring of `base`. -/
def init (h : Heap) : Heap :=
  if h.freep = 0 then
    { h with
      freep := h.base
      ptr := update h.ptr h.base h.base
      size := update h.size h.base 0 }
  else h

/-- `malloc(nbytes)`, with 0 for the null pointer. -/
def malloc (h : Heap) (nbytes : UInt32) : Except Stop (ℕ × Heap) :=
  let nunits := (nbytes.toNat + 16 - 1) / 16 + 1
  findFit nunits turns h.init h.init.freep (h.init.ptr h.init.freep)

end Heap

/-! ## Programs -/

/-- A program with the blocks it has got and not given back: their addresses and sizes. -/
structure Program where
  heap : Heap
  out : List (ℕ × ℕ)

/-- What a program does with its memory. -/
inductive Event where
  | malloc (nbytes : UInt32) (grants : List Bool)
  | free (ap : ℕ)
  /-- A write to one of its blocks, as the header fields it would be. -/
  | write (a ptr size : ℕ)

/-- A program gives back and writes to the blocks it has. -/
def Enabled (st : Program) : Event → Prop
  | .malloc _ _ => True
  | .free ap => ∃ x ∈ st.out, x.1 = ap
  | .write a _ _ => ∃ x ∈ st.out, x.1 < a + 16 ∧ a < x.1 + x.2

instance (st : Program) : (e : Event) → Decidable (Enabled st e)
  | .malloc _ _ => inferInstanceAs (Decidable True)
  | .free ap => inferInstanceAs (Decidable (∃ x ∈ st.out, x.1 = ap))
  | .write a _ _ => inferInstanceAs (Decidable (∃ x ∈ st.out, x.1 < a + 16 ∧ a < x.1 + x.2))

def step (st : Program) : Event → Except Stop Program
  | .malloc nbytes grants => do
    let (ap, h) ← { st.heap with grants := grants }.malloc nbytes
    return ⟨h, if ap = 0 then st.out else (ap, nbytes.toNat) :: st.out⟩
  | .free ap => do
    let h ← st.heap.free ap
    return ⟨h, st.out.filter fun x => x.1 ≠ ap⟩
  | .write a ptr size =>
    .ok { st with heap := { st.heap with
      ptr := update st.heap.ptr a ptr, size := update st.heap.size a size } }

/-- A program that has not called the allocator: `base` is in its data, below the break. -/
structure Started (start : ℕ) (st : Program) : Prop where
  out : st.out = []
  freep : st.heap.freep = 0
  base_pos : 0 < st.heap.base
  base_lt : st.heap.base + 16 ≤ start
  brk : st.heap.brk = start
  start_le : start ≤ physTop

/-- The runs of a program from its start, with their events, the last one first. -/
inductive Run (start : ℕ) : List Event → Program → Prop
  | start {st : Program} (h : Started start st) : Run start [] st
  | step {es : List Event} {st st' : Program} (e : Event) (h : Run start es st)
      (he : Enabled st e) (hs : step st e = .ok st') : Run start (e :: es) st'

/-- Every block lies between the first and the current break, and apart from the others. -/
structure Real (start : ℕ) (st : Program) : Prop where
  inside : ∀ x ∈ st.out, start ≤ x.1 ∧ x.1 + x.2 ≤ st.heap.brk
  apart : st.out.Pairwise fun x y => x.1 + x.2 ≤ y.1 ∨ y.1 + y.2 ≤ x.1

end Xv6.Umalloc
