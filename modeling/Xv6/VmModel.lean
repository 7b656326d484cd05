/-
# User page tables (`kernel/vm.c`, `kernel/proc.c`)

A page table as a tree of three levels of 512 entries, each table with the page it
is stored in.  Only the last level holds leaves: `mappages` writes nowhere else.  A
leaf has at least one of the permissions `R`, `W` and `X`, which is how the code
tells leaves from pointers to tables, so the panic "uvmunmap: not a leaf" is not
part of the model.  The bytes of the pages are left out.

Every function passes the pool of pages through; a failed `walk` leaves the tables
it has already linked in place, as the code does.
-/
import Xv6.PagePool

namespace Xv6

open Function

/-! ## Data -/

/-- `MAXVA`. -/
def maxVa : ℕ := 2 ^ (9 + 9 + 9 + 12 - 1)

/-- `TRAMPOLINE`. -/
def trampolineVa : ℕ := maxVa - pgSize

/-- `TRAPFRAME`. -/
def trapframeVa : ℕ := trampolineVa - pgSize

/-- `PX(level, va)`. -/
def px (level va : ℕ) : ℕ := va / 2 ^ (12 + 9 * level) % 512

/-- The permissions of a leaf, `PTE_R`, `PTE_W`, `PTE_X` and `PTE_U`. -/
structure Perm where
  r : Bool
  w : Bool
  x : Bool
  u : Bool
  leaf : (r || w || x) = true
  deriving DecidableEq

/-- A valid leaf entry. -/
structure Pte where
  pa : ℕ
  perm : Perm
  deriving DecidableEq

/-- A table of level 0. -/
structure LeafTable where
  page : ℕ
  pte : ℕ → Option Pte

/-- A table of level 1. -/
structure MidTable where
  page : ℕ
  entry : ℕ → Option LeafTable

/-- A table of level 2, the root of a page table. -/
structure PageTable where
  page : ℕ
  entry : ℕ → Option MidTable

/-- A zeroed page as a table of each level. -/
def LeafTable.zero (page : ℕ) : LeafTable := ⟨page, fun _ => none⟩

@[inherit_doc LeafTable.zero]
def MidTable.zero (page : ℕ) : MidTable := ⟨page, fun _ => none⟩

@[inherit_doc LeafTable.zero]
def PageTable.zero (page : ℕ) : PageTable := ⟨page, fun _ => none⟩

namespace PageTable

/-- The table of level 0 that holds the entry of `va`. -/
def leafTable (pt : PageTable) (va : ℕ) : Option LeafTable :=
  (pt.entry (px 2 va)).bind fun mid => mid.entry (px 1 va)

/-- The entry of `va`, if it is valid. -/
def lookup (pt : PageTable) (va : ℕ) : Option Pte :=
  (pt.leafTable va).bind fun leaf => leaf.pte (px 0 va)

/-- Link a table of level 1 or 0, or write a leaf. -/
def setMid (pt : PageTable) (va : ℕ) (mid : MidTable) : PageTable :=
  { pt with entry := update pt.entry (px 2 va) (some mid) }

@[inherit_doc setMid]
def setLeaf (pt : PageTable) (va : ℕ) (leaf : LeafTable) : PageTable :=
  match pt.entry (px 2 va) with
  | some mid =>
    pt.setMid va { mid with entry := update mid.entry (px 1 va) (some leaf) }
  | none => pt

@[inherit_doc setMid]
def setPte (pt : PageTable) (va : ℕ) (pte : Option Pte) : PageTable :=
  match pt.leafTable va with
  | some leaf => pt.setLeaf va { leaf with pte := update leaf.pte (px 0 va) pte }
  | none => pt

end PageTable

/-! ## Walking, mapping and unmapping -/

/-- `walk(pagetable, va, 0)`: `none` for the null pointer, else the entry. -/
def walk (pt : PageTable) (va : ℕ) : Except Fault (Option (Option Pte)) :=
  if va ≥ maxVa then .error (.panic "walk")
  else .ok ((pt.leafTable va).map fun leaf => leaf.pte (px 0 va))

/-- The turn of the loop of `walk(pagetable, va, 1)` at level 2. -/
def walkMid (pt : PageTable) (va : ℕ) (m : PagePool) : Bool × PageTable × PagePool :=
  match pt.entry (px 2 va) with
  | some _ => (true, pt, m)
  | none =>
    match kalloc m with
    | (none, m) => (false, pt, m)
    | (some page, m) => (true, pt.setMid va (MidTable.zero page), m)

/-- The turn of the loop of `walk(pagetable, va, 1)` at level 1. -/
def walkLeaf (pt : PageTable) (va : ℕ) (m : PagePool) : Bool × PageTable × PagePool :=
  match pt.leafTable va with
  | some _ => (true, pt, m)
  | none =>
    match kalloc m with
    | (none, m) => (false, pt, m)
    | (some page, m) => (true, pt.setLeaf va (LeafTable.zero page), m)

/-- `walk(pagetable, va, 1)`: whether there is a table for the entry of `va` now. -/
def walkAlloc (pt : PageTable) (va : ℕ) (m : PagePool) :
    Except Fault (Bool × PageTable × PagePool) :=
  if va ≥ maxVa then .error (.panic "walk")
  else match walkMid pt va m with
    | (false, pt, m) => .ok (false, pt, m)
    | (true, pt, m) => .ok (walkLeaf pt va m)

/-- One turn of the loop of `mappages`. -/
def mapPage (pt : PageTable) (m : PagePool) (a pa : ℕ) (perm : Perm) :
    Except Fault (Bool × PageTable × PagePool) := do
  let (ok, pt, m) ← walkAlloc pt a m
  if ok = false then .ok (false, pt, m)
  else if (pt.lookup a).isSome then .error (.panic "mappages: remap")
  else .ok (true, pt.setPte a (some ⟨pa, perm⟩), m)

/-- The loop of `mappages` over `n` pages. -/
def mapPages : ℕ → PageTable → PagePool → ℕ → ℕ → Perm →
    Except Fault (Bool × PageTable × PagePool)
  | 0, pt, m, _, _, _ => .ok (true, pt, m)
  | n + 1, pt, m, a, pa, perm => do
    let (ok, pt, m) ← mapPage pt m a pa perm
    if ok = false then .ok (false, pt, m)
    else mapPages n pt m (a + pgSize) (pa + pgSize) perm

/-- `mappages(pagetable, va, size, pa, perm)`: `false` for the result `-1`. -/
def mappages (pt : PageTable) (m : PagePool) (va size pa : ℕ) (perm : Perm) :
    Except Fault (Bool × PageTable × PagePool) :=
  if size = 0 then .error (.panic "mappages: size")
  else
    let first := va / pgSize
    let last := (va + size - 1) / pgSize
    mapPages (last - first + 1) pt m (first * pgSize) pa perm

/-- One turn of the loop of `uvmunmap`. -/
def unmapPage (pt : PageTable) (m : PagePool) (a : ℕ) (doFree : Bool) :
    Except Fault (PageTable × PagePool) := do
  match ← walk pt a with
  | none => .error (.panic "uvmunmap: walk")
  | some none => .error (.panic "uvmunmap: not mapped")
  | some (some pte) =>
    let m ← if doFree then kfree m pte.pa else .ok m
    return (pt.setPte a none, m)

/-- The loop of `uvmunmap` over `npages` pages from `a` on. -/
def unmapPages : ℕ → PageTable → PagePool → ℕ → Bool → Except Fault (PageTable × PagePool)
  | 0, pt, m, _, _ => .ok (pt, m)
  | npages + 1, pt, m, a, doFree => do
    let (pt, m) ← unmapPage pt m a doFree
    unmapPages npages pt m (a + pgSize) doFree

/-- `uvmunmap(pagetable, va, npages, do_free)`. -/
def uvmunmap (pt : PageTable) (m : PagePool) (va npages : ℕ) (doFree : Bool) :
    Except Fault (PageTable × PagePool) :=
  if va % pgSize ≠ 0 then .error (.panic "uvmunmap: not aligned")
  else unmapPages npages pt m va doFree

/-! ## Creating, freeing and copying -/

/-- `uvmcreate()`. -/
def uvmcreate (m : PagePool) : Option PageTable × PagePool :=
  match kalloc m with
  | (none, m) => (none, m)
  | (some page, m) => (some (PageTable.zero page), m)

/-- `freewalk` on a table of level 0. -/
def freewalkLeaf (m : PagePool) (leaf : LeafTable) : Except Fault PagePool :=
  if (List.range 512).any (fun i => (leaf.pte i).isSome) then .error (.panic "freewalk: leaf")
  else kfree m leaf.page

/-- `freewalk` on a table of level 1. -/
def freewalkMid (m : PagePool) (mid : MidTable) : Except Fault PagePool := do
  let m ← (List.range 512).foldlM
    (fun m i => match mid.entry i with
      | some leaf => freewalkLeaf m leaf
      | none => .ok m) m
  kfree m mid.page

/-- `freewalk(pagetable)`. -/
def freewalk (m : PagePool) (pt : PageTable) : Except Fault PagePool := do
  let m ← (List.range 512).foldlM
    (fun m i => match pt.entry i with
      | some mid => freewalkMid m mid
      | none => .ok m) m
  kfree m pt.page

/-- `uvmfree(pagetable, sz)`. -/
def uvmfree (pt : PageTable) (m : PagePool) (sz : ℕ) : Except Fault PagePool := do
  let (pt, m) ← if sz > 0 then uvmunmap pt m 0 (pgRoundUp sz / pgSize) true else .ok (pt, m)
  freewalk m pt

/-- The loop of `uvmcopy` over `n` pages from page `i` on, with its `err` label. -/
def uvmcopyFrom (old : PageTable) : ℕ → ℕ → PageTable → PagePool →
    Except Fault (Bool × PageTable × PagePool)
  | 0, _, new, m => .ok (true, new, m)
  | n + 1, i, new, m => do
    match ← walk old (i * pgSize) with
    | none => .error (.panic "uvmcopy: pte should exist")
    | some none => .error (.panic "uvmcopy: page not present")
    | some (some pte) =>
      match kalloc m with
      | (none, m) =>
        let (new, m) ← uvmunmap new m 0 i true
        return (false, new, m)
      | (some mem, m) =>
        let (ok, new, m) ← mappages new m (i * pgSize) pgSize mem pte.perm
        if ok then uvmcopyFrom old n (i + 1) new m
        else
          let m ← kfree m mem
          let (new, m) ← uvmunmap new m 0 i true
          return (false, new, m)

/-- `uvmcopy(old, new, sz)`: `false` for the result `-1`. -/
def uvmcopy (old new : PageTable) (m : PagePool) (sz : ℕ) :
    Except Fault (Bool × PageTable × PagePool) :=
  uvmcopyFrom old (pgRoundUp sz / pgSize) 0 new m

/-- `PTE_R | PTE_X`, for the trampoline. -/
def permRX : Perm := ⟨true, false, true, false, rfl⟩

/-- `PTE_R | PTE_W`, for the trapframe. -/
def permRW : Perm := ⟨true, true, false, false, rfl⟩

/-- `PTE_W | PTE_R | PTE_X | PTE_U`, for the first user page. -/
def permRWXU : Perm := ⟨true, true, true, true, rfl⟩

/-- `proc_pagetable(p)`, where `trampoline` is the address of the trampoline code. -/
def procPagetable (trampoline trapframe : ℕ) (m : PagePool) :
    Except Fault (Option PageTable × PagePool) := do
  match uvmcreate m with
  | (none, m) => return (none, m)
  | (some pt, m) =>
    let (ok, pt, m) ← mappages pt m trampolineVa pgSize trampoline permRX
    if ok = false then
      let m ← uvmfree pt m 0
      return (none, m)
    else
      let (ok, pt, m) ← mappages pt m trapframeVa pgSize trapframe permRW
      if ok = false then
        let (pt, m) ← uvmunmap pt m trampolineVa 1 false
        let m ← uvmfree pt m 0
        return (none, m)
      else return (some pt, m)

/-- `proc_freepagetable(pagetable, sz)`. -/
def procFreepagetable (pt : PageTable) (m : PagePool) (sz : ℕ) : Except Fault PagePool := do
  let (pt, m) ← uvmunmap pt m trampolineVa 1 false
  let (pt, m) ← uvmunmap pt m trapframeVa 1 false
  uvmfree pt m sz

/-- `uvmfirst(pagetable, src, sz)`: `memset` faults on a null page, and the result of
`mappages` is not looked at. -/
def uvmfirst (pt : PageTable) (m : PagePool) : Except Fault (PageTable × PagePool) := do
  let (mem, m) := kalloc m
  let mem ← deref mem
  let (_, pt, m) ← mappages pt m 0 pgSize mem permRWXU
  return (pt, m)

/-! ## Growing, shrinking and looking up -/

/-- `uvmdealloc(pagetable, oldsz, newsz)`, with the new size. -/
def uvmdealloc (pt : PageTable) (m : PagePool) (oldsz newsz : ℕ) :
    Except Fault (ℕ × PageTable × PagePool) :=
  if newsz ≥ oldsz then .ok (oldsz, pt, m)
  else if pgRoundUp newsz < pgRoundUp oldsz then do
    let npages := (pgRoundUp oldsz - pgRoundUp newsz) / pgSize
    let (pt, m) ← uvmunmap pt m (pgRoundUp newsz) npages true
    return (newsz, pt, m)
  else .ok (newsz, pt, m)

/-- The loop of `uvmalloc` over `n` pages from `a` on; `oldsz` is rounded up. -/
def uvmallocFrom (oldsz : ℕ) (perm : Perm) : ℕ → ℕ → PageTable → PagePool →
    Except Fault (Bool × PageTable × PagePool)
  | 0, _, pt, m => .ok (true, pt, m)
  | n + 1, a, pt, m =>
    match kalloc m with
    | (none, m) => do
      let (_, pt, m) ← uvmdealloc pt m a oldsz
      return (false, pt, m)
    | (some mem, m) => do
      let (ok, pt, m) ← mappages pt m a pgSize mem perm
      if ok then uvmallocFrom oldsz perm n (a + pgSize) pt m
      else
        let m ← kfree m mem
        let (_, pt, m) ← uvmdealloc pt m a oldsz
        return (false, pt, m)

/-- `PTE_R | PTE_U` and what `xperm` has of `PTE_W` and `PTE_X`. -/
def permUser (w x : Bool) : Perm := ⟨true, w, x, true, by simp⟩

/-- `uvmalloc(pagetable, oldsz, newsz, xperm)`: the new size, or `0`. -/
def uvmalloc (pt : PageTable) (m : PagePool) (oldsz newsz : ℕ) (w x : Bool) :
    Except Fault (ℕ × PageTable × PagePool) :=
  if newsz < oldsz then .ok (oldsz, pt, m)
  else do
    let base := pgRoundUp oldsz
    let (ok, pt, m) ←
      uvmallocFrom base (permUser w x) ((newsz - base + pgSize - 1) / pgSize) base pt m
    return (if ok then newsz else 0, pt, m)

/-- `uvmclear(pagetable, va)`. -/
def uvmclear (pt : PageTable) (va : ℕ) : Except Fault PageTable := do
  match ← walk pt va with
  | none => .error (.panic "uvmclear")
  | some pte =>
    -- without `PTE_R`, `PTE_W` and `PTE_X` the entry would not be a leaf
    return pt.setPte va (pte.map fun pte =>
      { pte with perm := ⟨pte.perm.r, pte.perm.w, pte.perm.x, false, pte.perm.leaf⟩ })

/-- `walkaddr(pagetable, va)`. -/
def walkaddr (pt : PageTable) (va : ℕ) : ℕ :=
  if va ≥ maxVa then 0
  else match pt.lookup va with
    | some pte => if pte.perm.u then pte.pa else 0
    | none => 0

/-- The loop of `copyout`; every turn copies at least one byte, so `len` turns are enough. -/
def copyoutFrom : ℕ → PageTable → ℕ → ℕ → Bool
  | 0, _, _, _ => true
  | fuel + 1, pt, dstva, len =>
    if len = 0 then true
    else
      let va0 := dstva / pgSize * pgSize
      if walkaddr pt va0 = 0 then false
      else copyoutFrom fuel pt (va0 + pgSize) (len - min (pgSize - (dstva - va0)) len)

/-- `copyout(pagetable, dstva, src, len)` from a valid `src`: `false` for the result `-1`. -/
def copyout (pt : PageTable) (dstva len : ℕ) : Bool := copyoutFrom len pt dstva len

end Xv6
