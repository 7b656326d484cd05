/-
# Page tables as words (`kernel/vm.c`, `kernel/riscv.h`)

`walk`, `mappages` and `uvmunmap` on the page-table pages themselves: pages of 512 words of 64 bits
in physical memory, with the macros of `riscv.h` on the words.  A word of memory is named by the
address of its page and its index in the page.
-/
import Xv6.PagePool
import Xv6.RadixTree

namespace Xv6.Sv39

open RadixTree

/-! ## Words -/

/-- `uint64` and `pte_t`. -/
abbrev Word := BitVec 64

/-- `PTE_V`. -/
def pteV : Word := 1

/-- `PA2PTE(pa)`. -/
def pa2pte (pa : Word) : Word := (pa >>> 12) <<< 10

/-- `PTE2PA(pte)`. -/
def pte2pa (pte : Word) : Word := (pte >>> 10) <<< 12

/-- `PTE_FLAGS(pte)`. -/
def pteFlags (pte : Word) : Word := pte &&& 0x3FF

/-- `PX(level, va)`. -/
def px (level : ℕ) (va : Word) : Word := (va >>> (12 + 9 * level)) &&& 0x1FF

/-- `PGROUNDDOWN(a)`. -/
def pgRoundDown (a : Word) : Word := a &&& ~~~ 0xFFF

/-- `MAXVA`. -/
def maxVa : Word := 1 <<< 38

theorem px_lt (level : ℕ) (va : Word) : (px level va).toNat < 512 := by
  unfold px
  rw [BitVec.toNat_and]
  exact lt_of_le_of_lt Nat.and_le_right (by decide)

/-- `PX(level, va)` as an index of a table. -/
def idx (level : ℕ) (va : Word) : Fin 512 := ⟨(px level va).toNat, px_lt level va⟩

/-! ## Walking -/

/-- The memory of the page tables and the allocator. -/
structure State where
  mem : ℕ → Fin 512 → Word
  pool : PagePool

/-- The table that a valid entry points to. -/
def nextTable (pte : Word) : Option ℕ :=
  if pte &&& pteV = 0 then none else some (pte2pa pte).toNat

/-- The loop of `walk` from a level on: the table and the index of the entry of level 0, or the
null pointer. -/
def walkFrom : ℕ → State → ℕ → Word → Bool → Option (ℕ × Fin 512) × State
  | 0, s, table, va, _ => (some (table, idx 0 va), s)
  | level + 1, s, table, va, alloc =>
    let pte := s.mem table (idx (level + 1) va)
    if pte &&& pteV ≠ 0 then walkFrom level s (pte2pa pte).toNat va alloc
    else if alloc = false then (none, s)
    else match kalloc s.pool with
      | (none, pool) => (none, { s with pool := pool })
      | (some page, pool) =>
        let mem := fill s.mem page 0
        let mem := write mem table (idx (level + 1) va) (pa2pte (BitVec.ofNat 64 page) ||| pteV)
        walkFrom level ⟨mem, pool⟩ page va alloc

/-- `walk(pagetable, va, alloc)`. -/
def walk (s : State) (root : ℕ) (va : Word) (alloc : Bool) :
    Except Fault (Option (ℕ × Fin 512) × State) :=
  if va ≥ maxVa then .error (.panic "walk") else .ok (walkFrom 2 s root va alloc)

/-- What `walk(pagetable, va, 0)` leads to: the entry of the page, if it is valid. -/
def lookup (s : State) (root : ℕ) (va : Word) : Option Word :=
  (walk s root va false).toOption.bind fun r => r.1.bind fun e =>
    let pte := s.mem e.1 e.2
    if pte &&& pteV = 0 then none else some pte

/-! ## Mapping and unmapping -/

/-- More turns than a loop over pages can take, since `walk` panics from `MAXVA` on. -/
def turns : ℕ := 2 ^ 26 + 1

/-- The loop of `mappages`: `false` for the result `-1`. -/
def mapFrom (root : ℕ) (last perm : Word) : ℕ → State → Word → Word → Except Fault (Bool × State)
  | 0, _, _, _ => .error .noReturn
  | fuel + 1, s, a, pa => do
    let (pte, s) ← walk s root a true
    match pte with
    | none => return (false, s)
    | some (t, i) =>
      if s.mem t i &&& pteV ≠ 0 then .error (.panic "mappages: remap")
      else
        let s := { s with mem := write s.mem t i (pa2pte pa ||| perm ||| pteV) }
        if a = last then return (true, s)
        else mapFrom root last perm fuel s (a + 4096) (pa + 4096)

/-- `mappages(pagetable, va, size, pa, perm)`. -/
def mappages (s : State) (root : ℕ) (va size pa perm : Word) : Except Fault (Bool × State) :=
  if size = 0 then .error (.panic "mappages: size")
  else mapFrom root (pgRoundDown (va + size - 1)) perm turns s (pgRoundDown va) pa

/-- The loop of `uvmunmap`. -/
def unmapFrom (root : ℕ) (stop : Word) (doFree : Bool) : ℕ → State → Word → Except Fault State
  | 0, _, _ => .error .noReturn
  | fuel + 1, s, a =>
    if a < stop then do
      let (pte, s) ← walk s root a false
      match pte with
      | none => .error (.panic "uvmunmap: walk")
      | some (t, i) =>
        let pte := s.mem t i
        if pte &&& pteV = 0 then .error (.panic "uvmunmap: not mapped")
        else if pteFlags pte = pteV then .error (.panic "uvmunmap: not a leaf")
        else
          let pool ← if doFree then kfree s.pool (pte2pa pte).toNat else .ok s.pool
          unmapFrom root stop doFree fuel ⟨write s.mem t i 0, pool⟩ (a + 4096)
    else .ok s

/-- `uvmunmap(pagetable, va, npages, do_free)`. -/
def uvmunmap (s : State) (root : ℕ) (va npages : Word) (doFree : Bool) : Except Fault State :=
  if va % 4096 ≠ 0 then .error (.panic "uvmunmap: not aligned")
  else unmapFrom root (va + npages * 4096) doFree turns s va

end Xv6.Sv39
