/-
# Moving bytes between the kernel and a process (`kernel/vm.c`)

`copyout`, `copyin` and `copyinstr` on numbers of 64 bits and on the bytes of the physical memory.
A buffer of the kernel is named by its address.  `copyout` also says through which virtual pages it
has written, and `copyinstr` which bytes it has read.

On plain numbers `copyout` is `copyoutBytes` of `UserCopy` (`copyout_eq`): the running address does
not wrap, because `walkaddr` refuses every address from `MAXVA` on.
-/
import Xv6.PteUpdates
import Xv6.UserCopy

namespace Xv6.UserMem

open Sv39 (Word pgRoundDown toNat_pgRoundDown toNat_add_page)

/-! ## The functions -/

/-- `n` in the three loops: what is left of the page of `va`, or of the request. -/
def chunk (va len : Word) : Word :=
  let n := 4096 - (va - pgRoundDown va)
  if n > len then len else n

/-- The end of `copyout`: the result, `false` for `-1`, the memory, and the values of `va0` for
which `memmove` has been called. -/
structure Copied where
  ok : Bool
  ram : Ram
  pages : List Word

/-- The loop of `copyout(pagetable, dstva, src, len)`; `off` is how far `src` has moved. -/
def copyoutFrom (pt : PageTable) (src : ℕ → UInt8) :
    ℕ → Ram → List Word → Word → Word → Word → Except Fault Copied
  | 0, _, _, _, _, _ => .error .noReturn
  | fuel + 1, ram, pages, dstva, off, len =>
    if len > 0 then
      let va0 := pgRoundDown dstva
      let pa0 := walkaddr pt va0.toNat
      if pa0 = 0 then .ok ⟨false, ram, pages⟩
      else
        let n := chunk dstva len
        let ram := memmove ram (pa0 + (dstva - va0).toNat) (fun i => src (off.toNat + i)) n.toNat
        copyoutFrom pt src fuel ram (pages ++ [va0]) (va0 + 4096) (off + n) (len - n)
    else .ok ⟨true, ram, pages⟩

/-- More turns than the loops can take: one for every page below `MAXVA`, and one that stops. -/
def turns : ℕ := maxVa / pgSize + 1

/-- `copyout(pagetable, dstva, src, len)`, where `src i` is byte `i` of the source. -/
def copyout (pt : PageTable) (ram : Ram) (dstva : Word) (src : ℕ → UInt8) (len : Word) :
    Except Fault Copied :=
  copyoutFrom pt src turns ram [] dstva 0 len

/-- The loop of `copyin(pagetable, dst, srcva, len)`. -/
def copyinFrom (pt : PageTable) : ℕ → Ram → ℕ → Word → Word → Except Fault (Bool × Ram)
  | 0, _, _, _, _ => .error .noReturn
  | fuel + 1, ram, dst, srcva, len =>
    if len > 0 then
      let va0 := pgRoundDown srcva
      let pa0 := walkaddr pt va0.toNat
      if pa0 = 0 then .ok (false, ram)
      else
        let n := chunk srcva len
        let ram := memmove ram dst (fun i => ram (pa0 + (srcva - va0).toNat + i)) n.toNat
        copyinFrom pt fuel ram (dst + n.toNat) (va0 + 4096) (len - n)
    else .ok (true, ram)

/-- `copyin(pagetable, dst, srcva, len)`: `false` for the result `-1`. -/
def copyin (pt : PageTable) (ram : Ram) (dst : ℕ) (srcva len : Word) : Except Fault (Bool × Ram) :=
  copyinFrom pt turns ram dst srcva len

/-- The variables of `copyinstr`, and the addresses of the bytes that it has read. -/
structure Str where
  gotNull : Bool
  ram : Ram
  dst : ℕ
  max : Word
  reads : List ℕ

/-- The inner loop of `copyinstr` with `n` bytes to go from `p` on. -/
def copyinstrPage : ℕ → Str → ℕ → Str
  | 0, st, _ => st
  | n + 1, st, p =>
    if st.ram p = 0 then
      { st with gotNull := true, ram := Function.update st.ram st.dst 0, reads := st.reads ++ [p] }
    else
      copyinstrPage n
        { st with
          ram := Function.update st.ram st.dst (st.ram p)
          dst := st.dst + 1
          max := st.max - 1
          reads := st.reads ++ [p] } (p + 1)

/-- The outer loop of `copyinstr`. -/
def copyinstrFrom (pt : PageTable) : ℕ → Str → Word → Except Fault (Bool × Str)
  | 0, _, _ => .error .noReturn
  | fuel + 1, st, srcva =>
    if st.gotNull = false ∧ st.max > 0 then
      let va0 := pgRoundDown srcva
      let pa0 := walkaddr pt va0.toNat
      if pa0 = 0 then .ok (false, st)
      else
        let n := chunk srcva st.max
        let st := copyinstrPage n.toNat st (pa0 + (srcva - va0).toNat)
        copyinstrFrom pt fuel st (va0 + 4096)
    else .ok (st.gotNull, st)

/-- `copyinstr(pagetable, dst, srcva, max)`: `false` for the result `-1`. -/
def copyinstr (pt : PageTable) (ram : Ram) (dst : ℕ) (srcva max : Word) :
    Except Fault (Bool × Str) :=
  copyinstrFrom pt turns ⟨false, ram, dst, max, []⟩ srcva

/-! ## The numbers of one turn -/

theorem toNat_page (va : Word) : (pgRoundDown va).toNat = va.toNat / pgSize * pgSize :=
  toNat_pgRoundDown va

theorem toNat_offset (va : Word) :
    (va - pgRoundDown va).toNat = va.toNat - va.toNat / pgSize * pgSize := by
  rw [BitVec.toNat_sub_of_le, toNat_page]
  rw [BitVec.le_def, toNat_page]
  exact Nat.div_mul_le_self _ _

theorem toNat_chunk (va len : Word) :
    (chunk va len).toNat
      = min (pgSize - (va.toNat - va.toNat / pgSize * pgSize)) len.toNat := by
  have hoff := toNat_offset va
  have hlt : va.toNat - va.toNat / pgSize * pgSize < pgSize := by
    unfold pgSize
    omega
  have hrest : (4096 - (va - pgRoundDown va)).toNat
      = pgSize - (va.toNat - va.toNat / pgSize * pgSize) := by
    rw [BitVec.toNat_sub_of_le, hoff]
    · rfl
    · rw [BitVec.le_def, hoff]
      exact hlt.le
  unfold chunk
  dsimp only
  split_ifs with h
  · rw [gt_iff_lt, BitVec.lt_def, hrest] at h
    exact (Nat.min_eq_right h.le).symm
  · rw [gt_iff_lt, BitVec.lt_def, hrest] at h
    rw [hrest]
    exact (Nat.min_eq_left (Nat.le_of_not_lt h)).symm

theorem toNat_rest (va len : Word) :
    (len - chunk va len).toNat = len.toNat - (chunk va len).toNat := by
  apply BitVec.toNat_sub_of_le
  rw [BitVec.le_def, toNat_chunk]
  exact Nat.min_le_right _ _

theorem toNat_next {va : Word} (h : va.toNat < maxVa) :
    (pgRoundDown va + 4096).toNat = va.toNat / pgSize * pgSize + pgSize := by
  rw [toNat_add_page, toNat_page]
  · rfl
  · rw [toNat_page]
    unfold maxVa pgSize at *
    omega

theorem toNat_pos {len : Word} : len > 0 ↔ len.toNat ≠ 0 := by
  rw [gt_iff_lt, BitVec.lt_def]
  exact Nat.pos_iff_ne_zero

/-- The user may access no byte from `MAXVA` on. -/
theorem walkaddr_lt {pt : PageTable} {va : ℕ} (h : walkaddr pt va ≠ 0) : va < maxVa := by
  by_contra hge
  apply h
  unfold walkaddr
  exact if_pos (Nat.le_of_not_lt hge)

theorem walkaddr_page_lt {pt : PageTable} {va : ℕ} (h : walkaddr pt (va / pgSize * pgSize) ≠ 0) :
    va < maxVa := by
  have hlt := walkaddr_lt h
  unfold maxVa pgSize at *
  omega

/-- The next page starts where the chunk ends, or the chunk is the last one. -/
theorem next_eq {va len : Word} (h : va.toNat < maxVa) (hrest : len.toNat ≠ (chunk va len).toNat) :
    (pgRoundDown va + 4096).toNat = va.toNat + (chunk va len).toNat := by
  rw [toNat_next h]
  rw [toNat_chunk] at *
  unfold pgSize at *
  omega

/-- There are turns enough for the pages from `va` on. -/
def Enough (fuel : ℕ) (va : Word) : Prop := 0 < fuel ∧ maxVa / pgSize < fuel + va.toNat / pgSize

theorem Enough.next {fuel : ℕ} {va : Word} (h : Enough (fuel + 1) va) (hva : va.toNat < maxVa) :
    Enough fuel (pgRoundDown va + 4096) := by
  unfold Enough at *
  rw [toNat_next hva]
  unfold maxVa pgSize at *
  omega

theorem enough_turns (va : Word) : Enough turns va :=
  ⟨Nat.succ_pos _, Nat.lt_of_lt_of_le (Nat.lt_succ_self _) (Nat.le_add_right _ _)⟩

end Xv6.UserMem
