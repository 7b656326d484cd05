/-
# Files as arrays of bytes (`readi` and `writei` of `kernel/fs.c`)

The bytes of a file are found through its blocks.  `readi` never adds a block, because there are
no holes before the end of a file, and returns the bytes (`readi_spec`).  `writei` goes on block by
block until everything is written, the disk is full or the source cannot be read (`WriteEnd`).  In
the last case the buffer of the block may have been changed already.
-/
import Xv6.FsInodes

namespace Xv6.Fs

open Function

open Itable (Dinode ninode naddrs)
open Owned (Exact)

variable {sb : Superblock} {s s' : State} {i : ℕ}

theorem within_block {p k : ℕ} (h : p % bsize + k < bsize) :
    (p + k) / bsize = p / bsize ∧ (p + k) % bsize = p % bsize + k := by
  unfold bsize at *
  omega

/-! ## The bytes of a file -/

namespace State

/-- The byte `k` of the file `i`. -/
def byte (s : State) (i k : ℕ) : UInt8 := s.block (s.fileBlock i (k / bsize)) (k % bsize)

/-- The bytes of the file `i`. -/
def contents (s : State) (i : ℕ) : List UInt8 :=
  if (s.cur i).type = 0 then [] else (List.range (s.cur i).size).map (s.byte i)

theorem contents_eq (h : (s.cur i).type ≠ 0) :
    s.contents i = (List.range (s.cur i).size).map (s.byte i) := if_neg h

theorem length_contents (h : (s.cur i).type ≠ 0) : (s.contents i).length = (s.cur i).size := by
  rw [contents_eq h, List.length_map, List.length_range]

end State

/-- A block is in one place of one file. -/
theorem Books.fileBlock_inj (h : Books sb s) {j k k' : ℕ} (hne : s.fileBlock j k ≠ 0)
    (heq : s.fileBlock j k = s.fileBlock i k') : j = i ∧ k = k' := by
  cases hslot : slotOf k with
  | none => exact absurd (State.fileBlock_of_none hslot) hne
  | some y =>
    cases hslot' : slotOf k' with
    | none =>
      rw [State.fileBlock_of_none hslot'] at heq
      exact absurd heq hne
    | some y' =>
      rw [State.fileBlock_of_slot hslot] at hne heq
      rw [State.fileBlock_of_slot hslot'] at heq
      have hpair := h.exact.once _ _ hne heq
      obtain ⟨rfl, rfl⟩ := Prod.mk.inj hpair
      exact ⟨rfl, slotOf_inj hslot hslot'⟩

theorem Grown.byte_eq (h : Grown i s s') {j k : ℕ} (hne : s.fileBlock j (k / bsize) ≠ 0) :
    s'.byte j k = s.byte j k := by
  unfold State.byte
  rw [h.fileBlock_eq hne, h.data j _ hne]

/-! ## Writing a block of a file -/

section

variable {a bn : ℕ}

/-- The slots stay when a block of a file is written. -/
theorem Books.ref_setBlock (h : Books sb s) (ha : s.fileBlock i bn = a) (hne : a ≠ 0)
    (blk : Block) : (s.setBlock a blk).ref = s.ref := by
  show refOf (update s.block a blk) s.cur = refOf s.block s.cur
  apply refOf_update_block
  intro j hj heq
  cases hslot : slotOf bn with
  | none =>
    rw [State.fileBlock_of_none hslot] at ha
    exact hne ha.symm
  | some y =>
    rw [State.fileBlock_of_slot hslot] at ha
    have hpair := h.exact.once (j, .addr indirect) (i, y) hj (heq.trans ha.symm)
    exact slotOf_ne_indirect hslot (congrArg Prod.snd hpair).symm

theorem Books.fileBlock_setBlock (h : Books sb s) (ha : s.fileBlock i bn = a) (hne : a ≠ 0)
    (blk : Block) (j k : ℕ) : (s.setBlock a blk).fileBlock j k = s.fileBlock j k := by
  unfold State.fileBlock
  rw [h.ref_setBlock ha hne]

theorem Books.extends_setBlock (h : Books sb s) (ha : s.fileBlock i bn = a) (hne : a ≠ 0)
    (blk : Block) : Extends i s (s.setBlock a blk) where
  dinode := rfl
  refs := fun _ => rfl
  valid := fun _ => rfl
  other := fun _ _ => rfl
  fields := rfl
  kept := by
    intro x _
    rw [h.ref_setBlock ha hne]
  others := by
    intro j y _
    rw [h.ref_setBlock ha hne]
  bits := fun _ hb => hb

theorem Inv.setBlock (h : Inv sb s) (ha : s.fileBlock i bn = a) (hne : a ≠ 0) (blk : Block) :
    Inv sb (s.setBlock a blk) := by
  apply (h.toBooks.extends_setBlock ha hne blk).inv h
  constructor
  · rw [h.toBooks.ref_setBlock ha hne]
    exact h.exact
  · exact h.typed

/-- The bytes of the block that is written, and the others. -/
theorem Books.byte_setBlock_self (h : Books sb s) (ha : s.fileBlock i bn = a) (hne : a ≠ 0)
    (blk : Block) {k : ℕ} (hk : k / bsize = bn) :
    (s.setBlock a blk).byte i k = blk (k % bsize) := by
  unfold State.byte
  rw [h.fileBlock_setBlock ha hne, hk, ha]
  exact congrFun (update_self a blk s.block) _

theorem Books.byte_setBlock_of_ne (h : Books sb s) (ha : s.fileBlock i bn = a) (hne : a ≠ 0)
    (blk : Block) {j k : ℕ} (hmapped : s.fileBlock j (k / bsize) ≠ 0)
    (hk : ¬ (j = i ∧ k / bsize = bn)) : (s.setBlock a blk).byte j k = s.byte j k := by
  unfold State.byte
  rw [h.fileBlock_setBlock ha hne]
  have hblock : s.fileBlock j (k / bsize) ≠ a := by
    intro heq
    exact hk (h.fileBlock_inj hmapped (heq.trans ha.symm))
  exact congrFun (update_of_ne hblock blk s.block) _

end

/-! ## `readi` -/

/-- The loop of `readi` in the part of the file that is there. -/
theorem readLoop_spec (h : Inv sb s) (hi : s.Held i) {dst : ℕ → Bool} {n off : ℕ}
    (hend : off + n ≤ (s.cur i).size) {fuel tot : ℕ} (hfuel : n ≤ tot + fuel) (htot : tot ≤ n)
    {out : List UInt8} (hout : out = (List.range tot).map fun k => s.byte i (off + k)) :
    ∃ r, readLoop sb i dst fuel tot (off + tot) n out s = .ok (r, s)
      ∧ ((∀ k, k < n → dst k = true) →
        r = ((n : ℤ), (List.range n).map fun k => s.byte i (off + k))) := by
  have hsolid := h.solid i (h.type_ne hi)
  induction fuel generalizing tot out with
  | zero =>
    obtain rfl : tot = n := by omega
    exact ⟨_, rfl, fun _ => by rw [hout]⟩
  | succ fuel ih =>
    unfold readLoop
    by_cases hlt : tot < n
    · rw [if_pos hlt]
      have hblock : (off + tot) / bsize * bsize < (s.cur i).size := by
        have hle := Nat.div_mul_le_self (off + tot) bsize
        omega
      have hmapped := hsolid.block_ne _ hblock
      have hbn : (off + tot) / bsize < maxfile := by
        have hmax := hsolid.size_le
        by_contra hge
        have hmul := Nat.mul_le_mul_right bsize (Nat.le_of_not_lt hge)
        omega
      obtain ⟨r, hr, hmaps⟩ := bmap_spec h hi hbn
      rw [hmaps.same hmapped] at hr
      rw [hr, ok_bind]
      dsimp only
      rw [if_neg hmapped]
      generalize hm : min (n - tot) (bsize - (off + tot) % bsize) = m
      have hb : (off + tot) % bsize < bsize := Nat.mod_lt _ (by decide)
      by_cases hdst : (List.range m).all (fun k => dst (tot + k)) = true
      · rw [if_pos hdst, Nat.add_assoc off tot m]
        apply ih (by omega) (by omega)
        rw [hout, List.range_add, List.map_append, List.map_map]
        congr 1
        apply List.map_congr_left
        intro k hk
        have hkm := List.mem_range.mp hk
        -- the bytes up to the end of the block are in the block
        obtain ⟨hdiv, hmod⟩ := within_block (p := off + tot) (k := k) (by omega)
        show s.block _ _ = State.byte s i (off + (tot + k))
        unfold State.byte
        rw [← Nat.add_assoc, hdiv, hmod]
      · rw [if_neg hdst]
        refine ⟨_, rfl, fun hall => ?_⟩
        exfalso
        apply hdst
        rw [List.all_eq_true]
        intro k hk
        apply hall
        have hkm := List.mem_range.mp hk
        omega
    · rw [if_neg hlt]
      obtain rfl : tot = n := by omega
      exact ⟨_, rfl, fun _ => by rw [hout]⟩

/-- The bytes `readi(off, n)` returns, with the 32-bit sum of the code. -/
def readBytes (c : List UInt8) (off n : UInt32) : List UInt8 :=
  if off + n < off then [] else (c.drop off.toNat).take n.toNat

/-- The test for an overflow. -/
theorem add_lt_iff (off n : UInt32) : off + n < off ↔ 2 ^ 32 ≤ off.toNat + n.toNat := by
  have hoff := off.toNat_lt
  have hn := n.toNat_lt
  rw [UInt32.lt_iff_toNat_lt, UInt32.toNat_add]
  omega

theorem toNat_add_of_not_lt {off n : UInt32} (h : ¬ off + n < off) :
    (off + n).toNat = off.toNat + n.toNat := by
  rw [add_lt_iff] at h
  rw [UInt32.toNat_add]
  omega

/-- A part of a file. -/
theorem State.drop_take_contents (h : (s.cur i).type ≠ 0) (off n : ℕ) :
    ((s.contents i).drop off).take n
      = (List.range (min n ((s.cur i).size - off))).map fun k => s.byte i (off + k) := by
  apply List.ext_getElem
  · simp [State.length_contents h]
  · intro k hk hk'
    simp [State.contents_eq h]

/-- **`readi` returns the bytes of the file**, and changes nothing. -/
theorem readi_spec (h : Inv sb s) (hi : s.Held i) (dst : ℕ → Bool) (off n : UInt32) :
    ∃ r, readi sb i dst off n s = .ok (r, s)
      ∧ ((∀ k, k < (readBytes (s.contents i) off n).length → dst k = true) →
        r = (((readBytes (s.contents i) off n).length : ℤ), readBytes (s.contents i) off n)) := by
  have htype := h.type_ne hi
  have hcopy : s.copy i = s.cur i := (State.cur_of_held hi).symm
  unfold readi readBytes
  dsimp only
  rw [hcopy]
  by_cases hover : off + n < off
  · rw [if_pos (Or.inr hover), if_pos hover]
    exact ⟨_, rfl, fun _ => rfl⟩
  · rw [if_neg hover, State.drop_take_contents htype, List.length_map, List.length_range]
    by_cases hoff : (s.cur i).size < off.toNat
    · rw [if_pos (Or.inl hoff), Nat.sub_eq_zero_of_le (Nat.le_of_lt hoff), Nat.min_zero]
      exact ⟨_, rfl, fun _ => rfl⟩
    · rw [if_neg (not_or.mpr ⟨hoff, hover⟩), toNat_add_of_not_lt hover]
      have hn : (if (s.cur i).size < off.toNat + n.toNat then (s.cur i).size - off.toNat
          else n.toNat) = min n.toNat ((s.cur i).size - off.toNat) := by
        split_ifs <;> omega
      rw [hn]
      exact @readLoop_spec sb s i h hi dst _ off.toNat (by omega) _ 0 (by omega) (Nat.zero_le _)
        [] rfl

/-! ## `writei` -/

/-- What is found of the readable bytes. -/
theorem Source.readable_spec (src : Source) (tot m : ℕ) :
    src.readable tot m ≤ m ∧ (∀ k, k < src.readable tot m → (src.byte (tot + k)).isSome = true)
      ∧ (src.readable tot m < m → src.byte (tot + src.readable tot m) = none) := by
  unfold Source.readable
  refine ⟨?_, ?_, ?_⟩
  · have hle : (List.range m).findIdx (fun k => (src.byte (tot + k)).isNone)
        ≤ (List.range m).length := List.findIdx_le_length
    rwa [List.length_range] at hle
  · intro k hk
    have hnot := List.not_of_lt_findIdx hk
    rw [List.getElem_range] at hnot
    cases hb : src.byte (tot + k) with
    | none => simp [hb] at hnot
    | some b => rfl
  · intro hlt
    have hget := @List.findIdx_getElem _ (fun k => (src.byte (tot + k)).isNone)
      (List.range m) (by rwa [List.length_range])
    rw [List.getElem_range] at hget
    simpa using hget

/-- The first `tot` bytes of the source are in the file from `off` on, and apart from the bytes
before `off + top` the files have the bytes they had. -/
structure Writing (sb : Superblock) (i off : ℕ) (byte : ℕ → Option UInt8) (s : State)
    (tot top : ℕ) (s' : State) : Prop where
  inv : Inv sb s'
  ext : Extends i s s'
  written : ∀ k, k < tot →
    s'.fileBlock i ((off + k) / bsize) ≠ 0 ∧ byte k = some (s'.byte i (off + k))
  old : ∀ j k, s.fileBlock j (k / bsize) ≠ 0 → ¬ (j = i ∧ off ≤ k ∧ k < off + top) →
    s'.byte j k = s.byte j k

/-- The block the loop of `writei` is at. -/
def State.chunk (s : State) (i p : ℕ) : ℕ := s.fileBlock i (p / bsize)

/-- The blocks that may have been logged once `tot` bytes are written: new ones, the indirect one,
and those of the bytes. -/
def Touched (i off tot : ℕ) (s s' : State) (b : ℕ) : Prop :=
  s.bitmap b = false ∨ (b ≠ 0 ∧ s'.ref (i, .addr indirect) = b)
    ∨ ∃ k, k < tot ∧ s'.chunk i (off + k) = b

/-- How the loop of `writei` ends: the bytes written, and the state. -/
inductive WriteEnd (sb : Superblock) (i off n : ℕ) (src : Source) (s : State) :
    ℕ → State → Prop where
  /-- Everything is written. -/
  | done {s' : State} (hw : Writing sb i off src.byte s n n s')
      (hlogs : Logs (Touched i off n s s') s s') : WriteEnd sb i off n src s n s'
  /-- There is no block for the next bytes. -/
  | full {tot : ℕ} {s' : State} (hlt : tot < n) (hw : Writing sb i off src.byte s tot tot s')
      (hlogs : Logs (Touched i off tot s s') s s') (hfull : Full sb s')
      (hnew : s.chunk i (off + tot) = 0) : WriteEnd sb i off n src s tot s'
  /-- The source cannot be read: `c` more bytes have been copied. -/
  | fault {tot c : ℕ} {s' : State} (hw : Writing sb i off src.byte s tot tot s')
      (hlogs : Logs (Touched i off tot s s') s s') (hlt : tot + c < n)
      (hnone : src.byte (tot + c) = none) (hsome : ∀ k, k < tot + c → (src.byte k).isSome = true)
      (hstart : tot = 0 ∨ (off + tot) % bsize = 0) (hblock : (off + tot) % bsize + c < bsize)
      (hchunk : s'.chunk i (off + tot) ≠ 0) :
      WriteEnd sb i off n src s tot
        (if src.kept then s'.setBlock (s'.chunk i (off + tot))
          ((s'.block (s'.chunk i (off + tot))).fill ((off + tot) % bsize)
            (fun k => (src.byte (tot + k)).getD 0) c)
        else s')

section

variable {off n tot : ℕ} {src : Source}

theorem Writing.grown {byte : ℕ → Option UInt8} {s'' : State}
    (h : Writing sb i off byte s tot tot s') (hinv : Inv sb s'') (hgrown : Grown i s' s'') :
    Writing sb i off byte s tot tot s'' where
  inv := hinv
  ext := h.ext.trans hgrown.toExtends
  written := by
    intro k hk
    obtain ⟨hmapped, hbyte⟩ := h.written k hk
    rw [hgrown.fileBlock_eq hmapped, hgrown.byte_eq hmapped]
    exact ⟨hmapped, hbyte⟩
  old := by
    intro j k hmapped hnot
    have hmapped' : s'.fileBlock j (k / bsize) ≠ 0 := by
      rwa [h.ext.fileBlock_eq hmapped]
    rw [hgrown.byte_eq hmapped']
    exact h.old j k hmapped hnot

/-- The bytes of the source up to the end of the block are written. -/
theorem Writing.setBlock (h : Writing sb i off src.byte s tot tot s') {a m : ℕ}
    (ha : s'.chunk i (off + tot) = a) (hne : a ≠ 0) (hm : (off + tot) % bsize + m ≤ bsize)
    (hsome : ∀ k, k < m → (src.byte (tot + k)).isSome = true) :
    Writing sb i off src.byte s (tot + m) (tot + m)
      (s'.setBlock a ((s'.block a).fill ((off + tot) % bsize)
        (fun k => (src.byte (tot + k)).getD 0) m)) := by
  have hbooks := h.inv.toBooks
  generalize hblk : (s'.block a).fill ((off + tot) % bsize) (fun k => (src.byte (tot + k)).getD 0) m
    = blk
  constructor
  · exact h.inv.setBlock ha hne blk
  · exact h.ext.trans (hbooks.extends_setBlock ha hne blk)
  · intro k hk
    rw [hbooks.fileBlock_setBlock ha hne]
    by_cases hkt : k < tot
    · obtain ⟨hmapped, hbyte⟩ := h.written k hkt
      refine ⟨hmapped, ?_⟩
      by_cases hdiv : (off + k) / bsize = (off + tot) / bsize
      · -- the byte is in the block, before the part that is written
        rw [hbooks.byte_setBlock_self ha hne blk hdiv, ← hblk, hbyte]
        unfold Block.fill State.byte
        rw [if_neg, hdiv]
        · unfold State.chunk at ha
          rw [ha]
        · unfold bsize at *
          omega
      · rw [hbooks.byte_setBlock_of_ne ha hne blk hmapped fun hboth => hdiv hboth.2]
        exact hbyte
    · obtain ⟨k', rfl⟩ := Nat.exists_eq_add_of_le (Nat.le_of_not_lt hkt)
      have hk' : k' < m := by omega
      obtain ⟨hdiv, hmod⟩ := within_block (p := off + tot) (k := k') (by omega)
      rw [← Nat.add_assoc]
      refine ⟨?_, ?_⟩
      · rw [hdiv]
        unfold State.chunk at ha
        rw [ha]
        exact hne
      · rw [hbooks.byte_setBlock_self ha hne blk hdiv, hmod, ← hblk]
        unfold Block.fill
        rw [if_pos ⟨by omega, by omega⟩, Nat.add_sub_cancel_left]
        obtain ⟨b, hb⟩ := Option.isSome_iff_exists.mp (hsome k' hk')
        dsimp only
        rw [hb]
        rfl
  · intro j k hmapped hnot
    have hmapped' : s'.fileBlock j (k / bsize) ≠ 0 := by
      rwa [h.ext.fileBlock_eq hmapped]
    have hold := h.old j k hmapped fun hboth => hnot ⟨hboth.1, hboth.2.1, by omega⟩
    by_cases hin : j = i ∧ k / bsize = (off + tot) / bsize
    · obtain ⟨rfl, hdiv⟩ := hin
      rw [hbooks.byte_setBlock_self ha hne blk hdiv, ← hold, ← hblk]
      have hout : ¬ (off ≤ k ∧ k < off + (tot + m)) := fun hboth => hnot ⟨rfl, hboth⟩
      unfold Block.fill State.byte
      rw [if_neg, hdiv]
      · unfold State.chunk at ha
        rw [ha]
      · unfold bsize at *
        omega
    · rw [hbooks.byte_setBlock_of_ne ha hne blk hmapped' hin]
      exact hold

/-- What has been logged does not matter. -/
theorem Writing.logWrite {byte : ℕ → Option UInt8} {top : ℕ}
    (h : Writing sb i off byte s tot top s') (b : LogBlock) :
    Writing sb i off byte s tot top (s'.logWrite b) where
  inv := ⟨⟨h.inv.exact, h.inv.typed⟩,
    fun j hj => ⟨(h.inv.solid j hj).size_le, (h.inv.solid j hj).block_ne⟩⟩
  ext := ⟨h.ext.dinode, h.ext.refs, h.ext.valid, h.ext.other, h.ext.fields, h.ext.kept,
    h.ext.others, h.ext.bits⟩
  written := h.written
  old := h.old

theorem Touched.mono {s'' : State} {m : ℕ} (h : Writing sb i off src.byte s tot tot s')
    (hext : Extends i s' s'') {b : ℕ} (hb : Touched i off tot s s' b) :
    Touched i off (tot + m) s s'' b := by
  rcases hb with hb | ⟨hb0, hb⟩ | ⟨k, hk, hb⟩
  · exact Or.inl hb
  · refine Or.inr (Or.inl ⟨hb0, ?_⟩)
    rw [hext.kept _ (by rwa [hb]), hb]
  · refine Or.inr (Or.inr ⟨k, by omega, ?_⟩)
    rw [← hb]
    exact hext.fileBlock_eq (h.written k hk).1

/-- A block that `bmap` logs. -/
theorem Touched.of_bmap {s'' : State} {b : ℕ} (h : Writing sb i off src.byte s tot tot s')
    (hb : s'.bitmap b = false ∨ (b ≠ 0 ∧ s''.ref (i, .addr indirect) = b)) :
    Touched i off tot s s'' b := by
  rcases hb with hb | hb
  · left
    by_contra htrue
    have hbit := h.ext.bits b (by simpa using htrue)
    exact absurd (hb.symm.trans hbit) Bool.false_ne_true
  · exact Or.inr (Or.inl hb)

/-- **The loop of `writei`** ends in one of the three ways. -/
theorem writeLoop_spec {s₀ : State} (hi : s₀.Held i) (hmax : off + n ≤ maxfile * bsize)
    {fuel : ℕ} (hfuel : n ≤ tot + fuel) (htot : tot ≤ n)
    (hstart : tot < n → tot = 0 ∨ (off + tot) % bsize = 0)
    (hw : Writing sb i off src.byte s₀ tot tot s) (hlogs : Logs (Touched i off tot s₀ s) s₀ s) :
    ∃ tot' s', writeLoop sb i src fuel tot (off + tot) n s = .ok ((tot', off + tot'), s')
      ∧ WriteEnd sb i off n src s₀ tot' s' := by
  induction fuel generalizing tot s with
  | zero =>
    obtain rfl : tot = n := by omega
    exact ⟨_, _, rfl, .done hw hlogs⟩
  | succ fuel ih =>
    unfold writeLoop
    by_cases hlt : tot < n
    · rw [if_pos hlt]
      have hbn : (off + tot) / bsize < maxfile := by
        rw [Nat.div_lt_iff_lt_mul (by decide)]
        omega
      obtain ⟨⟨addr, s₁⟩, hr, hmaps⟩ := bmap_spec hw.inv ((hw.ext.held_iff i).mpr hi) hbn
      rw [hr, ok_bind]
      dsimp only
      have hgrown : Grown i s s₁ := hmaps.grown
      have hw₁ := hw.grown hmaps.inv hgrown
      have hlogs₁ : Logs (Touched i off tot s₀ s₁) s₀ s₁ :=
        hlogs.trans hmaps.logs (fun b hb => hb.mono (m := 0) hw hgrown.toExtends)
          (fun b hb => Touched.of_bmap hw hb)
      by_cases haddr : addr = 0
      · rw [if_pos haddr]
        refine ⟨_, _, rfl, .full hlt hw₁ hlogs₁ (hmaps.full haddr) ?_⟩
        -- a block that was there would have been found
        by_contra hchunk
        have hchunk' : s.fileBlock i ((off + tot) / bsize) ≠ 0 := by
          rwa [hw.ext.fileBlock_eq hchunk]
        have hfound := congrArg Prod.fst (hmaps.same hchunk')
        exact hchunk' (hfound.symm.trans haddr)
      · rw [if_neg haddr]
        have hat : s₁.chunk i (off + tot) = addr := hmaps.at_block haddr
        generalize hm : min (n - tot) (bsize - (off + tot) % bsize) = m
        have hb : (off + tot) % bsize < bsize := Nat.mod_lt _ (by decide)
        obtain ⟨hle, hsome, hnone⟩ := src.readable_spec tot m
        by_cases hc : src.readable tot m < m
        · rw [if_pos hc]
          have hend := WriteEnd.fault (n := n) hw₁ hlogs₁ (c := src.readable tot m) (by omega)
            (hnone hc) ?_ (hstart hlt) (by omega) (by rwa [hat])
          · rw [hat] at hend
            exact ⟨_, _, rfl, hend⟩
          · intro k hk
            by_cases hkt : k < tot
            · rw [(hw.written k hkt).2]
              rfl
            · obtain ⟨k', rfl⟩ := Nat.exists_eq_add_of_le (Nat.le_of_not_lt hkt)
              exact hsome k' (by omega)
        · rw [if_neg hc]
          have heq : src.readable tot m = m := by omega
          rw [heq] at hsome ⊢
          have hw₂ := hw₁.setBlock hat haddr (m := m) (by omega) hsome
          rw [Nat.add_assoc]
          apply ih (by omega) (by omega)
          · intro hlt'
            right
            unfold bsize at *
            omega
          · exact hw₂.logWrite _
          · apply hlogs₁.trans (Logs.setBlock (P := fun c => c = addr) _ rfl)
            · intro b hb
              exact hb.mono hw₁ (hmaps.inv.toBooks.extends_setBlock hat haddr _)
            · rintro b rfl
              refine Or.inr (Or.inr ⟨tot, by omega, ?_⟩)
              exact (hmaps.inv.toBooks.fileBlock_setBlock hat haddr _ _ _).trans hat
    · rw [if_neg hlt]
      obtain rfl : tot = n := by omega
      exact ⟨_, _, rfl, .done hw hlogs⟩

end

end Xv6.Fs
