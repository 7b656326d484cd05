/-
# What `writei` does (`kernel/fs.c`)

`writei` keeps the invariant and changes one file, by the bytes it reports when the source can be
read (`writei_byte_array`).  When the source cannot be read to the end, the bytes that were copied
into a buffer before the fault stay there although they are not reported and the buffer is not
logged; `writei_fault_iff` says when that can be seen.
-/
import Xv6.FsFiles

namespace Xv6.Fs

open Function

variable {c j k : ℕ}

open Itable (Dinode ninode naddrs)
open Owned (Exact)

variable {sb : Superblock} {s s' : State} {i : ℕ}

/-! ## The end of `writei` -/

/-- `ip->size = p` if the file is shorter, and `iupdate(ip)`. -/
def finish (i p : ℕ) (s : State) : State :=
  iupdate i (s.setCopy i { s.copy i with size := max (s.copy i).size p })

theorem State.setCopy_self (s : State) (i : ℕ) : s.setCopy i (s.copy i) = s := by
  unfold State.setCopy State.setInode State.copy
  rw [update_eq_self]

theorem finish_eq (i p : ℕ) (s : State) :
    iupdate i (if (s.copy i).size < p then s.setCopy i { s.copy i with size := p } else s)
      = finish i p s := by
  unfold finish
  split_ifs with h
  · rw [max_eq_right (Nat.le_of_lt h)]
  · rw [max_eq_left (Nat.le_of_not_lt h)]
    exact congrArg _ (State.setCopy_self s i).symm

theorem written_finish (i p : ℕ) (s : State) :
    Written i { s.copy i with size := max (s.copy i).size p } s (finish i p s) :=
  written_iupdate s i _

section

variable {p : ℕ}

theorem cur_finish (hi : s.Held i) :
    (finish i p s).cur = update s.cur i { s.cur i with size := max (s.cur i).size p } := by
  rw [(written_finish i p s).cur_eq, State.cur_of_held hi]

theorem ref_finish (hi : s.Held i) : (finish i p s).ref = s.ref := by
  show refOf s.block (finish i p s).cur = refOf s.block s.cur
  rw [cur_finish hi]
  apply refOf_update_same
  intro y
  unfold refOf
  dsimp only
  rw [update_self]
  cases y with
  | addr k => rfl
  | entry j => rfl

theorem fileBlock_finish (hi : s.Held i) (j k : ℕ) :
    (finish i p s).fileBlock j k = s.fileBlock j k := by
  unfold State.fileBlock
  rw [ref_finish hi]

theorem byte_finish (hi : s.Held i) (j k : ℕ) : (finish i p s).byte j k = s.byte j k := by
  unfold State.byte
  rw [fileBlock_finish hi]
  rfl

end

/-- The invariant after `writei`: the new end of the file is not behind a hole. -/
theorem finish_good {s₀ : State} {p : ℕ} (h₀ : Good sb s₀) (hi : s₀.Held i) (hinv : Inv sb s)
    (hext : Extends i s₀ s) (hp : p ≤ maxfile * bsize)
    (hblocks : ∀ k, (s.cur i).size ≤ k * bsize → k * bsize < p → s.fileBlock i k ≠ 0) :
    Good sb (finish i p s) := by
  have hi' : s.Held i := (hext.held_iff i).mpr hi
  have hw := written_finish i p s
  constructor
  · constructor
    · constructor
      · rw [ref_finish hi']
        exact hinv.exact
      · intro j hj
        by_cases hji : j = i
        · rw [hji, hw.copy_self]
          exact hinv.typed i hi'
        · rw [hw.copy_of_ne hji]
          exact hinv.typed j ((hw.held_iff j).mp hj)
    · intro j hj
      rw [cur_finish hi'] at hj
      by_cases hji : j = i
      · subst hji
        have hsolid := hinv.solid j (hinv.type_ne hi')
        constructor
        · rw [cur_finish hi', update_self]
          exact max_le hsolid.size_le hp
        · intro k hk
          rw [cur_finish hi', update_self] at hk
          rw [fileBlock_finish hi']
          by_cases hlt : k * bsize < (s.cur j).size
          · exact hsolid.block_ne k hlt
          · apply hblocks k (Nat.le_of_not_lt hlt)
            exact (lt_max_iff.mp hk).resolve_left hlt
      · rw [update_of_ne hji] at hj
        have hcur : (finish i p s).cur j = s.cur j := by
          rw [cur_finish hi', update_of_ne hji]
        exact (hinv.solid j hj).congr rfl hcur
  · intro j hj
    have hj' := (hw.held_iff j).mp hj
    by_cases hji : j = i
    · subst hji
      rw [hw.copy_self, hw.dinode, update_self]
    · rw [hw.copy_of_ne hji, hw.dinode, update_of_ne hji, hext.other j hji, hext.dinode]
      exact h₀.synced j ((hext.held_iff j).mp hj')

/-! ## All of `writei` -/

section

variable {off n tot : ℕ} {src : Source}

/-- At the end of the loop, with the bytes before `off + top` that may have been changed. -/
theorem WriteEnd.writing (h : WriteEnd sb i off n src s tot s') :
    tot ≤ n ∧ ∃ top, Writing sb i off src.byte s tot top s' ∧ tot ≤ top := by
  cases h with
  | done hw => exact ⟨Nat.le_refl _, _, hw, Nat.le_refl _⟩
  | full hlt hw => exact ⟨Nat.le_of_lt hlt, _, hw, Nat.le_refl _⟩
  | @fault _ c s₁ hw _ hlt _ hsome _ hblock hchunk =>
    refine ⟨by omega, ?_⟩
    cases src.kept with
    | false => exact ⟨_, hw, Nat.le_refl _⟩
    | true =>
      have hpart := hw.setBlock (m := c) rfl hchunk (Nat.le_of_lt hblock)
        fun k hk => hsome (tot + k) (by omega)
      exact ⟨tot + c, ⟨hpart.inv, hpart.ext, fun k hk => hpart.written k (by omega), hpart.old⟩,
        Nat.le_add_right _ _⟩

/-- The new end of the file is not behind a hole. -/
theorem Writing.block_ne {top : ℕ} (hw : Writing sb i off src.byte s tot top s')
    (hoff : off ≤ (s.cur i).size) (hsize : (s'.cur i).size ≤ k * bsize) (hk : k * bsize < off +
      tot) :
    s'.fileBlock i k ≠ 0 := by
  rw [hw.ext.size_eq] at hsize
  have hmapped := (hw.written (k * bsize - off) (by omega)).1
  rwa [show off + (k * bsize - off) = k * bsize by omega,
    Nat.mul_div_cancel k (by decide)] at hmapped

end

/-- The request can be met: the file ends at `off` or later, and would not get too long. -/
def InRange (s : State) (i : ℕ) (off n : UInt32) : Prop :=
  off.toNat ≤ (s.cur i).size ∧ off.toNat + n.toNat ≤ maxfile * bsize

instance (s : State) (i : ℕ) (off n : UInt32) : Decidable (InRange s i off n) :=
  inferInstanceAs (Decidable (_ ∧ _))

/-- **`writei`** refuses a request that is out of range, and else runs its loop. -/
theorem writei_eq (hi : s.Held i) (src : Source) (off n : UInt32) :
    writei sb i src off n s = if InRange s i off n then
      (writeLoop sb i src n.toNat 0 off.toNat n.toNat s).map fun r =>
        ((r.1.1 : ℤ), finish i r.1.2 r.2)
      else .ok (-1, s) := by
  have hcopy : s.copy i = s.cur i := (State.cur_of_held hi).symm
  have hmaxfile : maxfile * bsize < 2 ^ 32 := by decide
  unfold writei
  rw [hcopy]
  by_cases hoff : (s.cur i).size < off.toNat ∨ off + n < off
  · have hnot : ¬ InRange s i off n := by
      rintro ⟨hle, hmax⟩
      rcases hoff with hoff | hover
      · omega
      · rw [add_lt_iff] at hover
        omega
    rw [if_pos hoff, if_neg hnot]
  · rw [if_neg hoff]
    rw [not_or] at hoff
    rw [toNat_add_of_not_lt hoff.2]
    by_cases hmax : maxfile * bsize < off.toNat + n.toNat
    · have hnot : ¬ InRange s i off n := fun hin => absurd hin.2 (Nat.not_le.mpr hmax)
      rw [if_pos hmax, if_neg hnot]
    · have hin : InRange s i off n := ⟨Nat.le_of_not_lt hoff.1, Nat.le_of_not_lt hmax⟩
      rw [if_neg hmax, if_pos hin]
      cases writeLoop sb i src n.toNat 0 off.toNat n.toNat s with
      | error e => rfl
      | ok r =>
        rw [ok_bind]
        dsimp only
        rw [finish_eq]
        rfl

/-- Before the first turn of the loop. -/
theorem Writing.start (h : Good sb s) (i off : ℕ) (byte : ℕ → Option UInt8) :
    Writing sb i off byte s 0 0 s :=
  ⟨h.toInv, Extends.refl i s, fun k hk => absurd hk (Nat.not_lt_zero k), fun _ _ _ _ => rfl⟩

theorem Writing.good {off tot top : ℕ} {src : Source} (h : Good sb s) (hi : s.Held i)
    (hw : Writing sb i off src.byte s tot top s') (hoff : off ≤ (s.cur i).size)
    (hmax : off + tot ≤ maxfile * bsize) : Good sb (finish i (off + tot) s') :=
  finish_good h hi hw.inv hw.ext hmax fun _ hk => hw.block_ne hoff hk

theorem writei_cases (h : Good sb s) (hi : s.Held i) (src : Source) (off n : UInt32) :
    (¬ InRange s i off n ∧ writei sb i src off n s = .ok (-1, s))
      ∨ (InRange s i off n ∧ ∃ tot s', WriteEnd sb i off.toNat n.toNat src s tot s'
        ∧ writei sb i src off n s = .ok ((tot : ℤ), finish i (off.toNat + tot) s')
        ∧ Good sb (finish i (off.toNat + tot) s')) := by
  rw [writei_eq hi]
  by_cases hin : InRange s i off n
  · rw [if_pos hin]
    have hfuel : n.toNat ≤ 0 + n.toNat := by omega
    obtain ⟨tot, s', hrun, hend⟩ := writeLoop_spec hi hin.2 hfuel (Nat.zero_le _)
      (fun _ => Or.inl rfl) (Writing.start h i off.toNat src.byte) (Logs.refl _ s)
    rw [Nat.add_zero] at hrun
    rw [hrun]
    obtain ⟨htot, top, hw, -⟩ := hend.writing
    exact Or.inr ⟨hin, tot, s', hend, rfl, hw.good h hi hin.1 (by have := hin.2; omega)⟩
  · rw [if_neg hin]
    exact Or.inl ⟨hin, rfl⟩

/-! ## The contents afterwards -/

/-- The bytes from `off` on are replaced by `l`, or `l` is appended. -/
def splice (old : List UInt8) (off : ℕ) (l : List UInt8) : List UInt8 :=
  old.take off ++ l ++ old.drop (off + l.length)

/-- The first `tot` bytes of a source. -/
def Source.first (src : Source) (tot : ℕ) : List UInt8 :=
  (List.range tot).map fun k => (src.byte k).getD 0

theorem getElem?_map_range {α : Type} (f : ℕ → α) (n k : ℕ) :
    ((List.range n).map f)[k]? = if k < n then some (f k) else none := by
  split_ifs with hk <;> simp [hk]

theorem getElem?_splice {old l : List UInt8} {off : ℕ} (hoff : off ≤ old.length) (k : ℕ) :
    (splice old off l)[k]?
      = if k < off then old[k]? else if k < off + l.length then l[k - off]? else old[k]? := by
  unfold splice
  have hlen : (old.take off).length = off := by
    rw [List.length_take]
    omega
  rw [List.append_assoc, List.getElem?_append, hlen]
  split_ifs with hk hk'
  · rw [List.getElem?_take_of_lt hk]
  · rw [List.getElem?_append_left (by omega)]
  · rw [List.getElem?_append_right (by omega), List.getElem?_drop]
    congr 1
    omega

theorem State.getElem?_contents (h : (s.cur i).type ≠ 0) (k : ℕ) :
    (s.contents i)[k]? = if k < (s.cur i).size then some (s.byte i k) else none := by
  rw [State.contents_eq h, getElem?_map_range]

section

variable {off tot top : ℕ} {src : Source}

/-- The file that is written. -/
theorem Writing.contents_finish (h : Good sb s) (hi : s.Held i)
    (hw : Writing sb i off src.byte s tot top s') (hoff : off ≤ (s.cur i).size)
    (htop : ∀ k, off + tot ≤ k → k < off + top → (s.cur i).size ≤ k) :
    (finish i (off + tot) s').contents i = splice (s.contents i) off (src.first tot) := by
  have hi' : s'.Held i := (hw.ext.held_iff i).mpr hi
  have htype := h.type_ne hi
  have hcur : (finish i (off + tot) s').cur i
      = { s'.cur i with size := max (s'.cur i).size (off + tot) } := by
    rw [cur_finish hi', update_self]
  have htype' : ((finish i (off + tot) s').cur i).type ≠ 0 := by
    rw [hcur]
    exact hw.inv.type_ne hi'
  have hlen : (src.first tot).length = tot := by
    unfold Source.first
    rw [List.length_map, List.length_range]
  apply List.ext_getElem?
  intro k
  rw [State.getElem?_contents htype', getElem?_splice (by rwa [State.length_contents htype]),
    State.getElem?_contents htype, hcur, hlen, byte_finish hi']
  dsimp only
  rw [hw.ext.size_eq]
  have hold : k < (s.cur i).size → ¬ (off ≤ k ∧ k < off + tot) → s'.byte i k = s.byte i k := by
    intro hk hnot
    apply hw.old i k
    · apply (h.solid i htype).block_ne
      have hle := Nat.div_mul_le_self k bsize
      omega
    · rintro ⟨-, hge, hlt⟩
      have hsize := htop k (by omega) hlt
      omega
  by_cases hk : k < off
  · rw [if_pos hk, if_pos (by omega), if_pos (by omega), hold (by omega) (by omega)]
  · rw [if_neg hk]
    by_cases hk' : k < off + tot
    · rw [if_pos hk', if_pos (by omega)]
      obtain ⟨k', rfl⟩ := Nat.exists_eq_add_of_le (Nat.le_of_not_lt hk)
      have hbyte := (hw.written k' (by omega)).2
      unfold Source.first
      rw [Nat.add_sub_cancel_left, getElem?_map_range, if_pos (by omega), hbyte]
      rfl
    · rw [if_neg hk']
      by_cases hk'' : k < (s.cur i).size
      · rw [if_pos (by omega), if_pos hk'', hold hk'' (by omega)]
      · rw [if_neg (by omega), if_neg hk'']

theorem Writing.contents_other (h : Good sb s) (hi : s.Held i)
    (hw : Writing sb i off src.byte s tot top s') (hj : j ≠ i) (p : ℕ) :
    (finish i p s').contents j = s.contents j := by
  have hi' : s'.Held i := (hw.ext.held_iff i).mpr hi
  have hcur : (finish i p s').cur j = s'.cur j := by
    rw [cur_finish hi', update_of_ne hj]
  unfold State.contents
  rw [hcur, hw.ext.type_eq, hw.ext.size_eq]
  split_ifs with htype
  · rfl
  · apply List.map_congr_left
    intro k hk
    rw [byte_finish hi']
    apply hw.old j k
    · apply (h.solid j htype).block_ne
      have hle := Nat.div_mul_le_self k bsize
      have hlt := List.mem_range.mp hk
      omega
    · exact fun hboth => hj hboth.1

end

theorem full_finish {p : ℕ} (h : Full sb s) : Full sb (finish i p s) := h

/-! ## Small images -/

/-- An image with one data block in use, the first of the inode 1; the table has what the disk
has. -/
structure Image (sb : Superblock) (s : State) : Prop where
  reserved : ∀ b, sb.Meta b ↔ b < 5
  bits : ∀ b, s.bitmap b = true ↔ b ≤ 5
  synced : Synced s
  typed : ∀ i, s.Held i → (s.dinode i).type ≠ 0
  addrs : ∀ i, (s.dinode i).addrs = fun k => if i = 1 ∧ k.val = 0 then 5 else 0
  size : ∀ i, (s.dinode i).size ≤ if i = 1 then bsize else 0
  first : (s.dinode 1).type ≠ 0

/-- The slot of the only block. -/
def sampleSlot : ℕ × Slot := (1, .addr (direct ⟨0, by decide⟩))

namespace Image

theorem cur (h : Image sb s) (i : ℕ) : s.cur i = s.dinode i := by
  by_cases hi : s.Held i
  · rw [State.cur_of_held hi, h.synced i hi]
  · exact State.cur_of_not_held hi

theorem ref (h : Image sb s) (x : ℕ × Slot) : s.ref x = if x = sampleSlot then 5 else 0 := by
  obtain ⟨i, y⟩ := x
  have hslot : slotAddr s.block (s.cur i) y = if (i, y) = sampleSlot then 5 else 0 := by
    rw [h.cur]
    cases y with
    | addr k =>
      unfold slotAddr
      rw [h.addrs]
      simp [sampleSlot, direct, Fin.ext_iff]
    | entry j =>
      have hzero : (s.dinode i).addrs indirect = 0 := by
        rw [h.addrs]
        exact if_neg fun hk => absurd hk.2 (by decide)
      rw [slotAddr_entry_eq_zero hzero, if_neg (by simp [sampleSlot])]
  unfold State.ref refOf
  dsimp only
  rw [hslot, ite_eq_right_iff]
  intro htype
  rw [h.cur] at htype
  rw [if_neg]
  intro heq
  obtain rfl : i = 1 := congrArg Prod.fst heq
  exact h.first htype

theorem fileBlock (h : Image sb s) (k : ℕ) : s.fileBlock 1 k = if k = 0 then 5 else 0 := by
  cases hslot : slotOf k with
  | none =>
    rw [State.fileBlock_of_none hslot, if_neg]
    rintro rfl
    cases hslot
  | some y =>
    rw [State.fileBlock_of_slot hslot, h.ref]
    by_cases hk : k = 0
    · subst hk
      cases hslot
      rfl
    · rw [if_neg hk, if_neg]
      intro heq
      have hy : y = .addr (direct ⟨0, by decide⟩) := congrArg Prod.snd heq
      rw [hy] at hslot
      exact hk (slotOf_inj hslot rfl)

theorem good (h : Image sb s) : Good sb s where
  exact := {
    once := by
      intro x y hx heq
      have hall : ∀ z, s.ref z ≠ 0 → z = sampleSlot := by
        intro z hz
        by_contra hne
        rw [h.ref, if_neg hne] at hz
        exact hz rfl
      rw [hall x hx, hall y (heq ▸ hx)]
    marked := by
      intro b
      rw [h.bits, h.reserved]
      constructor
      · intro hb
        by_cases hlt : b < 5
        · exact Or.inl hlt
        · obtain rfl : b = 5 := by omega
          exact Or.inr ⟨by decide, sampleSlot, by rw [h.ref, if_pos rfl]⟩
      · rintro (hb | ⟨hb0, x, hx⟩)
        · omega
        · rw [h.ref] at hx
          split_ifs at hx <;> omega
    apart := by
      intro x hx
      rw [h.ref] at hx ⊢
      rw [h.reserved]
      split_ifs at hx ⊢ <;> omega }
  typed := by
    intro i hi
    rw [h.synced i hi]
    exact h.typed i hi
  solid := by
    intro i _
    have hsize := h.size i
    constructor
    · rw [h.cur]
      refine hsize.trans ?_
      split_ifs <;> decide
    · intro k hk
      rw [h.cur] at hk
      have hlt := lt_of_lt_of_le hk hsize
      split_ifs at hlt with hi
      · subst hi
        obtain rfl : k = 0 := by
          unfold bsize at hlt
          omega
        rw [h.fileBlock, if_pos rfl]
        decide
      · exact absurd hlt (Nat.not_lt_zero _)
  synced := h.synced

end Image

/-- Eight blocks, three of them for data. -/
def sampleSb : Superblock := ⟨8, 3, 3, by decide, by decide⟩

/-- A file with two bytes, in the first data block. -/
def sampleInode : Dinode := ⟨tFile, 0, 0, 1, 2, fun k => if k.val = 0 then 5 else 0⟩

/-- The file is open, and the other inodes are free. -/
def sample : State where
  bitmap := fun b => decide (b ≤ 5)
  dinode := fun i => if i = 1 then sampleInode else Dinode.new 0
  block := fun b k => if b = 5 ∧ k = 0 then 7 else if b = 5 ∧ k = 1 then 8 else 0
  inode := fun i => if i = 1 then ⟨1, true, sampleInode⟩ else ⟨0, false, Dinode.new 0⟩
  ballocs := 0
  logged := []

theorem sample_held : sample.Held 1 := ⟨by decide, rfl⟩

theorem sample_image : Image sampleSb sample := by
  have hheld : ∀ i, sample.Held i → i = 1 := by
    intro i hi
    by_contra hne
    have hpos := hi.1
    simp [sample, hne] at hpos
  refine ⟨fun _ => Iff.rfl, fun _ => decide_eq_true_iff, ?_, ?_, fun i => ?_, fun i => ?_, by decide⟩
  · intro i hi
    rw [hheld i hi]
    rfl
  · intro i hi
    rw [hheld i hi]
    decide
  · by_cases hi : i = 1 <;> simp [sample, hi, sampleInode, Dinode.new]
  · by_cases hi : i = 1 <;> simp [sample, hi, sampleInode, Dinode.new, bsize]

theorem sample_contents : sample.contents 1 = [7, 8] := by decide +kernel

/-! ## An array of bytes -/

/-! ## Sources that cannot be read to the end -/

/-- The blocks of the file are those before some index. -/
def Packed (s : State) (i : ℕ) : Prop :=
  ∀ k k', s.fileBlock i k = 0 → k ≤ k' → s.fileBlock i k' = 0

/-- `writei` changes only the bytes it reports, and logs every block it changes; what it leaves in
a buffer is seen by whoever reads the block next. -/
def ReportsExactly (sb : Superblock) (i : ℕ) (byte : ℕ → Option UInt8) (off n : UInt32)
    (s : State) : Prop :=
  ∀ tot s', writei sb i ⟨byte, true⟩ off n s = .ok (tot, s') → 0 ≤ tot →
    s'.contents i = splice (s.contents i) off.toNat (Source.first ⟨byte, true⟩ tot.toNat)
      ∧ ∃ l, s'.logged = l ++ s.logged ∧ ∀ b, s'.block b ≠ s.block b → LogBlock.data b ∈ l

/-- The first byte that cannot be read is not in a block of the file, or the bytes before it that
go into the same block are there already. -/
def CleanFault (s : State) (i : ℕ) (byte : ℕ → Option UInt8) (off n : UInt32) : Prop :=
  InRange s i off n → ∀ j, j < n.toNat → byte j = none → (∀ k, k < j → (byte k).isSome = true) →
    s.chunk i (off.toNat + j) = 0 ∨ ∀ k, k < j →
      (off.toNat + k) / bsize = (off.toNat + j) / bsize → byte k = some (s.byte i (off.toNat + k))

section

variable {off tot : ℕ} {src : Source}

/-- A block that a file got while it was written was free before. -/
theorem Writing.bitmap_of_new {top : ℕ} (h : Inv sb s) (hw : Writing sb i off src.byte s tot top s')
    (hold : s.fileBlock i k = 0) (hnew : s'.fileBlock i k ≠ 0) :
    s.bitmap (s'.fileBlock i k) = false ∧ s'.bitmap (s'.fileBlock i k) = true := by
  cases hslot : slotOf k with
  | none => exact absurd (State.fileBlock_of_none hslot) hnew
  | some y =>
    rw [State.fileBlock_of_slot hslot] at hold hnew ⊢
    refine ⟨?_, hw.inv.exact.bit_ref hnew⟩
    by_contra htrue
    rcases (h.exact.marked _).mp (by simpa using htrue) with hmeta | ⟨-, x, hx⟩
    · exact hw.inv.exact.apart _ hnew hmeta
    · -- the slot it was in before has it still
      have hx0 : s.ref x ≠ 0 := by rwa [hx]
      have hkept := hw.ext.kept x hx0
      have hsame := hw.inv.exact.once x (i, y) (by rwa [hkept]) (by rw [hkept, hx])
      rw [hsame, hold] at hx0
      exact hx0 rfl

/-- The block of the bytes that come next is none of those that have been logged. -/
theorem Touched.not_chunk (h : Inv sb s) (hw : Writing sb i off src.byte s tot tot s')
    (hstart : tot = 0 ∨ (off + tot) % bsize = 0) (hchunk : s.chunk i (off + tot) ≠ 0) :
    ¬ Touched i off tot s s' (s.chunk i (off + tot)) := by
  have heq : s'.chunk i (off + tot) = s.chunk i (off + tot) := hw.ext.fileBlock_eq hchunk
  have hslots : ∃ y, slotOf ((off + tot) / bsize) = some y := by
    cases hslot : slotOf ((off + tot) / bsize) with
    | none => exact absurd (State.fileBlock_of_none hslot) hchunk
    | some y => exact ⟨y, rfl⟩
  obtain ⟨y, hslot⟩ := hslots
  rintro (hbit | ⟨-, hptr⟩ | ⟨k, hk, hb⟩)
  · have hne := hchunk
    unfold State.chunk at hbit hne
    rw [State.fileBlock_of_slot hslot] at hbit hne
    exact absurd (hbit.symm.trans (h.exact.bit_ref hne)) Bool.false_ne_true
  · have hne : s'.ref (i, .addr indirect) ≠ 0 := by rwa [hptr]
    have hsame := hw.inv.exact.once (i, .addr indirect) (i, y) hne (by
      rw [hptr, ← heq]
      exact State.fileBlock_of_slot hslot)
    exact slotOf_ne_indirect hslot (congrArg Prod.snd hsame).symm
  · have hne : s'.chunk i (off + k) ≠ 0 := by rwa [hb]
    obtain ⟨-, hdiv⟩ := hw.inv.toBooks.fileBlock_inj hne (hb.trans heq.symm)
    unfold bsize at *
    omega

/-- What the contents and the log are when the loop leaves nothing behind. -/
theorem Writing.reports {P : ℕ → Prop} (h : Good sb s) (hi : s.Held i)
    (hw : Writing sb i off src.byte s tot tot s') (hlogs : Logs P s s')
    (hoff : off ≤ (s.cur i).size) :
    (finish i (off + tot) s').contents i = splice (s.contents i) off (src.first tot)
      ∧ ∃ l, (finish i (off + tot) s').logged = l ++ s.logged
        ∧ ∀ b, (finish i (off + tot) s').block b ≠ s.block b → LogBlock.data b ∈ l := by
  refine ⟨hw.contents_finish h hi hoff (fun k hge hlt => by omega), ?_⟩
  obtain ⟨l, hl, hmem, -⟩ := hlogs
  refine ⟨.inodes (i / ipb) :: l, ?_, fun b hb => List.mem_cons_of_mem _ (hmem b (Or.inl hb))⟩
  show LogBlock.inodes (i / ipb) :: s'.logged = _
  rw [hl]
  rfl

/-- The copy stops in a block that the file has only now. -/
theorem Writing.reports_new {P : ℕ → Prop} (h : Good sb s) (hi : s.Held i)
    (hw : Writing sb i off src.byte s tot tot s') (hlogs : Logs P s s')
    (hoff : off ≤ (s.cur i).size) (hblock : (off + tot) % bsize + c < bsize)
    (hchunk : s'.chunk i (off + tot) ≠ 0) (hsome : ∀ k, k < c → (src.byte (tot + k)).isSome = true)
    (hnew : s.chunk i (off + tot) = 0) {blk : Block}
    (heq : blk = (s'.block (s'.chunk i (off + tot))).fill ((off + tot) % bsize)
      (fun k => (src.byte (tot + k)).getD 0) c) :
    (finish i (off + tot) (s'.setBlock (s'.chunk i (off + tot)) blk)).contents i
        = splice (s.contents i) off (src.first tot)
      ∧ ∃ l, (finish i (off + tot) (s'.setBlock (s'.chunk i (off + tot)) blk)).logged
          = l ++ s.logged
        ∧ ∀ b, (finish i (off + tot) (s'.setBlock (s'.chunk i (off + tot)) blk)).block b
          ≠ s.block b → LogBlock.data b ∈ l := by
  have hpart := hw.setBlock rfl hchunk (Nat.le_of_lt hblock) hsome
  rw [← heq] at hpart
  have hw' : Writing sb i off src.byte s tot (tot + c)
      (s'.setBlock (s'.chunk i (off + tot)) blk) :=
    ⟨hpart.inv, hpart.ext, fun k hk => hpart.written k (by omega), hpart.old⟩
  constructor
  · -- the block is behind the end of the file
    apply hw'.contents_finish h hi hoff
    intro k hge hlt
    by_contra hsize
    have hmapped := (h.solid i (h.type_ne hi)).block_ne (k / bsize) (by
      have hle := Nat.div_mul_le_self k bsize
      omega)
    apply hmapped
    have hdiv : k / bsize = (off + tot) / bsize := by
      unfold bsize at *
      omega
    rw [hdiv]
    exact hnew
  · obtain ⟨l, hl, hmem, -⟩ := hlogs
    refine ⟨.inodes (i / ipb) :: l, ?_, fun b hb => ?_⟩
    · show LogBlock.inodes (i / ipb) :: s'.logged = _
      rw [hl]
      rfl
    · apply List.mem_cons_of_mem
      apply hmem b
      by_cases hbc : b = s'.chunk i (off + tot)
      · right
        rw [hbc]
        exact hw.bitmap_of_new h.toInv hnew hchunk
      · left
        intro hsame
        apply hb
        rw [← hsame]
        exact update_of_ne hbc ..

/-- The bytes that were copied were in the block. -/
theorem Writing.fill_eq (hw : Writing sb i off src.byte s tot tot s')
    (hblock : (off + tot) % bsize + c < bsize) (hold : s.chunk i (off + tot) ≠ 0)
    (hbytes : ∀ k, k < c → src.byte (tot + k) = some (s.byte i (off + tot + k))) :
    (s'.block (s'.chunk i (off + tot))).fill ((off + tot) % bsize)
      (fun k => (src.byte (tot + k)).getD 0) c = s'.block (s'.chunk i (off + tot)) := by
  funext q
  unfold Block.fill
  split_ifs with hq
  · obtain ⟨k, rfl⟩ := Nat.exists_eq_add_of_le hq.1
    obtain ⟨hdiv, hmod⟩ := within_block (p := off + tot) (k := k) (by omega)
    have hbyte := hw.old i (off + tot + k) (by rw [hdiv]; exact hold) (by omega)
    dsimp only
    rw [Nat.add_sub_cancel_left, hbytes k (by omega), ← hbyte]
    unfold State.byte State.chunk
    rw [hdiv, hmod]
    rfl
  · rfl

/-- A byte of a block of the file has been changed, and the block has not been logged. -/
theorem Writing.not_logged (h : Inv sb s) (hw : Writing sb i off src.byte s tot tot s')
    (hlogs : Logs (Touched i off tot s s') s s') (hstart : tot = 0 ∨ (off + tot) % bsize = 0)
    (hblock : (off + tot) % bsize + c < bsize) (hold : s.chunk i (off + tot) ≠ 0) (hk : k < c)
    {v : UInt8} (hv : src.byte (tot + k) = some v) (hne : v ≠ s.byte i (off + tot + k))
    {l : List LogBlock} {blk : Block}
    (heq : blk = (s'.block (s'.chunk i (off + tot))).fill ((off + tot) % bsize) (fun k => (src.byte
      (tot + k)).getD 0) c)
    (hl : (finish i (off + tot) (s'.setBlock (s'.chunk i (off + tot)) blk)).logged
      = l ++ s.logged) :
    ∃ b, (finish i (off + tot) (s'.setBlock (s'.chunk i (off + tot)) blk)).block b ≠ s.block b
      ∧ LogBlock.data b ∉ l := by
  have hsame : s'.chunk i (off + tot) = s.chunk i (off + tot) := hw.ext.fileBlock_eq hold
  refine ⟨s.chunk i (off + tot), ?_, ?_⟩
  · intro hblockeq
    have hset : (finish i (off + tot) (s'.setBlock (s'.chunk i (off + tot)) blk)).block
        (s.chunk i (off + tot)) = blk := by
      rw [← hsame]
      exact update_self ..
    rw [hset] at hblockeq
    have hbyte := congrFun hblockeq ((off + tot) % bsize + k)
    obtain ⟨hdiv, hmod⟩ := within_block (p := off + tot) (k := k) (by omega)
    rw [heq] at hbyte
    unfold Block.fill at hbyte
    rw [if_pos ⟨by omega, by omega⟩, Nat.add_sub_cancel_left] at hbyte
    dsimp only at hbyte
    rw [hv] at hbyte
    apply hne
    unfold State.byte
    rw [hdiv, hmod]
    exact hbyte
  · obtain ⟨l', hl', -, honly⟩ := hlogs
    have hcat : LogBlock.inodes (i / ipb) :: s'.logged = l ++ s.logged := hl
    rw [hl', ← List.cons_append] at hcat
    rw [← List.append_cancel_right hcat, List.mem_cons]
    rintro (hcontra | hlogged)
    · cases hcontra
    · exact Touched.not_chunk h hw hstart hold (honly _ hlogged)

end

theorem first_none_unique {byte : ℕ → Option UInt8} {j' : ℕ} (hnone : byte j = none)
    (hsome : ∀ k, k < j → (byte k).isSome = true) (hnone' : byte j' = none)
    (hsome' : ∀ k, k < j' → (byte k).isSome = true) : j' = j := by
  rcases Nat.lt_trichotomy j' j with hlt | heq | hgt
  · have hs := hsome j' hlt
    rw [hnone'] at hs
    cases hs
  · exact heq
  · have hs := hsome' j hgt
    rw [hnone] at hs
    cases hs

/-- A byte that has been written could be read. -/
theorem Writing.le_of_none {off tot top : ℕ} {byte : ℕ → Option UInt8}
    (hw : Writing sb i off byte s tot top s') (hnone : byte j = none) : tot ≤ j := by
  by_contra hlt
  have hsome := (hw.written j (by omega)).2
  rw [hnone] at hsome
  cases hsome

/-- **A faulting write changes only what it reports exactly when** the copy that fails has not
changed a block of the file. -/
theorem writei_fault_iff (h : Good sb s) (hi : s.Held i) (hpacked : Packed s i)
    (byte : ℕ → Option UInt8) (off n : UInt32) :
    ReportsExactly sb i byte off n s ↔ CleanFault s i byte off n := by
  rcases writei_cases h hi ⟨byte, true⟩ off n with ⟨hnot, hrun⟩ | ⟨hin, tot, s', hend, hrun, -⟩
  · -- the request is refused
    constructor
    · exact fun _ hin => absurd hin hnot
    · intro _ tot' s'' hrun' htot
      rw [hrun] at hrun'
      cases hrun'
      omega
  · have hprop : ReportsExactly sb i byte off n s ↔
        (finish i (off.toNat + tot) s').contents i
            = splice (s.contents i) off.toNat (Source.first ⟨byte, true⟩ tot)
          ∧ ∃ l, (finish i (off.toNat + tot) s').logged = l ++ s.logged
            ∧ ∀ b, (finish i (off.toNat + tot) s').block b ≠ s.block b → LogBlock.data b ∈ l := by
      constructor
      · intro hall
        exact hall _ _ hrun (Int.natCast_nonneg tot)
      · intro hall tot' s'' hrun' _
        rw [hrun] at hrun'
        cases hrun'
        exact hall
    rw [hprop]
    cases hend with
    | done hw hlogs =>
      refine ⟨fun _ _ j hj hnone => ?_, fun _ => hw.reports h hi hlogs hin.1⟩
      exact absurd (hw.le_of_none hnone) (Nat.not_le.mpr hj)
    | full hlt hw hlogs _ hnew =>
      refine ⟨fun _ _ j hj hnone _ => Or.inl ?_, fun _ => hw.reports h hi hlogs hin.1⟩
      have hle := hw.le_of_none hnone
      exact hpacked _ _ hnew (Nat.div_le_div_right (by omega))
    | @fault _ c s₁ hw hlogs hlt hnone hsome hstart hblock hchunk =>
      dsimp only at hnone hsome
      rw [if_pos rfl]
      obtain ⟨hdiv, -⟩ := within_block (p := off.toNat + tot) (k := c) hblock
      have hpart : ∀ k, k < c → (byte (tot + k)).isSome = true :=
        fun k hk => hsome (tot + k) (by omega)
      have hchunks : s.chunk i (off.toNat + (tot + c)) = s.chunk i (off.toNat + tot) := by
        unfold State.chunk
        rw [← Nat.add_assoc, hdiv]
      constructor
      · rintro ⟨-, l, hl, hmem⟩ _ j hj hnone' hsome'
        obtain rfl := first_none_unique hnone hsome hnone' hsome'
        rw [hchunks]
        by_contra hdirty
        rw [not_or] at hdirty
        obtain ⟨hold, hdirty⟩ := hdirty
        apply hdirty
        intro k hk hkdiv
        -- the bytes in this block are those that were copied before the fault
        have hge : tot ≤ k := by
          by_contra hlt'
          unfold bsize at *
          omega
        obtain ⟨k', rfl⟩ := Nat.exists_eq_add_of_le hge
        obtain ⟨v, hv⟩ := Option.isSome_iff_exists.mp (hpart k' (by omega))
        by_contra hne
        rw [hv, Option.some_inj, ← Nat.add_assoc] at hne
        obtain ⟨b, hchanged, hnot⟩ := hw.not_logged h.toInv hlogs hstart hblock hold
          (k := k') (by omega) hv hne rfl hl
        exact hnot (hmem b hchanged)
      · intro hclean
        by_cases hold : s.chunk i (off.toNat + tot) = 0
        · exact hw.reports_new h hi hlogs hin.1 hblock hchunk hpart hold rfl
        · have hbytes := (hclean hin (tot + c) hlt hnone hsome).resolve_left (by rwa [hchunks])
          rw [hw.fill_eq hblock hold fun k hk => ?_]
          · have hsetself : s₁.setBlock (s₁.chunk i (off.toNat + tot))
                (s₁.block (s₁.chunk i (off.toNat + tot))) = s₁ := by
              unfold State.setBlock
              rw [update_eq_self]
            rw [hsetself]
            exact hw.reports h hi hlogs hin.1
          · obtain ⟨hdiv', -⟩ := within_block (p := off.toNat + tot) (k := k) (by omega)
            rw [Nat.add_assoc]
            apply hbytes (tot + k) (by omega)
            rw [← Nat.add_assoc, hdiv', ← Nat.add_assoc, hdiv]

/-- A source that starts with what is there. -/
theorem writei_fault_iff_sample :
    ReportsExactly sampleSb 1 (fun k => if k = 0 then some 7 else none) 0 2 sample := by
  apply (writei_fault_iff sample_image.good sample_held ?_ _ 0 2).mpr
  · intro _ j hj hnone _
    right
    intro k hk _
    have hk0 : k = 0 := by
      have hj' : j < 2 := hj
      omega
    rw [hk0]
    decide +kernel
  · intro k k' hk hle
    rw [sample_image.fileBlock] at hk ⊢
    split_ifs at hk with hk0
    rw [if_neg (by omega)]

/-- **A byte that is not reported is overwritten**: the source has one byte, and then cannot be
read. -/
theorem writei_fault_overwrites :
    Good sampleSb sample ∧ sample.Held 1
      ∧ ¬ ReportsExactly sampleSb 1 (fun k => if k = 0 then some 9 else none) 0 2 sample := by
  refine ⟨sample_image.good, sample_held, fun h => ?_⟩
  have hcontents := (h 0 _ rfl (Int.le_refl 0)).1
  revert hcontents
  decide +kernel

end Xv6.Fs
