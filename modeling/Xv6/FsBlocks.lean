/-
# Which blocks an inode has (`balloc` and `bmap` of `kernel/fs.c`)

The slots of an inode are its entries of `addrs` and, if it has an indirect block, the words of
that one.  `Inv` says that the free map has exactly the blocks in the slots and the metadata, and
that the blocks before the end of a file are there.  An inode is looked at where it is up to date:
in the inode table once it has been read, else on disk.

`bmap` only adds blocks to its inode (`Grown`), and no block that was there before is written
apart from the indirect one.
-/
import Xv6.FsModel
import Xv6.Outcome
import Xv6.Owned

namespace Xv6.Fs

open Function

variable {b j k : ℕ}

open Itable (Dinode ninode naddrs)
open Owned (Exact)

/-! ## Words of a block -/

theorem Block.word_zero (j : ℕ) : Block.word (fun _ => 0) j = 0 := rfl

theorem Block.word_setWord_self (b : Block) (j : ℕ) {v : ℕ} (hv : v < 2 ^ 32) :
    (b.setWord j v).word j = v := by
  have hdiv : ∀ o, o < 4 → (4 * j + o) / 4 = j := fun o ho => by omega
  have hmod : ∀ o, o < 4 → (4 * j + o) % 4 = o := fun o ho => by omega
  have h0 := hdiv 0 (by decide)
  have h0' := hmod 0 (by decide)
  rw [Nat.add_zero] at h0 h0'
  simp only [word, setWord, h0, h0', hdiv 1 (by decide), hdiv 2 (by decide), hdiv 3 (by decide),
    hmod 1 (by decide), hmod 2 (by decide), hmod 3 (by decide), if_true, UInt8.toNat_ofNat']
  omega

theorem Block.word_setWord_of_ne (b : Block) {j' : ℕ} (v : ℕ) (h : j' ≠ j) :
    (b.setWord j v).word j' = b.word j' := by
  have hdiv : ∀ o, o < 4 → (4 * j' + o) / 4 ≠ j := fun o ho => by omega
  have h0 := hdiv 0 (by decide)
  rw [Nat.add_zero] at h0
  simp only [word, setWord, if_neg h0, if_neg (hdiv 1 (by decide)), if_neg (hdiv 2 (by decide)),
    if_neg (hdiv 3 (by decide))]

/-! ## Slots -/

/-- A place for a block number in an inode: an entry of `addrs`, or one of the indirect block. -/
inductive Slot where
  | addr (k : Fin naddrs)
  | entry (j : Fin nindirect)
  deriving DecidableEq

variable {y : Slot}

/-- The number in a slot of an inode. -/
def slotAddr (block : ℕ → Block) (d : Dinode) : Slot → ℕ
  | .addr k => d.addrs k
  | .entry j => if d.addrs indirect = 0 then 0 else (block (d.addrs indirect)).word j

/-- The number in a slot; an inode that is free has none. -/
def refOf (block : ℕ → Block) (cur : ℕ → Dinode) (x : ℕ × Slot) : ℕ :=
  if (cur x.1).type = 0 then 0 else slotAddr block (cur x.1) x.2

/-- The slot of the block `k` of a file. -/
def slotOf (k : ℕ) : Option Slot :=
  if h : k < ndirect then some (.addr (direct ⟨k, h⟩))
  else if h : k - ndirect < nindirect then some (.entry ⟨k - ndirect, h⟩)
  else none

theorem direct_ne_indirect (k : Fin ndirect) : direct k ≠ indirect := by
  intro h
  have hval := congrArg Fin.val h
  exact absurd hval (Nat.ne_of_lt k.isLt)

theorem slotOf_of_lt (h : k < ndirect) : slotOf k = some (.addr (direct ⟨k, h⟩)) :=
  dif_pos h

theorem slotOf_of_ge (h : ¬ k < ndirect) (hk : k - ndirect < nindirect) :
    slotOf k = some (.entry ⟨k - ndirect, hk⟩) := by
  unfold slotOf
  rw [dif_neg h, dif_pos hk]

theorem slotOf_ne_indirect (h : slotOf k = some y) : y ≠ .addr indirect := by
  rintro rfl
  by_cases hk : k < ndirect
  · rw [slotOf_of_lt hk, Option.some_inj, Slot.addr.injEq] at h
    exact direct_ne_indirect _ h
  · by_cases hk' : k - ndirect < nindirect
    · rw [slotOf_of_ge hk hk'] at h
      cases h
    · unfold slotOf at h
      rw [dif_neg hk, dif_neg hk'] at h
      cases h

/-- The block of a file is in one slot. -/
theorem slotOf_inj {k' : ℕ} (h : slotOf k = some y) (h' : slotOf k' = some y) : k = k' := by
  unfold slotOf at h h'
  split_ifs at h h' <;> rw [← h', Option.some_inj] at h <;>
    simp only [Slot.addr.injEq, Slot.entry.injEq, direct, Fin.mk.injEq, reduceCtorEq] at h <;> omega

/-! ## Inodes as they are now -/

namespace State

/-- The inode is in the table, and has been read. -/
def Held (s : State) (i : ℕ) : Prop := 0 < (s.inode i).ref ∧ (s.inode i).valid = true

instance (s : State) (i : ℕ) : Decidable (s.Held i) := inferInstanceAs (Decidable (_ ∧ _))

/-- The inode where it is up to date. -/
def cur (s : State) (i : ℕ) : Dinode := if s.Held i then s.copy i else s.dinode i

/-- The number in a slot. -/
def ref (s : State) : ℕ × Slot → ℕ := refOf s.block s.cur

/-- The block `k` of the file `i`, or `0`. -/
def fileBlock (s : State) (i k : ℕ) : ℕ := ((slotOf k).map fun y => s.ref (i, y)).getD 0

variable {s : State} {i : ℕ}

theorem cur_of_held (h : s.Held i) : s.cur i = s.copy i := if_pos h

theorem cur_of_not_held (h : ¬ s.Held i) : s.cur i = s.dinode i := if_neg h

theorem cur_congr {s' : State} (hinode : s'.inode = s.inode) (hdinode : s'.dinode = s.dinode) :
    s'.cur = s.cur := by
  cases s
  cases s'
  cases hinode
  cases hdinode
  rfl

theorem fileBlock_of_slot (h : slotOf k = some y) : s.fileBlock i k = s.ref (i, y) := by
  unfold fileBlock
  rw [h]
  rfl

theorem fileBlock_of_none (h : slotOf k = none) : s.fileBlock i k = 0 := by
  unfold fileBlock
  rw [h]
  rfl

@[simp] theorem copy_setCopy (d : Dinode) : (s.setCopy i d).copy i = d := by
  simp [setCopy, setInode, copy]

theorem held_setCopy (d : Dinode) (j : ℕ) : (s.setCopy i d).Held j ↔ s.Held j := by
  by_cases hj : j = i
  · subst hj
    simp [setCopy, setInode, Held]
  · simp [setCopy, setInode, Held, hj]

/-- Changing what the table has of an inode that has been read. -/
theorem cur_setCopy (h : s.Held i) (d : Dinode) :
    (s.setCopy i d).cur = update s.cur i d := by
  funext j
  by_cases hj : j = i
  · subst hj
    rw [cur_of_held ((held_setCopy d j).mpr h), copy_setCopy, update_self]
  · rw [update_of_ne hj]
    simp only [cur, held_setCopy]
    simp [setCopy, setInode, copy, hj]

theorem ref_eq (h : (s.cur i).type ≠ 0) (y : Slot) :
    s.ref (i, y) = slotAddr s.block (s.cur i) y := if_neg h

end State

/-! ## What happens to the slots -/

section

variable {block : ℕ → Block} {cur : ℕ → Dinode}

/-- Writing a block that is no indirect block changes no slot. -/
theorem refOf_update_block (blk : Block)
    (h : ∀ j, refOf block cur (j, .addr indirect) ≠ 0 → refOf block cur (j, .addr indirect) ≠ b) :
    refOf (update block b blk) cur = refOf block cur := by
  funext ⟨j, y⟩
  unfold refOf
  split_ifs with htype
  · rfl
  · cases y with
    | addr k => rfl
    | entry k =>
      unfold slotAddr
      split_ifs with haddr
      · rfl
      · have hj : refOf block cur (j, .addr indirect) = (cur j).addrs indirect := if_neg htype
        have hb := h j (by rwa [hj])
        rw [hj] at hb
        rw [update_of_ne hb]

/-- Writing an entry of `addrs`, with nothing in an indirect block that comes or goes. -/
theorem refOf_update_addr {i : ℕ} {k : Fin naddrs} (htype : (cur i).type ≠ 0)
    (h : k = indirect → ((cur i).addrs indirect = 0 ∨
        ∀ j : Fin nindirect, refOf block cur (i, .entry j) = 0)
      ∧ (b = 0 ∨ ∀ j, (block b).word j = 0)) :
    refOf block (update cur i { cur i with addrs := update (cur i).addrs k b })
      = update (refOf block cur) (i, .addr k) b := by
  funext ⟨j, y⟩
  by_cases hj : j = i
  · subst hj
    simp only [refOf, update_self, if_neg htype]
    cases y with
    | addr k' =>
      by_cases hk : k' = k
      · subst hk
        simp [slotAddr]
      · simp [slotAddr, hk, refOf, htype]
    | entry l =>
      rw [update_of_ne (by simp)]
      simp only [slotAddr, refOf, if_neg htype]
      by_cases hk : k = indirect
      · subst hk
        obtain ⟨hold, hnew⟩ := h rfl
        rw [update_self]
        have hzero : (if (cur j).addrs indirect = 0 then 0
            else (block ((cur j).addrs indirect)).word l) = 0 := by
          rcases hold with hold | hold
          · exact if_pos hold
          · have hl := hold l
            simpa only [refOf, if_neg htype, slotAddr] using hl
        rw [hzero]
        rcases hnew with hnew | hnew
        · exact if_pos hnew
        · rw [hnew, ite_self]
      · rw [update_of_ne (Ne.symm hk)]
  · have hne : (j, y) ≠ (i, Slot.addr k) := fun heq => hj (congrArg Prod.fst heq)
    rw [update_of_ne hne]
    simp only [refOf, update_of_ne hj]

/-- Writing a word of an indirect block. -/
theorem refOf_update_word {i v : ℕ} {j : Fin nindirect} (htype : (cur i).type ≠ 0)
    (hb : (cur i).addrs indirect = b) (h0 : b ≠ 0) (hv : v < 2 ^ 32)
    (h : ∀ i', i' ≠ i → refOf block cur (i', .addr indirect) ≠ b) :
    refOf (update block b ((block b).setWord j v)) cur
      = update (refOf block cur) (i, .entry j) v := by
  funext ⟨i', y⟩
  by_cases hi : i' = i
  · subst hi
    simp only [refOf, if_neg htype]
    cases y with
    | addr k =>
      rw [update_of_ne (by simp)]
      simp [slotAddr, refOf, htype]
    | entry l =>
      simp only [slotAddr, hb, if_neg h0, update_self]
      by_cases hl : l = j
      · subst hl
        rw [Block.word_setWord_self _ _ hv, update_self]
      · have hne : (i', Slot.entry l) ≠ (i', Slot.entry j) := by
          simpa using hl
        rw [update_of_ne hne,
          Block.word_setWord_of_ne _ _ (fun heq => hl (Fin.ext heq))]
        simp only [refOf, if_neg htype, slotAddr, hb, if_neg h0]
  · have hne : (i', y) ≠ (i, Slot.entry j) := fun heq => hi (congrArg Prod.fst heq)
    rw [update_of_ne hne]
    unfold refOf
    split_ifs with ht
    · rfl
    · cases y with
      | addr k => rfl
      | entry l =>
        have hother := h i' hi
        simp only [refOf, if_neg ht, slotAddr] at hother
        simp only [slotAddr, update_of_ne hother]

end

/-! ## The invariant -/

/-- The failures that never happen; a loop that does not end is one of them. -/
def Bad (e : Fault) : Prop :=
  e = .panic "freeing free block" ∨ e = .panic "bmap: out of range" ∨ e = .noReturn

instance (e : Fault) : Decidable (Bad e) := inferInstanceAs (Decidable (_ ∨ _ ∨ _))

/-- The blocks before the end of the file `i` are there, and it is not too long. -/
structure Solid (s : State) (i : ℕ) : Prop where
  size_le : (s.cur i).size ≤ maxfile * bsize
  block_ne : ∀ k, k * bsize < (s.cur i).size → s.fileBlock i k ≠ 0

/-- The books of the blocks are right. -/
structure Books (sb : Superblock) (s : State) : Prop where
  exact : Exact s.ref s.bitmap sb.Meta
  typed : ∀ i, s.Held i → (s.copy i).type ≠ 0

/-- The books are right, and no file has a hole. -/
structure Inv (sb : Superblock) (s : State) : Prop extends Books sb s where
  solid : ∀ i, (s.cur i).type ≠ 0 → Solid s i

theorem Books.type_ne {sb : Superblock} {s : State} {i : ℕ} (h : Books sb s) (hi : s.Held i) :
    (s.cur i).type ≠ 0 := by
  rw [State.cur_of_held hi]
  exact h.typed i hi

/-- What may happen to the state when the inode `i` is given blocks and written to. -/
structure Extends (i : ℕ) (s s' : State) : Prop where
  dinode : s'.dinode = s.dinode
  refs : ∀ j, (s'.inode j).ref = (s.inode j).ref
  valid : ∀ j, (s'.inode j).valid = (s.inode j).valid
  other : ∀ j, j ≠ i → s'.copy j = s.copy j
  fields : { s'.copy i with addrs := (s.copy i).addrs } = s.copy i
  kept : ∀ x, s.ref x ≠ 0 → s'.ref x = s.ref x
  others : ∀ j y, j ≠ i → s'.ref (j, y) = s.ref (j, y)
  bits : ∀ b, s.bitmap b = true → s'.bitmap b = true

namespace Extends

variable {i : ℕ} {s s' s'' : State}

theorem refl (i : ℕ) (s : State) : Extends i s s :=
  ⟨rfl, fun _ => rfl, fun _ => rfl, fun _ _ => rfl, rfl, fun _ _ => rfl, fun _ _ _ => rfl,
    fun _ h => h⟩

theorem held_iff (h : Extends i s s') (j : ℕ) : s'.Held j ↔ s.Held j := by
  unfold State.Held
  rw [h.refs, h.valid]

/-- A block of a file stays where it is. -/
theorem fileBlock_eq (h : Extends i s s') (hk : s.fileBlock j k ≠ 0) :
    s'.fileBlock j k = s.fileBlock j k := by
  cases hy : slotOf k with
  | none => exact absurd (State.fileBlock_of_none hy) hk
  | some y =>
    rw [State.fileBlock_of_slot hy] at hk ⊢
    rw [State.fileBlock_of_slot hy]
    exact h.kept _ hk

theorem trans (h : Extends i s s') (h' : Extends i s' s'') : Extends i s s'' where
  dinode := h'.dinode.trans h.dinode
  refs := fun j => (h'.refs j).trans (h.refs j)
  valid := fun j => (h'.valid j).trans (h.valid j)
  other := fun j hj => (h'.other j hj).trans (h.other j hj)
  fields := by
    have hfields := h.fields
    have hfields' := h'.fields
    rw [← hfields'] at hfields
    exact hfields
  kept := by
    intro x hx
    have hx' := h.kept x hx
    rw [h'.kept x (by rwa [hx']), hx']
  others := fun j y hj => (h'.others j y hj).trans (h.others j y hj)
  bits := fun b hb => h'.bits b (h.bits b hb)

theorem cur_eq (h : Extends i s s') (j : ℕ) :
    { s'.cur j with addrs := (s.cur j).addrs } = s.cur j := by
  unfold State.cur
  simp only [h.held_iff]
  split_ifs with hj
  · by_cases hji : j = i
    · rw [hji]
      exact h.fields
    · rw [h.other j hji]
  · rw [h.dinode]

theorem size_eq (h : Extends i s s') (j : ℕ) : (s'.cur j).size = (s.cur j).size := by
  rw [← h.cur_eq j]

theorem type_eq (h : Extends i s s') (j : ℕ) : (s'.cur j).type = (s.cur j).type := by
  rw [← h.cur_eq j]

/-- No file gets a hole. -/
theorem solid (h : Extends i s s') (hsolid : Solid s j) :
    Solid s' j where
  size_le := by
    rw [h.size_eq]
    exact hsolid.size_le
  block_ne := by
    intro k hk
    rw [h.size_eq] at hk
    have hne := hsolid.block_ne k hk
    rwa [h.fileBlock_eq hne]

theorem inv {sb : Superblock} (h : Extends i s s') (hinv : Inv sb s) (hbooks : Books sb s') :
    Inv sb s' where
  toBooks := hbooks
  solid := by
    intro j hj
    rw [h.type_eq] at hj
    exact h.solid (hinv.solid j hj)

end Extends

/-- Blocks are added to the inode `i`, and the blocks of the files are as they were. -/
structure Grown (i : ℕ) (s s' : State) : Prop extends Extends i s s' where
  data : ∀ j k, s.fileBlock j k ≠ 0 → s'.block (s.fileBlock j k) = s.block (s.fileBlock j k)

theorem Grown.refl (i : ℕ) (s : State) : Grown i s s := ⟨Extends.refl i s, fun _ _ _ => rfl⟩

theorem Grown.trans {i : ℕ} {s s' s'' : State} (h : Grown i s s') (h' : Grown i s' s'') :
    Grown i s s'' where
  toExtends := h.toExtends.trans h'.toExtends
  data := by
    intro j k hk
    have hk' := h.fileBlock_eq hk
    have hdata := h'.data j k (by rwa [hk'])
    rw [hk'] at hdata
    rw [hdata, h.data j k hk]

/-- Every block that has been written or allocated since has been logged since, and only blocks
with `P` have been. -/
def Logs (P : ℕ → Prop) (s s' : State) : Prop :=
  ∃ l, s'.logged = l ++ s.logged
    ∧ (∀ b, s'.block b ≠ s.block b ∨ (s.bitmap b = false ∧ s'.bitmap b = true) →
      LogBlock.data b ∈ l)
    ∧ ∀ b, LogBlock.data b ∈ l → P b

namespace Logs

variable {P P' Q : ℕ → Prop} {s s' s'' : State}

theorem refl (P : ℕ → Prop) (s : State) : Logs P s s := by
  refine ⟨[], rfl, fun b hb => ?_, fun b hb => by cases hb⟩
  rcases hb with hb | ⟨hfalse, htrue⟩
  · exact absurd rfl hb
  · rw [hfalse] at htrue
    cases htrue

theorem trans (h : Logs P s s') (h' : Logs P' s' s'') (hP : ∀ b, P b → Q b)
    (hP' : ∀ b, P' b → Q b) : Logs Q s s'' := by
  obtain ⟨l, hl, hmem, honly⟩ := h
  obtain ⟨l', hl', hmem', honly'⟩ := h'
  refine ⟨l' ++ l, by rw [hl', hl, List.append_assoc], fun b hb => ?_, fun b hb => ?_⟩
  · by_cases hin : LogBlock.data b ∈ l
    · exact List.mem_append_right _ hin
    · -- the block has not changed in the first part
      have hnot := mt (hmem b) hin
      rw [not_or, not_not] at hnot
      apply List.mem_append_left
      apply hmem'
      rcases hb with hb | ⟨hfalse, htrue⟩
      · left
        rwa [hnot.1]
      · right
        refine ⟨?_, htrue⟩
        by_contra htrue'
        exact hnot.2 ⟨hfalse, by simpa using htrue'⟩
  · rcases List.mem_append.mp hb with hb | hb
    · exact hP' b (honly' b hb)
    · exact hP b (honly b hb)

/-- Writing a block and logging it. -/
theorem setBlock (blk : Block) (hb : P b) : Logs P s ((s.setBlock b blk).logWrite (.data b)) := by
  refine ⟨[.data b], rfl, fun c hc => ?_, fun c hc => ?_⟩
  · have heq : c = b := by
      by_contra hne
      rcases hc with hc | ⟨hfalse, htrue⟩
      · exact hc (update_of_ne hne ..)
      · exact absurd (hfalse.symm.trans htrue) Bool.false_ne_true
    rw [heq]
    exact List.mem_singleton_self _
  · obtain rfl : c = b := LogBlock.data.inj (List.mem_singleton.mp hc)
    exact hb

end Logs

/-- There is no free block. -/
def Full (sb : Superblock) (s : State) : Prop := ∀ b, b < sb.size → s.bitmap b = true

/-! ## `balloc` -/

section

variable {sb : Superblock} {s : State} {i : ℕ}

theorem balloc_cases (sb : Superblock) (s : State) :
    (balloc sb s).1 = 0 ∧ (balloc sb s).2 = { s with ballocs := s.ballocs + 1 } ∧ Full sb s
      ∨ (balloc sb s).1 < sb.size ∧ s.bitmap (balloc sb s).1 = false
        ∧ (balloc sb s).2.bitmap = update s.bitmap (balloc sb s).1 true
        ∧ (balloc sb s).2.block = update s.block (balloc sb s).1 (fun _ => 0)
        ∧ (balloc sb s).2.dinode = s.dinode ∧ (balloc sb s).2.inode = s.inode
        ∧ Logs (fun b => s.bitmap b = false) s (balloc sb s).2 := by
  unfold balloc
  dsimp only
  cases hfind : (List.range sb.size).find? (fun b => !s.bitmap b) with
  | none =>
    refine Or.inl ⟨rfl, rfl, fun b hb => ?_⟩
    have hnone := List.find?_eq_none.mp hfind b (List.mem_range.mpr hb)
    simpa using hnone
  | some b =>
    have hmem := List.mem_range.mp (List.mem_of_find?_eq_some hfind)
    have hfree := List.find?_some hfind
    have hbit : s.bitmap b = false := by simpa using hfree
    refine Or.inr ⟨hmem, hbit, rfl, rfl, rfl, rfl, [.data b, .bitmap (b / bpb)], rfl, ?_, ?_⟩
    · -- the new block is the only one that is written, and the only one that is allocated
      intro c hc
      have heq : c = b := by
        by_contra hne
        rcases hc with hc | ⟨hfalse, htrue⟩
        · exact hc (update_of_ne hne ..)
        · have hsame : update s.bitmap b true c = s.bitmap c := update_of_ne hne ..
          exact absurd (hfalse.symm.trans (hsame.symm.trans htrue)) Bool.false_ne_true
      rw [heq]
      exact List.mem_cons_self
    · intro c hc
      have heq : c = b := by simpa using hc
      rw [heq]
      exact hbit

/-- The boot block is never free. -/
theorem Books.ne_zero (h : Books sb s) (hb : s.bitmap b = false) : b ≠ 0 := by
  rintro rfl
  have hmeta : sb.Meta 0 := Nat.sub_pos_of_lt sb.boot
  rw [(h.exact.marked 0).mpr (Or.inl hmeta)] at hb
  cases hb

/-- A count of the calls of `balloc` changes nothing. -/
theorem Grown.ballocs (i : ℕ) (s : State) (n : ℕ) : Grown i s { s with ballocs := n } :=
  ⟨⟨rfl, fun _ => rfl, fun _ => rfl, fun _ _ => rfl, rfl, fun _ _ => rfl, fun _ _ _ => rfl,
    fun _ h => h⟩, fun _ _ _ => rfl⟩

theorem Books.of_ballocs (h : Books sb s) (n : ℕ) : Books sb { s with ballocs := n } :=
  ⟨h.exact, h.typed⟩

/-! ## `bmap` -/

/-- What it means that `r` has the block in a slot of the inode `i`, which may have been added, and
the state then. -/
structure Mapped (sb : Superblock) (i : ℕ) (y : Slot) (s : State) (r : ℕ × State) : Prop where
  inv : Inv sb r.2
  grown : Grown i s r.2
  at_slot : r.1 ≠ 0 → r.2.ref (i, y) = r.1
  same : s.ref (i, y) ≠ 0 → r = (s.ref (i, y), s)
  only : ∀ y', y' ≠ y → r.2.ref (i, y') = s.ref (i, y')
  full : r.1 = 0 → Full sb r.2
  logs : Logs (fun b => s.bitmap b = false ∨ (b ≠ 0 ∧ r.2.ref (i, .addr indirect) = b)) s r.2

theorem Mapped.none (h : Inv sb s) (hy : s.ref (i, y) = 0) (hfull : Full sb s) :
    Mapped sb i y s (0, { s with ballocs := s.ballocs + 1 }) where
  inv := (Grown.ballocs i s _).inv h (h.toBooks.of_ballocs _)
  grown := Grown.ballocs i s _
  at_slot := fun hne => absurd rfl hne
  same := fun hne => absurd hy hne
  only := fun _ _ => rfl
  full := fun _ => hfull
  logs := Logs.refl _ s

/-- A free block is put into an empty slot, and nothing is written but this block and the indirect
one. -/
theorem Mapped.take {s' : State} (h : Inv sb s) (hb : s.bitmap b = false) (hy : s.ref (i, y) = 0)
    (hbit : s'.bitmap = update s.bitmap b true) (href : s'.ref = update s.ref (i, y) b)
    (hdinode : s'.dinode = s.dinode)
    (hinode : ∀ j, (s'.inode j).ref = (s.inode j).ref ∧ (s'.inode j).valid = (s.inode j).valid)
    (hother : ∀ j, j ≠ i → s'.copy j = s.copy j)
    (hfields : { s'.copy i with addrs := (s.copy i).addrs } = s.copy i)
    (hblock : ∀ c, c ≠ b → c ≠ s.ref (i, .addr indirect) → s'.block c = s.block c)
    (hlogs : Logs (fun b => s.bitmap b = false ∨ (b ≠ 0 ∧ s'.ref (i, .addr indirect) = b)) s s') :
    Mapped sb i y s (b, s') := by
  have hkept : ∀ x, s.ref x ≠ 0 → s'.ref x = s.ref x := by
    intro x hx
    have hne : x ≠ (i, y) := by
      rintro rfl
      exact hx hy
    rw [href, update_of_ne hne]
  have hgrown : Grown i s s' := {
    dinode := hdinode
    refs := fun j => (hinode j).1
    valid := fun j => (hinode j).2
    other := hother
    fields := hfields
    kept := hkept
    others := by
      intro j y' hj
      have hne : (j, y') ≠ (i, y) := fun heq => hj (congrArg Prod.fst heq)
      rw [href, update_of_ne hne]
    bits := by
      intro c hc
      rw [hbit, update_apply]
      split_ifs
      · rfl
      · exact hc
    data := by
      intro j k hk
      cases hslot : slotOf k with
      | none => exact absurd (State.fileBlock_of_none hslot) hk
      | some y' =>
        rw [State.fileBlock_of_slot hslot] at hk ⊢
        apply hblock
        · exact h.exact.ref_ne hb hk
        · apply h.exact.ref_ne_ref hk
          intro heq
          exact slotOf_ne_indirect hslot (congrArg Prod.snd heq) }
  have hbooks : Books sb s' := {
    exact := by
      rw [href, hbit]
      exact h.exact.take hb (h.toBooks.ne_zero hb) hy
    typed := by
      intro j hj
      have hheld := (hgrown.held_iff j).mp hj
      have htype := hgrown.type_eq j
      rw [State.cur_of_held hj, State.cur_of_held hheld] at htype
      rw [htype]
      exact h.typed j hheld }
  exact {
    inv := hgrown.inv h hbooks
    grown := hgrown
    at_slot := fun _ => by
      show s'.ref (i, y) = b
      rw [href, update_self]
    same := fun hne => absurd hy hne
    only := by
      intro y' hy'
      have hne : (i, y') ≠ (i, y) := fun heq => hy' (congrArg Prod.snd heq)
      show s'.ref (i, y') = s.ref (i, y')
      rw [href, update_of_ne hne]
    full := fun hzero => absurd hzero (h.toBooks.ne_zero hb)
    logs := hlogs }

/-- Writing a block that is not in use changes no slot. -/
theorem Books.refOf_fresh (h : Books sb s) (hb : s.bitmap b = false) (blk : Block) :
    refOf (update s.block b blk) s.cur = s.ref :=
  refOf_update_block blk fun _ hj => h.exact.ref_ne hb hj

theorem bmapAddr_spec (h : Inv sb s) (hi : s.Held i) (k : Fin naddrs) :
    Mapped sb i (.addr k) s (bmapAddr sb i k s) := by
  have htype := h.type_ne hi
  have href : s.ref (i, .addr k) = (s.copy i).addrs k := by
    rw [State.ref_eq htype, slotAddr, State.cur_of_held hi]
  unfold bmapAddr
  by_cases hk : (s.copy i).addrs k = 0
  · rw [if_pos hk]
    dsimp only
    rcases balloc_cases sb s with ⟨hb, hs, hfull⟩ | ⟨-, hfree, hbit, hblock, hdinode, hinode, hlogs⟩
    · rw [if_pos hb, hs]
      exact Mapped.none h (href.trans hk) hfull
    · have hb0 := h.toBooks.ne_zero hfree
      rw [if_neg hb0]
      generalize (balloc sb s).1 = b at *
      generalize (balloc sb s).2 = s₁ at *
      have hcopy : s₁.copy i = s.copy i := congrArg Inode.copy (congrFun hinode i)
      have hcur : s₁.cur = s.cur := State.cur_congr hinode hdinode
      have hheld : s₁.Held i := by
        unfold State.Held
        rw [hinode]
        exact hi
      apply Mapped.take h hfree (href.trans hk)
      · exact hbit
      · -- the slots: the new block is empty
        show refOf s₁.block (s₁.setAddr i k b).cur = _
        unfold State.setAddr
        rw [State.cur_setCopy hheld, hcopy, hcur, hblock, ← State.cur_of_held hi,
          refOf_update_addr htype, h.toBooks.refOf_fresh hfree]
        rintro rfl
        refine ⟨Or.inl ?_, Or.inr fun j => ?_⟩
        · rwa [State.cur_of_held hi]
        · rw [update_self, Block.word_zero]
      · exact hdinode
      · intro j
        unfold State.setAddr State.setCopy State.setInode
        by_cases hj : j = i
        · subst hj
          simp [hinode]
        · simp [hinode, hj]
      · intro j hj
        unfold State.setAddr State.setCopy State.setInode State.copy
        simp [hinode, hj]
      · unfold State.setAddr
        rw [State.copy_setCopy, hcopy]
      · intro c hc _
        show s₁.block c = s.block c
        rw [hblock, update_of_ne hc]
      · exact hlogs.trans (Logs.refl _ _) (fun _ hb => Or.inl hb) (fun _ hb => hb)
  · rw [if_neg hk]
    exact ⟨h, Grown.refl i s, fun _ => href, fun _ => by rw [href], fun _ _ => rfl,
      fun hzero => absurd hzero hk, Logs.refl _ s⟩

/-- The entry of an indirect block. -/
theorem ref_entry (h : Books sb s) (hi : s.Held i) (j : Fin nindirect)
    (hne : s.ref (i, .addr indirect) ≠ 0) :
    s.ref (i, .entry j) = (s.block (s.ref (i, .addr indirect))).word j := by
  have htype := h.type_ne hi
  simp only [State.ref_eq htype, slotAddr] at hne ⊢
  rw [if_neg hne]

theorem ref_entry_eq_zero (h : Books sb s) (hi : s.Held i) (j : Fin nindirect)
    (hzero : s.ref (i, .addr indirect) = 0) : s.ref (i, .entry j) = 0 := by
  have htype := h.type_ne hi
  rw [State.ref_eq htype, slotAddr] at hzero
  rw [State.ref_eq htype, slotAddr, if_pos hzero]

theorem bmapEntry_spec (h : Inv sb s) (hi : s.Held i) (j : Fin nindirect) {addr : ℕ}
    (haddr : s.ref (i, .addr indirect) = addr) (hne : addr ≠ 0) :
    Mapped sb i (.entry j) s (bmapEntry sb addr j s) := by
  have htype := h.type_ne hi
  have href : s.ref (i, .entry j) = (s.block addr).word j := by
    rw [ref_entry h.toBooks hi j (by rwa [haddr]), haddr]
  unfold bmapEntry
  by_cases hw : (s.block addr).word j = 0
  · rw [if_pos hw]
    dsimp only
    rcases balloc_cases sb s with ⟨hb, hs, hfull⟩ | ⟨hlt, hfree, hbit, hblock, hdinode, hinode, hlogs⟩
    · rw [if_pos hb, hs]
      exact Mapped.none h (href.trans hw) hfull
    · have hb0 := h.toBooks.ne_zero hfree
      rw [if_neg hb0]
      generalize (balloc sb s).1 = b at *
      generalize (balloc sb s).2 = s₁ at *
      have hcur : s₁.cur = s.cur := State.cur_congr hinode hdinode
      have hslots : ((s₁.setBlock addr ((s₁.block addr).setWord j b)).logWrite (.data addr)).ref
          = update s.ref (i, .entry j) b := by
        -- no other inode has this indirect block
        show refOf (update s₁.block addr ((s₁.block addr).setWord j b)) s₁.cur = _
        have hfresh := h.toBooks.refOf_fresh hfree fun _ => 0
        have hptr : (s.cur i).addrs indirect = addr := by
          rw [State.ref_eq htype, slotAddr] at haddr
          exact haddr
        rw [hcur, hblock, refOf_update_word htype hptr hne (Nat.lt_trans hlt sb.size_lt), hfresh]
        intro i' hi' heq
        rw [hfresh] at heq
        have hslot := h.exact.once (i, .addr indirect) (i', .addr indirect) (by rwa [haddr])
          (haddr.trans heq.symm)
        exact hi' (congrArg Prod.fst hslot).symm
      apply Mapped.take h hfree (href.trans hw)
      · exact hbit
      · exact hslots
      · exact hdinode
      · intro j
        show (s₁.inode j).ref = _ ∧ (s₁.inode j).valid = _
        rw [hinode]
        exact ⟨rfl, rfl⟩
      · intro j _
        show (s₁.inode j).copy = _
        rw [hinode]
        rfl
      · show { (s₁.inode i).copy with addrs := (s.copy i).addrs } = s.copy i
        rw [hinode]
        rfl
      · intro c hc hc'
        show update s₁.block addr _ c = s.block c
        rw [haddr] at hc'
        rw [update_of_ne hc', hblock, update_of_ne hc]
      · refine hlogs.trans (Logs.setBlock (P := fun c => c = addr) _ rfl) (fun _ hb => Or.inl hb) ?_
        rintro c rfl
        refine Or.inr ⟨hne, ?_⟩
        rw [hslots, update_of_ne (by simp), haddr]
  · rw [if_neg hw]
    exact ⟨h, Grown.refl i s, fun _ => href, fun _ => by rw [href], fun _ _ => rfl,
      fun hzero => absurd hzero hw, Logs.refl _ s⟩

/-- What it means that `r` has the block `bn` of the file `i`, which may have been added. -/
structure MapsTo (sb : Superblock) (i bn : ℕ) (s : State) (r : ℕ × State) : Prop where
  inv : Inv sb r.2
  grown : Grown i s r.2
  at_block : r.1 ≠ 0 → r.2.fileBlock i bn = r.1
  same : s.fileBlock i bn ≠ 0 → r = (s.fileBlock i bn, s)
  only : ∀ k, k ≠ bn → r.2.fileBlock i k = s.fileBlock i k
  full : r.1 = 0 → Full sb r.2
  logs : Logs (fun b => s.bitmap b = false ∨ (b ≠ 0 ∧ r.2.ref (i, .addr indirect) = b)) s r.2

theorem Mapped.mapsTo {bn : ℕ} {r : ℕ × State} (h : Mapped sb i y s r) (hslot : slotOf bn
      = some y) :
    MapsTo sb i bn s r where
  inv := h.inv
  grown := h.grown
  at_block := by
    rw [State.fileBlock_of_slot hslot]
    exact h.at_slot
  same := by
    rw [State.fileBlock_of_slot hslot]
    exact h.same
  only := by
    intro k hk
    cases hslot' : slotOf k with
    | none => rw [State.fileBlock_of_none hslot', State.fileBlock_of_none hslot']
    | some y' =>
      rw [State.fileBlock_of_slot hslot', State.fileBlock_of_slot hslot']
      apply h.only
      rintro rfl
      exact hk (slotOf_inj hslot' hslot)
  full := h.full
  logs := h.logs

/-- The pointer to the indirect block is written, and no block of the file by that. -/
theorem Mapped.fileBlock_eq {r : ℕ × State} (h : Mapped sb i (.addr indirect) s r) (k : ℕ) :
    r.2.fileBlock i k = s.fileBlock i k := by
  cases hslot : slotOf k with
  | none => rw [State.fileBlock_of_none hslot, State.fileBlock_of_none hslot]
  | some y =>
    rw [State.fileBlock_of_slot hslot, State.fileBlock_of_slot hslot]
    exact h.only y (slotOf_ne_indirect hslot)

/-- **`bmap` finds the block or adds it**, for every block a file can have. -/
theorem bmap_spec (h : Inv sb s) (hi : s.Held i) {bn : ℕ} (hbn : bn < maxfile) :
    ∃ r, bmap sb i bn s = .ok r ∧ MapsTo sb i bn s r := by
  unfold bmap
  by_cases hlt : bn < ndirect
  · rw [dif_pos hlt]
    exact ⟨_, rfl, (bmapAddr_spec h hi (direct ⟨bn, hlt⟩)).mapsTo (slotOf_of_lt hlt)⟩
  · have hlt' : bn - ndirect < nindirect := by
      unfold maxfile at hbn
      omega
    rw [dif_neg hlt, if_pos hlt']
    have hslot := slotOf_of_ge hlt hlt'
    have hptr := bmapAddr_spec h hi indirect
    generalize bmapAddr sb i indirect s = r at hptr
    obtain ⟨addr, s₁⟩ := r
    have hblocks := hptr.fileBlock_eq
    obtain ⟨hinv, hgrown, hat, hsame, -, hfull, hlogs⟩ := hptr
    dsimp only at hinv hgrown hat hfull hlogs hblocks ⊢
    by_cases haddr : addr = 0
    · rw [if_pos haddr]
      refine ⟨_, rfl, hinv, hgrown, fun hne => absurd rfl hne, fun hne => ?_, fun k _ => hblocks k,
        fun _ => hfull haddr, hlogs⟩
      -- the inode has no indirect block, so there is nothing in its entries
      rw [State.fileBlock_of_slot hslot] at hne
      have hzero : s.ref (i, .addr indirect) = 0 := by
        by_contra hptr
        have heq := congrArg Prod.fst (hsame hptr)
        exact hptr (heq.symm.trans haddr)
      exact absurd (ref_entry_eq_zero h.toBooks hi _ hzero) hne
    · rw [if_neg haddr]
      have hentry := (bmapEntry_spec hinv ((hgrown.held_iff i).mpr hi) ⟨bn - ndirect, hlt'⟩
        (hat haddr) haddr).mapsTo hslot
      refine ⟨_, rfl, hentry.inv, hgrown.trans hentry.grown, hentry.at_block, fun hne => ?_,
        fun k hk => (hentry.only k hk).trans (hblocks k), hentry.full, ?_⟩
      · have hptr : s.ref (i, .addr indirect) ≠ 0 := by
          intro hzero
          rw [State.fileBlock_of_slot hslot] at hne
          exact hne (ref_entry_eq_zero h.toBooks hi _ hzero)
        have hs := congrArg Prod.snd (hsame hptr)
        dsimp only at hs
        subst hs
        exact hentry.same hne
      · -- the indirect block stays where it is
        apply hlogs.trans hentry.logs
        · rintro b (hb | ⟨hb0, hb⟩)
          · exact Or.inl hb
          · refine Or.inr ⟨hb0, ?_⟩
            rw [hentry.grown.kept _ (by rw [hb]; exact hb0), hb]
        · rintro b (hb | hb)
          · refine Or.inl ?_
            by_contra htrue
            have hbit := hgrown.bits b (by simpa using htrue)
            exact absurd (hb.symm.trans hbit) Bool.false_ne_true
          · exact Or.inr hb

end

end Xv6.Fs
