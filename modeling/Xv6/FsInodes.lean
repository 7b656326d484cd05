/-
# Inodes: `iupdate`, `ilock`, `iget` and `iput` of `kernel/fs.c`

Between the calls the inode table and the disk agree (`Synced`).  `Good` is the invariant then, and
for each function it is said what becomes of the references and of the inodes that have been read.
-/
import Xv6.FsBlocks

namespace Xv6.Fs

open Function

variable {j : ℕ}

open Itable (Dinode ninode naddrs)
open Owned (Exact)

variable {sb : Superblock} {s s' : State} {i : ℕ}

/-- An inode without an indirect block has nothing in its entries. -/
theorem slotAddr_entry_eq_zero {block : ℕ → Block} {d : Dinode} (h : d.addrs indirect = 0)
    (j : Fin nindirect) : slotAddr block d (.entry j) = 0 := by
  unfold slotAddr
  dsimp only
  rw [if_pos h]

/-- What a slot of another inode holds. -/
theorem State.ref_congr (hblock : s'.block = s.block) (hcur : s'.cur j = s.cur j) (y : Slot) :
    s'.ref (j, y) = s.ref (j, y) := by
  unfold State.ref refOf
  dsimp only
  rw [hblock, hcur]

theorem State.fileBlock_congr (hblock : s'.block = s.block) (hcur : s'.cur j = s.cur j) (k : ℕ) :
    s'.fileBlock j k = s.fileBlock j k := by
  unfold State.fileBlock
  simp only [State.ref_congr hblock hcur]

theorem Solid.congr (h : Solid s j) (hblock : s'.block = s.block) (hcur : s'.cur j = s.cur j) :
    Solid s' j where
  size_le := by
    rw [hcur]
    exact h.size_le
  block_ne := by
    intro k hk
    rw [hcur] at hk
    rw [State.fileBlock_congr hblock hcur]
    exact h.block_ne k hk

/-- The state after the table's and the disk's inode `i` have become `d`. -/
structure Written (i : ℕ) (d : Dinode) (s s' : State) : Prop where
  block : s'.block = s.block
  dinode : s'.dinode = update s.dinode i d
  inode : s'.inode = (s.setCopy i d).inode

namespace Written

variable {d : Dinode}

theorem held_iff (h : Written i d s s') (j : ℕ) : s'.Held j ↔ s.Held j := by
  rw [← State.held_setCopy (i := i) (s := s) d j]
  unfold State.Held
  rw [h.inode]

theorem copy_self (h : Written i d s s') : s'.copy i = d := by
  unfold State.copy
  rw [h.inode]
  exact State.copy_setCopy d

theorem copy_of_ne (h : Written i d s s') (hj : j ≠ i) : s'.copy j = s.copy j := by
  unfold State.copy
  rw [h.inode]
  simp [State.setCopy, State.setInode, hj]

theorem cur_eq (h : Written i d s s') : s'.cur = update s.cur i d := by
  funext j
  by_cases hj : j = i
  · subst hj
    rw [update_self]
    by_cases hheld : s'.Held j
    · rw [State.cur_of_held hheld, h.copy_self]
    · rw [State.cur_of_not_held hheld, h.dinode, update_self]
  · rw [update_of_ne hj]
    by_cases hheld : s.Held j
    · rw [State.cur_of_held hheld, State.cur_of_held ((h.held_iff j).mpr hheld), h.copy_of_ne hj]
    · rw [State.cur_of_not_held hheld, State.cur_of_not_held (mt (h.held_iff j).mp hheld),
        h.dinode, update_of_ne hj]

end Written

/-! ## Between the calls -/

/-- The inodes in the table are those on disk. -/
def Synced (s : State) : Prop := ∀ i, s.Held i → s.copy i = s.dinode i

/-- What holds between the calls. -/
structure Good (sb : Superblock) (s : State) : Prop extends Inv sb s where
  synced : Synced s

/-- The reference counts. -/
def State.refs (s : State) (i : ℕ) : ℕ := (s.inode i).ref

theorem Good.cur_eq (h : Good sb s) (i : ℕ) : s.cur i = s.dinode i := by
  by_cases hi : s.Held i
  · rw [State.cur_of_held hi, h.synced i hi]
  · exact State.cur_of_not_held hi

/-- The slots of one inode change, but not what is in them. -/
theorem refOf_update_same {block : ℕ → Block} {cur : ℕ → Dinode} {d : Dinode}
    (h : ∀ y, refOf block (update cur i d) (i, y) = refOf block cur (i, y)) :
    refOf block (update cur i d) = refOf block cur := by
  funext ⟨j, y⟩
  by_cases hj : j = i
  · rw [hj]
    exact h y
  · unfold refOf
    dsimp only
    rw [update_of_ne hj]

theorem written_iupdate (s : State) (i : ℕ) (d : Dinode) :
    Written i d s (iupdate i (s.setCopy i d)) where
  block := rfl
  dinode := by
    show update s.dinode i ((s.setCopy i d).copy i) = _
    rw [State.copy_setCopy]
  inode := rfl

/-! ## The inode table -/

/-- Only the table has changed, and no inode is another one by that. -/
structure Tabled (s s' : State) : Prop where
  bitmap : s'.bitmap = s.bitmap
  block : s'.block = s.block
  dinode : s'.dinode = s.dinode
  cur : s'.cur = s.cur
  ballocs : s'.ballocs = s.ballocs
  logged : s'.logged = s.logged

theorem Tabled.good (h : Good sb s) (ht : Tabled s s')
    (htyped : ∀ j, s'.Held j → (s.cur j).type ≠ 0) : Good sb s' where
  exact := by
    show Exact (refOf s'.block s'.cur) s'.bitmap sb.Meta
    rw [ht.cur, ht.block, ht.bitmap]
    exact h.exact
  typed := by
    intro j hj
    rw [← State.cur_of_held hj, ht.cur]
    exact htyped j hj
  solid := by
    intro j hj
    rw [ht.cur] at hj
    exact (h.solid j hj).congr ht.block (congrFun ht.cur j)
  synced := by
    intro j hj
    rw [← State.cur_of_held hj, ht.cur, h.cur_eq, ht.dinode]

theorem State.refs_setInode (s : State) (i : ℕ) (ip : Inode) :
    (s.setInode i ip).refs = update s.refs i ip.ref := by
  funext j
  by_cases hj : j = i
  · subst hj
    simp [State.refs, State.setInode]
  · simp [State.refs, State.setInode, hj]

/-- The entry of one inode changes. -/
theorem State.held_setInode (s : State) (i : ℕ) (ip : Inode) (j : ℕ) :
    (s.setInode i ip).Held j ↔ if j = i then 0 < ip.ref ∧ ip.valid = true else s.Held j := by
  by_cases hj : j = i
  · subst hj
    simp [State.Held, State.setInode]
  · simp [State.Held, State.setInode, hj]

theorem State.cur_setInode {ip : Inode}
    (h : (if 0 < ip.ref ∧ ip.valid = true then ip.copy else s.dinode i) = s.cur i) :
    (s.setInode i ip).cur = s.cur := by
  funext j
  unfold State.cur
  simp only [State.held_setInode]
  by_cases hj : j = i
  · subst hj
    simp only [if_true]
    rw [State.cur] at h
    rw [← h]
    simp [State.copy, State.setInode]
  · simp [hj, State.copy, State.setInode]

theorem tabled_setInode {ip : Inode}
    (h : (if 0 < ip.ref ∧ ip.valid = true then ip.copy else s.dinode i) = s.cur i) :
    Tabled s (s.setInode i ip) :=
  ⟨rfl, rfl, rfl, State.cur_setInode h, rfl, rfl⟩

/-- **`ilock`** reads the inode if that has not been done. -/
theorem ilock_spec (h : Good sb s) (i : ℕ) :
    Outcome Bad (fun s' => Good sb s' ∧ Tabled s s' ∧ s'.refs = s.refs ∧ s'.Held i
      ∧ ∀ j, s.Held j → s'.Held j) (ilock i s) := by
  unfold ilock
  by_cases href : (s.inode i).ref < 1
  · rw [if_pos href, Outcome.error_iff]
    decide
  · rw [if_neg href]
    have hpos : 0 < (s.inode i).ref := by omega
    by_cases hvalid : (s.inode i).valid = true
    · rw [if_pos hvalid, Outcome.ok_iff]
      exact ⟨h, ⟨rfl, rfl, rfl, rfl, rfl, rfl⟩, rfl, ⟨hpos, hvalid⟩, fun j hj => hj⟩
    · rw [if_neg hvalid]
      by_cases htype : (s.dinode i).type = 0
      · rw [if_pos htype, Outcome.error_iff]
        decide
      · rw [if_neg htype, Outcome.ok_iff]
        have hnot : ¬ s.Held i := fun hi => hvalid hi.2
        have htab : Tabled s (s.setInode i { s.inode i with valid := true, copy := s.dinode i }) := by
          apply tabled_setInode
          rw [State.cur_of_not_held hnot, ite_self]
        have hheld : ∀ j, s.Held j →
            (s.setInode i { s.inode i with valid := true, copy := s.dinode i }).Held j := by
          intro j hj
          rw [State.held_setInode]
          split_ifs with hji
          · exact ⟨hpos, rfl⟩
          · exact hj
        refine ⟨htab.good h ?_, htab, ?_, ?_, hheld⟩
        · intro j hj
          rw [State.held_setInode] at hj
          split_ifs at hj with hji
          · rw [hji, State.cur_of_not_held hnot]
            exact htype
          · exact h.type_ne hj
        · rw [State.refs_setInode]
          exact update_eq_self i s.refs
        · rw [State.held_setInode, if_pos rfl]
          exact ⟨hpos, rfl⟩

theorem addRef_spec (h : Good sb s) (href : 0 < s.refs i) :
    Good sb (s.setRef i (s.refs i + 1)) ∧ Tabled s (s.setRef i (s.refs i + 1))
      ∧ (s.setRef i (s.refs i + 1)).refs = update s.refs i (s.refs i + 1)
      ∧ ∀ j, (s.setRef i (s.refs i + 1)).Held j ↔ s.Held j := by
  have hheld : ∀ j, (s.setRef i (s.refs i + 1)).Held j ↔ s.Held j := by
    intro j
    unfold State.setRef
    rw [State.held_setInode]
    split_ifs with hj
    · subst hj
      exact and_congr_left fun _ => ⟨fun _ => href, fun _ => Nat.succ_pos _⟩
    · exact Iff.rfl
  have htab : Tabled s (s.setRef i (s.refs i + 1)) := by
    apply tabled_setInode
    unfold State.cur State.Held
    have hiff : 0 < s.refs i + 1 ↔ 0 < (s.inode i).ref := ⟨fun _ => href, fun _ => Nat.succ_pos _⟩
    simp only [hiff]
    rfl
  refine ⟨htab.good h fun j hj => h.type_ne ((hheld j).mp hj), htab, ?_, hheld⟩
  unfold State.setRef
  rw [State.refs_setInode]

/-- **`iget`** adds a reference, and does not read the inode. -/
theorem iget_spec (h : Good sb s) (i : ℕ) :
    Outcome Bad (fun s' => Good sb s' ∧ Tabled s s'
      ∧ s'.refs = update s.refs i (s.refs i + 1) ∧ ∀ j, s'.Held j ↔ s.Held j)
      (iget sb i s) := by
  unfold iget
  by_cases href : 0 < (s.inode i).ref
  · rw [if_pos href, Outcome.ok_iff]
    exact addRef_spec h href
  · rw [if_neg href]
    split_ifs
    · rw [Outcome.error_iff]
      decide
    · rw [Outcome.ok_iff]
      have hnot : ¬ s.Held i := fun hi => href hi.1
      have hheld : ∀ j, (s.setInode i { s.inode i with ref := 1, valid := false }).Held j
          ↔ s.Held j := by
        intro j
        rw [State.held_setInode]
        split_ifs with hj
        · subst hj
          exact ⟨fun hj => by simp at hj, fun hj => absurd hj hnot⟩
        · exact Iff.rfl
      have htab : Tabled s (s.setInode i { s.inode i with ref := 1, valid := false }) := by
        apply tabled_setInode
        rw [State.cur_of_not_held hnot]
        exact if_neg fun hv => absurd hv.2 Bool.false_ne_true
      refine ⟨htab.good h fun j hj => h.type_ne ((hheld j).mp hj), htab, ?_, hheld⟩
      have hzero : s.refs i = 0 := Nat.eq_zero_of_not_pos href
      rw [State.refs_setInode, hzero]

/-! ## `iput` -/

theorem iput_kept (h : Good sb s) (i : ℕ) :
    Good sb (s.setRef i (s.refs i - 1)) ∧ Tabled s (s.setRef i (s.refs i - 1))
      ∧ (s.setRef i (s.refs i - 1)).refs = update s.refs i (s.refs i - 1)
      ∧ ∀ j, s.Held j → j ≠ i ∨ 1 < s.refs i → (s.setRef i (s.refs i - 1)).Held j := by
  have hheld : ∀ j, (s.setRef i (s.refs i - 1)).Held j → s.Held j := by
    intro j
    unfold State.setRef
    rw [State.held_setInode]
    split_ifs with hj
    · subst hj
      exact fun hj => ⟨Nat.lt_of_lt_of_le hj.1 (Nat.sub_le _ _), hj.2⟩
    · exact id
  have htab : Tabled s (s.setRef i (s.refs i - 1)) := by
    apply tabled_setInode
    split_ifs with hi
    · exact (State.cur_of_held ⟨Nat.lt_of_lt_of_le hi.1 (Nat.sub_le _ _), hi.2⟩).symm
    · exact (h.cur_eq i).symm
  refine ⟨htab.good h fun j hj => h.type_ne (hheld j hj), htab, ?_, ?_⟩
  · unfold State.setRef
    rw [State.refs_setInode]
  · intro j hj hor
    unfold State.setRef
    rw [State.held_setInode]
    split_ifs with hji
    · subst hji
      refine ⟨?_, hj.2⟩
      have hlt : 1 < s.refs j := hor.resolve_left fun hne => hne rfl
      exact Nat.sub_pos_of_lt hlt
    · exact hj

end Xv6.Fs
