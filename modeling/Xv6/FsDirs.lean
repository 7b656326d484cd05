/-
# Directories are finite maps (`dirlink` of `kernel/fs.c`)

`dirlookup` is a map from names, cut to fourteen characters, to inodes (`dir`).  In a directory in
which no name has two entries, `dirlink` adds a name to this map if it is new and there is room for
an entry, and writing zeros to the entry that `dirlookup` has found takes the name out.  Both write
one entry, which lies in one block, so there is at most one `bmap`.
-/
import Xv6.FsPaths

namespace Xv6.Fs

open Function
open Itable (Dinode ninode naddrs)

variable {sb : Superblock} {s s' : State} {dp k : ℕ}

/-! ## The bytes of an entry -/

theorem Name.length_cut_le (name : Name) : name.cut.length ≤ dirsiz :=
  (List.takeWhile_sublist _).length_le.trans (List.length_take_le _ _)

theorem Dirent.length_toBytes (de : Dirent) : de.toBytes.length = direntSize := by
  have hle := de.name.length_cut_le
  unfold Dirent.toBytes
  simp only [List.length_append, List.length_replicate, List.length_cons, List.length_nil]
  unfold dirsiz at *
  unfold direntSize
  omega

theorem Name.cut_append_zeros {c : Name} (hle : c.length ≤ dirsiz)
    (hcut : ∀ x ∈ c, (x != 0) = true) : Name.cut (c ++ List.replicate (dirsiz - c.length) 0) = c := by
  unfold Name.cut
  rw [List.take_of_length_le, List.takeWhile_append_of_pos hcut]
  · cases dirsiz - c.length <;> simp
  · rw [List.length_append, List.length_replicate]
    omega

/-- What `strncpy` has written is read back up to the first zero. -/
theorem Dirent.ofBytes_toBytes {de : Dirent} (h : de.inum < 2 ^ 16) :
    Dirent.ofBytes de.toBytes = ⟨de.inum, de.name.cut⟩ := by
  have hnum : (UInt8.ofNat de.inum).toNat + 2 ^ 8 * (UInt8.ofNat (de.inum / 2 ^ 8)).toNat
      = de.inum := by
    rw [UInt8.toNat_ofNat', UInt8.toNat_ofNat']
    omega
  have hname := Name.cut_append_zeros de.name.length_cut_le
    fun c hc => List.mem_takeWhile_imp (p := (· != 0)) hc
  exact congrArg₂ Dirent.mk hnum hname

theorem namecmp_iff {name name' : Name} : namecmp name name' = true ↔ name.cut = name'.cut :=
  beq_iff_eq

/-- The entries of a directory after one of them has been written. -/
theorem splice_entry {c l : List UInt8} (hl : l.length = direntSize)
    (hk : k * direntSize ≤ c.length) (j : ℕ) :
    ((splice c (k * direntSize) l).drop (j * direntSize)).take direntSize
      = if j = k then l else (c.drop (j * direntSize)).take direntSize := by
  apply List.ext_getElem?
  intro m
  rw [List.getElem?_take, List.getElem?_drop, getElem?_splice hk, hl]
  unfold direntSize at *
  by_cases hm : m < 16
  · rw [if_pos hm]
    by_cases hj : j = k
    · subst hj
      rw [if_pos rfl, if_neg (by omega), if_pos (by omega), Nat.add_sub_cancel_left]
    · rw [if_neg hj, List.getElem?_take_of_lt hm, List.getElem?_drop]
      by_cases hlt : j < k
      · rw [if_pos (by omega)]
      · rw [if_neg (by omega), if_neg (by omega)]
  · rw [if_neg hm]
    split_ifs
    · exact (List.getElem?_eq_none (by omega)).symm
    · exact (List.getElem?_eq_none (by rw [List.length_take]; omega)).symm

/-! ## Blocks for a new entry -/

/-- The blocks that `balloc` can return. -/
def State.free (sb : Superblock) (s : State) : Finset ℕ :=
  (Finset.range sb.size).filter fun b => s.bitmap b = false

/-- How many blocks `bmap` has to allocate for a block of the file that is not there. -/
def State.missing (s : State) (i bn : ℕ) : ℕ :=
  if bn < ndirect ∨ s.ref (i, .addr indirect) ≠ 0 then 1 else 2

/-- The block of the file is not there, and cannot be allocated. -/
def State.NoBlock (sb : Superblock) (s : State) (i bn : ℕ) : Prop :=
  s.fileBlock i bn = 0 ∧ (s.free sb).card < s.missing i bn

section

variable {i : ℕ}

theorem balloc_eq_zero_iff (h : Books sb s) : (balloc sb s).1 = 0 ↔ (s.free sb).card = 0 := by
  rw [Finset.card_eq_zero]
  unfold State.free
  rw [Finset.filter_eq_empty_iff]
  rcases balloc_cases sb s with ⟨hzero, -, hfull⟩ | ⟨hlt, hfree, -⟩
  · refine iff_of_true hzero fun b hb => ?_
    rw [hfull b (Finset.mem_range.mp hb)]
    decide
  · exact iff_of_false (h.ne_zero hfree) fun hnone => hnone (Finset.mem_range.mpr hlt) hfree

theorem ref_addr (h : Books sb s) (hi : s.Held i) (j : Fin naddrs) :
    s.ref (i, .addr j) = (s.copy i).addrs j := by
  rw [State.ref_eq (h.type_ne hi), State.cur_of_held hi]
  rfl

/-- An empty slot gets what `balloc` returns. -/
theorem bmapAddr_fst {j : Fin naddrs} (h : (s.copy i).addrs j = 0) :
    (bmapAddr sb i j s).1 = (balloc sb s).1 := by
  unfold bmapAddr
  rw [if_pos h]
  dsimp only
  split_ifs with h0
  · exact h0.symm
  · rfl

theorem bmapEntry_fst {addr j : ℕ} (h : (s.block addr).word j = 0) :
    (bmapEntry sb addr j s).1 = (balloc sb s).1 := by
  unfold bmapEntry
  rw [if_pos h]
  dsimp only
  split_ifs with h0
  · exact h0.symm
  · rfl

/-- `bmap` finds no block if there is none and there are too few free ones. -/
theorem bmap_eq_zero_iff (h : Inv sb s) (hi : s.Held i) {bn : ℕ} (hbn : bn < maxfile)
    {r : ℕ × State} (hr : bmap sb i bn s = .ok r) :
    r.1 = 0 ↔ s.NoBlock sb i bn := by
  unfold State.NoBlock
  have hbooks := h.toBooks
  by_cases hzero : s.fileBlock i bn = 0
  · rw [and_iff_right hzero]
    unfold bmap at hr
    unfold State.missing
    by_cases hlt : bn < ndirect
    · rw [dif_pos hlt] at hr
      cases hr
      rw [State.fileBlock_of_slot (slotOf_of_lt hlt), ref_addr hbooks hi] at hzero
      rw [bmapAddr_fst hzero, balloc_eq_zero_iff hbooks, if_pos (Or.inl hlt), Nat.lt_one_iff]
    · have hlt' : bn - ndirect < nindirect := by
        unfold maxfile at hbn
        omega
      rw [dif_neg hlt, if_pos hlt'] at hr
      rw [State.fileBlock_of_slot (slotOf_of_ge hlt hlt')] at hzero
      have hptr := bmapAddr_spec h hi indirect
      by_cases hind : s.ref (i, .addr indirect) = 0
      · -- two blocks are needed, the indirect one first
        rw [if_neg fun hor => hor.elim hlt fun hne => hne hind]
        have haddr : (s.copy i).addrs indirect = 0 := by rwa [← ref_addr hbooks hi]
        have hfst : (bmapAddr sb i indirect s).1 = (balloc sb s).1 := bmapAddr_fst haddr
        rcases balloc_cases sb s with ⟨hb, -⟩ | ⟨hsize, hfree, hbit, -⟩
        · have hcard := (balloc_eq_zero_iff hbooks).mp hb
          dsimp only at hr
          rw [if_pos (hfst.trans hb)] at hr
          cases hr
          exact iff_of_true rfl (by omega)
        · have hb := hbooks.ne_zero hfree
          have hmem : (balloc sb s).1 ∈ s.free sb :=
            Finset.mem_filter.mpr ⟨Finset.mem_range.mpr hsize, hfree⟩
          have hbit₁ : (bmapAddr sb i indirect s).2.bitmap = update s.bitmap (balloc sb s).1 true := by
            unfold bmapAddr
            rw [if_pos haddr]
            dsimp only
            rw [if_neg hb]
            exact hbit
          have hfree₁ : (bmapAddr sb i indirect s).2.free sb = (s.free sb).erase (balloc sb s).1 := by
            ext c
            unfold State.free
            rw [hbit₁, Finset.mem_erase, Finset.mem_filter, Finset.mem_filter]
            by_cases hc : c = (balloc sb s).1 <;> simp [hc]
          rw [← hfst] at hb
          have hword : ((bmapAddr sb i indirect s).2.block (bmapAddr sb i indirect s).1).word
              (bn - ndirect) = 0 := by
            have hheld := (hptr.grown.held_iff i).mpr hi
            have hat := hptr.at_slot hb
            have hentry := ref_entry hptr.inv.toBooks hheld ⟨bn - ndirect, hlt'⟩ (by rwa [hat])
            rw [hat, hptr.only _ (by simp), hzero] at hentry
            exact hentry.symm
          dsimp only at hr
          rw [if_neg hb] at hr
          cases hr
          rw [bmapEntry_fst hword, balloc_eq_zero_iff hptr.inv.toBooks, hfree₁,
            Finset.card_erase_of_mem hmem]
          have hpos := Finset.card_pos.mpr ⟨_, hmem⟩
          omega
      · rw [hptr.same hind] at hr
        dsimp only at hr
        rw [if_neg hind] at hr
        cases hr
        rw [ref_entry hbooks hi _ hind] at hzero
        rw [bmapEntry_fst hzero, balloc_eq_zero_iff hbooks, if_pos (Or.inr hind), Nat.lt_one_iff]
  · obtain ⟨r', hr', hmaps⟩ := bmap_spec h hi hbn
    cases hr.symm.trans hr'
    rw [hmaps.same hzero]
    exact iff_of_false hzero fun hboth => hzero hboth.1

end

/-! ## Writing an entry -/

/-- The loop of `writei` within one block. -/
theorem writeLoop_once {src : Source} {i off n addr : ℕ} (hn : 0 < n) (hm : off % bsize + n ≤ bsize)
    (hsrc : ∀ k, (src.byte k).isSome = true) (hb : bmap sb i (off / bsize) s = .ok (addr, s')) :
    writeLoop sb i src n 0 off n s = .ok (if addr = 0 then ((0, off), s') else ((n, off + n),
      (s'.setBlock addr ((s'.block addr).fill (off % bsize) (fun k => (src.byte (0 + k)).getD 0) n)
        ).logWrite (.data addr))) := by
  have hread : src.readable 0 n = n := by
    obtain ⟨hle, -, hnone⟩ := src.readable_spec 0 n
    by_contra hne
    have hlt := hnone (by omega)
    have hsome := hsrc (0 + src.readable 0 n)
    rw [hlt] at hsome
    cases hsome
  obtain ⟨m, rfl⟩ := Nat.exists_eq_succ_of_ne_zero (Nat.ne_of_gt hn)
  unfold writeLoop
  rw [if_pos hn, hb, ok_bind]
  dsimp only
  by_cases haddr : addr = 0
  · rw [if_pos haddr, if_pos haddr]
    rfl
  · have hmin : min (m + 1 - 0) (bsize - off % bsize) = m + 1 := by omega
    rw [if_neg haddr, if_neg haddr, hmin, hread, if_neg (lt_irrefl _), Nat.zero_add]
    -- the loop is over
    cases m with
    | zero => rfl
    | succ m => exact if_neg (lt_irrefl _)

/-- The bytes `l` have been written to the file from `off` on. -/
structure Wrote (sb : Superblock) (i off : ℕ) (l : List UInt8) (s s' : State) : Prop where
  good : Good sb s'
  held : s'.Held i
  type : (s'.cur i).type = (s.cur i).type
  size : (s'.cur i).size = max (s.cur i).size (off + l.length)
  contents : s'.contents i = splice (s.contents i) off l

theorem Writing.wrote {i off tot : ℕ} {src : Source} (h : Good sb s) (hi : s.Held i)
    (hw : Writing sb i off src.byte s tot tot s') (hoff : off ≤ (s.cur i).size)
    (hmax : off + tot ≤ maxfile * bsize) :
    Wrote sb i off (src.first tot) s (finish i (off + tot) s') := by
  have hi' : s'.Held i := (hw.ext.held_iff i).mpr hi
  have hlen : (src.first tot).length = tot := by
    unfold Source.first
    rw [List.length_map, List.length_range]
  refine ⟨hw.good h hi hoff hmax, ((written_finish i _ s').held_iff i).mpr hi', ?_, ?_,
    hw.contents_finish h hi hoff fun _ hge hlt => by omega⟩
  · rw [cur_finish hi', update_self]
    exact hw.ext.type_eq i
  · rw [cur_finish hi', update_self, hlen]
    dsimp only
    rw [hw.ext.size_eq]

theorem Dirent.first_source (de : Dirent) : de.source.first direntSize = de.toBytes := by
  apply List.ext_getElem?
  intro m
  unfold Source.first
  rw [getElem?_map_range]
  split_ifs with hm
  · rw [← de.length_toBytes] at hm
    rw [List.getElem?_eq_getElem hm, ← List.getD_eq_getElem _ 0 hm]
    rfl
  · rw [List.getElem?_eq_none]
    rw [de.length_toBytes]
    omega

/-- **Writing an entry** writes all of it, or nothing if there is no block for it. -/
theorem writei_dirent (h : Good sb s) (hd : s.Held dp) (hk : k * direntSize ≤ (s.cur dp).size)
    (hmax : k * direntSize + direntSize ≤ maxfile * bsize) (de : Dirent) :
    ∃ (tot : ℕ) (s' : State), writei sb dp de.source (UInt32.ofNat (k * direntSize))
        (UInt32.ofNat direntSize) s = .ok ((tot : ℤ), s')
      ∧ (tot = 0 ∧ s.NoBlock sb dp (k * direntSize / bsize)
          ∧ Wrote sb dp (k * direntSize) [] s s'
        ∨ tot = direntSize ∧ ¬ s.NoBlock sb dp (k * direntSize / bsize)
          ∧ Wrote sb dp (k * direntSize) de.toBytes s s') := by
  have hmaxfile : maxfile * bsize < 2 ^ 32 := by decide
  have hoff : (UInt32.ofNat (k * direntSize)).toNat = k * direntSize := by
    rw [UInt32.toNat_ofNat']
    omega
  have hn : (UInt32.ofNat direntSize).toNat = direntSize := rfl
  have hin : InRange s dp (UInt32.ofNat (k * direntSize)) (UInt32.ofNat direntSize) := by
    unfold InRange
    rw [hoff, hn]
    exact ⟨hk, hmax⟩
  have hbn : k * direntSize / bsize < maxfile := by
    rw [Nat.div_lt_iff_lt_mul (by decide)]
    have : 0 < direntSize := by decide
    omega
  -- entries are aligned, so they do not cross a block
  have hblock : k * direntSize % bsize + direntSize ≤ bsize := by
    unfold direntSize bsize
    omega
  obtain ⟨⟨addr, s₁⟩, hmap, hmaps⟩ := bmap_spec h.toInv hd hbn
  have hzero := bmap_eq_zero_iff h.toInv hd hbn hmap
  have hgrown := (Writing.start h dp (k * direntSize) de.source.byte).grown hmaps.inv hmaps.grown
  rw [writei_eq hd, if_pos hin, hoff, hn,
    writeLoop_once (by decide) hblock (fun _ => rfl) hmap]
  by_cases haddr : addr = 0
  · rw [if_pos haddr]
    exact ⟨0, _, rfl, Or.inl ⟨rfl, hzero.mp haddr, hgrown.wrote h hd hk (by omega)⟩⟩
  · rw [if_neg haddr]
    have hw := (hgrown.setBlock (m := direntSize) (hmaps.at_block haddr) haddr hblock
      fun _ _ => rfl).logWrite (.data addr)
    rw [Nat.zero_add] at hw
    have hwrote := hw.wrote h hd hk hmax
    rw [de.first_source] at hwrote
    exact ⟨direntSize, _, rfl, Or.inr ⟨rfl, fun hno => haddr (hzero.mpr hno), hwrote⟩⟩

/-! ## Names -/

/-- Entry `j` is in use and has this name. -/
def State.Named (s : State) (dp : ℕ) (name : Name) (j : ℕ) : Prop :=
  j < s.entries dp ∧ (s.entry dp j).inum ≠ 0 ∧ namecmp name (s.entry dp j).name = true

/-- A directory that `ilock` has read, in which no name has two entries. -/
structure Directory (sb : Superblock) (s : State) (dp : ℕ) : Prop where
  good : Good sb s
  held : s.Held dp
  type : (s.cur dp).type = tDir
  whole : direntSize ∣ (s.cur dp).size
  distinct : ∀ name j k, s.Named dp name j → s.Named dp name k → j = k

/-- The inode that a name stands for, and the offset of its entry. -/
def State.dir (s : State) (dp : ℕ) (name : Name) : Option (ℕ × ℕ) :=
  (s.lookup dp name).map fun j => ((s.entry dp j).inum, j * direntSize)

/-- What `dirlookup` returns for what it has found. -/
def look (sb : Superblock) (s : State) (found : Option (ℕ × ℕ)) :
    Except Fault (Option (ℕ × ℕ) × State) :=
  found.elim (.ok (none, s)) fun x => (iget sb x.1 s).map fun s' => (some x, s')

variable {name : Name} {de : Dirent}

theorem Name.cut_cut (name : Name) : Name.cut name.cut = name.cut := by
  have htake : name.cut.take dirsiz = name.cut := List.take_of_length_le name.length_cut_le
  conv_lhs => unfold Name.cut
  rw [show (List.takeWhile (· != 0) (name.take dirsiz)) = name.cut from rfl, htake]
  exact List.takeWhile_eq_self_iff.mpr fun c hc => List.mem_takeWhile_imp (p := (· != 0)) hc

namespace Directory

theorem lookup_iff (h : Directory sb s dp) {j : ℕ} : s.lookup dp name = some j ↔ s.Named dp name j := by
  unfold State.lookup State.findEntry
  rw [List.find?_range'_eq_some]
  simp only [Bool.and_eq_true, bne_iff_ne, List.mem_range'_1]
  constructor
  · rintro ⟨hj, ⟨-, hlt⟩, -⟩
    exact ⟨by omega, hj⟩
  · intro hj
    refine ⟨hj.2, ⟨Nat.zero_le _, by have := hj.1; omega⟩, fun j' _ hlt => ?_⟩
    -- an earlier entry with the name would be a second one
    rw [Bool.not_eq_true']
    by_contra hnot
    rw [Bool.not_eq_false, Bool.and_eq_true, bne_iff_ne] at hnot
    exact Nat.ne_of_lt hlt (h.distinct name j' j ⟨hlt.trans hj.1, hnot⟩ hj)

theorem size_eq (h : Directory sb s dp) : (s.cur dp).size = s.entries dp * direntSize :=
  (Nat.div_mul_cancel h.whole).symm

/-- There is a block for an entry that exists. -/
theorem block (h : Directory sb s dp) (hk : k < s.entries dp) :
    k * direntSize + direntSize ≤ maxfile * bsize ∧ ¬ s.NoBlock sb dp (k * direntSize / bsize) := by
  have hsolid := h.good.solid dp (h.good.type_ne h.held)
  have hend : k * direntSize + direntSize ≤ (s.cur dp).size := by
    rw [h.size_eq, ← Nat.succ_mul]
    exact Nat.mul_le_mul_right _ hk
  refine ⟨hend.trans hsolid.size_le, fun hno => hsolid.block_ne _ ?_ hno.1⟩
  have hdiv := Nat.div_mul_le_self (k * direntSize) bsize
  have hpos : 0 < direntSize := by decide
  omega

theorem dirlookup (h : Directory sb s dp) (name : Name) :
    dirlookup sb dp name s = look sb s (s.dir dp name) := by
  rw [dirlookup_eq h.good.toInv h.held h.type h.whole]
  unfold look State.dir
  cases s.lookup dp name <;> rfl

/-- The file has not changed. -/
theorem of_contents (h : Directory sb s dp) (hgood : Good sb s') (hheld : s'.Held dp)
    (htype : (s'.cur dp).type = (s.cur dp).type) (hsize : (s'.cur dp).size = (s.cur dp).size)
    (hcontents : s'.contents dp = s.contents dp) :
    Directory sb s' dp ∧ s'.dir dp = s.dir dp := by
  have hentry : s'.entry dp = s.entry dp := by
    funext j
    unfold State.entry
    rw [hcontents]
  have hentries : s'.entries dp = s.entries dp := by
    unfold State.entries
    rw [hsize]
  constructor
  · refine ⟨hgood, hheld, htype.trans h.type, hsize ▸ h.whole, ?_⟩
    unfold State.Named
    rw [hentries, hentry]
    exact h.distinct
  · funext name
    unfold State.dir State.lookup State.findEntry
    rw [hentries, hentry]

theorem tabled (h : Directory sb s dp) (hgood : Good sb s') (htab : Tabled s s')
    (hheld : s'.Held dp) : Directory sb s' dp ∧ s'.dir dp = s.dir dp :=
  h.of_contents hgood hheld (by rw [htab.cur]) (by rw [htab.cur]) (by rw [htab.contents])

end Directory

namespace Wrote

theorem entry (h : Directory sb s dp) (hk : k ≤ s.entries dp) (hde : de.inum < 2 ^ 16)
    (hw : Wrote sb dp (k * direntSize) de.toBytes s s') (j : ℕ) :
    s'.entry dp j = if j = k then ⟨de.inum, de.name.cut⟩ else s.entry dp j := by
  have hlen : k * direntSize ≤ (s.contents dp).length := by
    rw [State.length_contents (h.good.type_ne h.held), h.size_eq]
    exact Nat.mul_le_mul_right _ hk
  unfold State.entry
  rw [hw.contents, splice_entry de.length_toBytes hlen]
  split_ifs
  · exact Dirent.ofBytes_toBytes hde
  · rfl

theorem named_iff (h : Directory sb s dp) (hk : k ≤ s.entries dp) (hde : de.inum < 2 ^ 16)
    (hw : Wrote sb dp (k * direntSize) de.toBytes s s') (name : Name) (j : ℕ) :
    s'.Named dp name j ↔ j = k ∧ de.inum ≠ 0 ∧ namecmp name de.name = true
      ∨ j ≠ k ∧ s.Named dp name j := by
  have hentries : s'.entries dp = max (s.entries dp) (k + 1) := by
    unfold State.entries at *
    rw [hw.size, de.length_toBytes]
    unfold direntSize at *
    omega
  unfold State.Named
  rw [hw.entry h hk hde, hentries]
  by_cases hj : j = k
  · rw [if_pos hj, namecmp_iff, namecmp_iff, Name.cut_cut]
    simp [hj]
  · rw [if_neg hj]
    have hlt : j < max (s.entries dp) (k + 1) ↔ j < s.entries dp := by omega
    simp [hj, hlt]

/-- No name gets two entries. -/
theorem directory (h : Directory sb s dp) (hk : k ≤ s.entries dp) (hde : de.inum < 2 ^ 16)
    (hw : Wrote sb dp (k * direntSize) de.toBytes s s')
    (hnew : de.inum ≠ 0 → ∀ j, ¬ s.Named dp de.name j) : Directory sb s' dp where
  good := hw.good
  held := hw.held
  type := hw.type.trans h.type
  whole := by
    rw [hw.size, de.length_toBytes, h.size_eq, ← Nat.succ_mul, Nat.mul_max_mul_right]
    exact Nat.dvd_mul_left _ _
  distinct := by
    have hclash : ∀ name j, de.inum ≠ 0 → namecmp name de.name = true → ¬ s.Named dp name j := by
      intro name j h0 hname hj
      rw [namecmp_iff] at hname
      refine hnew h0 j ⟨hj.1, hj.2.1, ?_⟩
      rw [namecmp_iff, ← hname, ← namecmp_iff]
      exact hj.2.2
    intro name j j' hj hj'
    rw [hw.named_iff h hk hde] at hj hj'
    rcases hj with ⟨rfl, h0, hname⟩ | ⟨-, hj⟩ <;> rcases hj' with ⟨rfl, h0', hname'⟩ | ⟨-, hj'⟩
    · rfl
    · exact absurd hj' (hclash name j' h0 hname)
    · exact absurd hj (hclash name j h0' hname')
    · exact h.distinct name j j' hj hj'

/-- A name that does not have the entry, before or after, stands for what it did. -/
theorem dir_eq (h : Directory sb s dp) (h' : Directory sb s' dp) (hk : k ≤ s.entries dp)
    (hde : de.inum < 2 ^ 16) (hw : Wrote sb dp (k * direntSize) de.toBytes s s')
    (hold : ¬ s.Named dp name k) (hnew : ¬ (de.inum ≠ 0 ∧ namecmp name de.name = true)) :
    s'.dir dp name = s.dir dp name := by
  have hlookup : s'.lookup dp name = s.lookup dp name := by
    ext j
    rw [h'.lookup_iff, h.lookup_iff, hw.named_iff h hk hde]
    constructor
    · rintro (⟨-, hj⟩ | ⟨-, hj⟩)
      · exact absurd hj hnew
      · exact hj
    · intro hj
      refine Or.inr ⟨?_, hj⟩
      rintro rfl
      exact hold hj
  unfold State.dir
  rw [hlookup]
  cases hl : s.lookup dp name with
  | none => rfl
  | some j =>
    have hj : j ≠ k := by
      rintro rfl
      exact hold (h.lookup_iff.mp hl)
    rw [Option.map_some, Option.map_some, hw.entry h hk hde, if_neg hj]

end Wrote

/-! ## `dirlink` -/

/-- There is room for an entry: one that is not in use, or a place at the end of the directory. -/
def State.Writable (sb : Superblock) (s : State) (dp : ℕ) : Prop :=
  (∃ j, j < s.entries dp ∧ (s.entry dp j).inum = 0)
    ∨ (s.cur dp).size + direntSize ≤ maxfile * bsize ∧ ¬ s.NoBlock sb dp ((s.cur dp).size / bsize)

theorem iget_iput (h : Good sb s) {i : ℕ} (hroom : 0 < s.refs i ∨ s.active sb < ninode) :
    ∃ s₁ s₂, iget sb i s = .ok s₁ ∧ iput i s₁ = .ok s₂ ∧ Good sb s₂ ∧ Tabled s s₂
      ∧ ∀ j, s.Held j → s₂.Held j := by
  have hget : ∃ s₁, iget sb i s = .ok s₁ := by
    unfold iget
    by_cases href : 0 < (s.inode i).ref
    · exact ⟨_, if_pos href⟩
    · rw [if_neg href, if_neg (Nat.not_le.mpr (hroom.resolve_left href))]
      exact ⟨_, rfl⟩
  obtain ⟨s₁, hget⟩ := hget
  obtain ⟨hgood, htab, hrefs, hheld⟩ := (iget_spec h i).of_ok hget
  have hmany : s.Held i → 1 < s₁.refs i := by
    intro hi
    rw [hrefs, update_self]
    exact Nat.succ_lt_succ hi.1
  obtain ⟨s₂, hput, hgood₂, htab₂, -, hheld₂⟩ :=
    iput_lasting hgood fun hi => Or.inr (hmany ((hheld i).mp hi))
  refine ⟨s₁, s₂, hget, hput, hgood₂, htab.trans htab₂, fun j hj => hheld₂ j ((hheld j).mpr hj) ?_⟩
  by_cases hji : j = i
  · exact Or.inr (hmany (hji ▸ hj))
  · exact Or.inl hji

/-- A new name is written to the entry `k`, which is not in use. -/
theorem Directory.insert (h : Directory sb s dp) (hname : s.dir dp name = none)
    (hk : k ≤ s.entries dp) (hfree : k < s.entries dp → (s.entry dp k).inum = 0) {inum : ℕ}
    (h0 : inum ≠ 0) (hlt : inum < 2 ^ 16)
    (hw : Wrote sb dp (k * direntSize) (Dirent.toBytes ⟨inum, name⟩) s s') :
    Directory sb s' dp ∧ ∀ name', s'.dir dp name'
      = if namecmp name' name then some (inum, k * direntSize) else s.dir dp name' := by
  have hnone : ∀ j, ¬ s.Named dp name j := by
    intro j hj
    rw [← h.lookup_iff, Option.map_eq_none_iff.mp hname] at hj
    cases hj
  have hdir := hw.directory h hk hlt fun _ => hnone
  refine ⟨hdir, fun name' => ?_⟩
  split_ifs with hc
  · have hlookup : s'.lookup dp name' = some k :=
      hdir.lookup_iff.mpr ((hw.named_iff h hk hlt name' k).mpr (Or.inl ⟨rfl, h0, hc⟩))
    unfold State.dir
    rw [hlookup, Option.map_some, hw.entry h hk hlt, if_pos rfl]
  · exact hw.dir_eq h hdir hk hlt (fun hj => hj.2.1 (hfree hj.1)) fun hboth => hc hboth.2

theorem Directory.erase (h : Directory sb s dp) (hk : s.Named dp name k)
    (hw : Wrote sb dp (k * direntSize) (Dirent.toBytes ⟨0, []⟩) s s') :
    Directory sb s' dp ∧ ∀ name', s'.dir dp name'
      = if namecmp name' name then none else s.dir dp name' := by
  have hle := Nat.le_of_lt hk.1
  have hdir := hw.directory h hle (by decide) fun hne => absurd rfl hne
  refine ⟨hdir, fun name' => ?_⟩
  have hsame : ∀ j, namecmp name' name = true → (s.Named dp name' j ↔ s.Named dp name j) := by
    intro j hc
    unfold State.Named
    rw [namecmp_iff, namecmp_iff, namecmp_iff.mp hc]
  split_ifs with hc
  · unfold State.dir
    rw [Option.map_eq_none_iff, Option.eq_none_iff_forall_ne_some]
    intro j hj
    rcases (hw.named_iff h hle (by decide) name' j).mp (hdir.lookup_iff.mp hj) with
      ⟨-, hne, -⟩ | ⟨hjk, hj⟩
    · exact hne rfl
    · exact hjk (h.distinct name j k ((hsame j hc).mp hj) hk)
  · refine hw.dir_eq h hdir hle (by decide) (fun hj => hc ?_) fun hboth => hboth.1 rfl
    rw [namecmp_iff, namecmp_iff.mp hj.2.2, namecmp_iff.mp hk.2.2]

theorem Directory.link (h : Directory sb s dp) (hname : s.dir dp name = none)
    (hk : k ≤ s.entries dp) (hfree : k < s.entries dp → (s.entry dp k).inum = 0) {inum : ℕ}
    (h0 : inum ≠ 0) (hlt : inum < 2 ^ 16) :
    ∃ r s', writei sb dp (Dirent.source ⟨inum, name⟩) (UInt32.ofNat (k * direntSize))
        (UInt32.ofNat direntSize) s = .ok (r, s') ∧ Directory sb s' dp
      ∧ (r = direntSize ↔ k * direntSize + direntSize ≤ maxfile * bsize
        ∧ ¬ s.NoBlock sb dp (k * direntSize / bsize))
      ∧ (r ≠ direntSize → s'.contents dp = s.contents dp ∧ s'.dir dp = s.dir dp)
      ∧ (r = direntSize → ∀ name', s'.dir dp name'
        = if namecmp name' name then some (inum, k * direntSize) else s.dir dp name') := by
  have hoff : k * direntSize ≤ (s.cur dp).size := by
    rw [h.size_eq]
    exact Nat.mul_le_mul_right _ hk
  by_cases hmax : k * direntSize + direntSize ≤ maxfile * bsize
  · obtain ⟨tot, s', hrun, ⟨rfl, hno, hw⟩ | ⟨rfl, hblock, hw⟩⟩ :=
      writei_dirent h.good h.held hoff hmax ⟨inum, name⟩
    · have hcontents : s'.contents dp = s.contents dp := by
        rw [hw.contents]
        unfold splice
        rw [List.append_nil]
        exact List.take_append_drop _ _
      have hsize : (s'.cur dp).size = (s.cur dp).size := by
        rw [hw.size]
        exact max_eq_left hoff
      obtain ⟨hdir, hsame⟩ := h.of_contents hw.good hw.held hw.type hsize hcontents
      exact ⟨_, s', hrun, hdir, iff_of_false (by decide) fun hboth => hboth.2 hno,
        fun _ => ⟨hcontents, hsame⟩, fun heq => absurd heq (by decide)⟩
    · obtain ⟨hdir, hmap⟩ := h.insert hname hk hfree h0 hlt hw
      exact ⟨_, s', hrun, hdir, iff_of_true rfl ⟨hmax, hblock⟩, fun hne => absurd rfl hne,
        fun _ => hmap⟩
  · have hbound := (h.good.solid dp (h.good.type_ne h.held)).size_le
    have hmaxfile : maxfile * bsize < 2 ^ 32 := by decide
    have hnot : ¬ InRange s dp (UInt32.ofNat (k * direntSize)) (UInt32.ofNat direntSize) := by
      rintro ⟨-, hle⟩
      rw [UInt32.toNat_ofNat', Nat.mod_eq_of_lt (by omega)] at hle
      exact hmax hle
    refine ⟨-1, s, ?_, h, iff_of_false (by decide) fun hboth => hmax hboth.1, fun _ => ⟨rfl, rfl⟩,
      fun heq => absurd heq (by decide)⟩
    rw [writei_eq h.held, if_neg hnot]

/-- `dirlink` of a new name. -/
theorem Directory.dirlink (h : Directory sb s dp) (hname : s.dir dp name = none) {inum : ℕ}
    (h0 : inum ≠ 0) (hlt : inum < 2 ^ 16) :
    ∃ ok s', dirlink sb dp name inum s = .ok (ok, s') ∧ Directory sb s' dp
      ∧ (ok = true ↔ s.Writable sb dp)
      ∧ (ok = false → s'.contents dp = s.contents dp ∧ s'.dir dp = s.dir dp)
      ∧ (ok = true → ∃ off, ∀ name', s'.dir dp name'
        = if namecmp name' name then some (inum, off) else s.dir dp name') := by
  have hcopy : s.copy dp = s.cur dp := (State.cur_of_held h.held).symm
  have hfuel : s.entries dp < 0 + s.turns dp := by
    unfold State.turns State.entries
    rw [hcopy]
    omega
  have hscan := scan_eq h.good.toInv h.held h.whole "dirlink read" (fun de => de.inum == 0) hfuel
  rw [Nat.zero_mul] at hscan
  -- the entry that is written: the first one that is not in use, or one at the end
  obtain ⟨k, hk, hfree, hoff, hroom⟩ : ∃ k, k ≤ s.entries dp
      ∧ (k < s.entries dp → (s.entry dp k).inum = 0)
      ∧ (((s.findEntry (fun de => de.inum == 0) dp 0).map fun j => (s.entry dp j, j * direntSize)).map
          Prod.snd).getD (s.copy dp).size = k * direntSize
      ∧ (s.Writable sb dp ↔ k * direntSize + direntSize ≤ maxfile * bsize
        ∧ ¬ s.NoBlock sb dp (k * direntSize / bsize)) := by
    cases hfind : s.findEntry (fun de => de.inum == 0) dp 0 with
    | none =>
      refine ⟨s.entries dp, le_rfl, fun hlt => absurd hlt (lt_irrefl _), ?_, ?_⟩
      · rw [hcopy]
        exact h.size_eq
      · unfold State.Writable
        rw [h.size_eq, or_iff_right]
        rintro ⟨j, hj, hzero⟩
        have hused := List.find?_range'_eq_none.mp hfind j (Nat.zero_le _) (by omega)
        simp [hzero] at hused
    | some k =>
      obtain ⟨hzero, hmem, -⟩ := List.find?_range'_eq_some.mp hfind
      have hlt : k < s.entries dp := by
        rw [List.mem_range'_1] at hmem
        omega
      have hinum : (s.entry dp k).inum = 0 := by simpa using hzero
      exact ⟨k, Nat.le_of_lt hlt, fun _ => hinum, rfl,
        iff_of_true (Or.inl ⟨k, hlt, hinum⟩) (h.block hlt)⟩
  obtain ⟨r, s', hrun, hdir, hok, hfail, hdone⟩ := h.link hname hk hfree h0 hlt
  refine ⟨decide (r = direntSize), s', ?_, hdir, ?_, ?_, ?_⟩
  · unfold Fs.dirlink
    rw [h.dirlookup, hname]
    change (scan sb "dirlink read" (fun de => de.inum == 0) dp (s.turns dp) 0 s >>= _) = _
    rw [hscan, ok_bind]
    dsimp only
    rw [hoff, hrun]
    rfl
  · rw [decide_eq_true_iff, hok, hroom]
  · intro hfalse
    exact hfail (of_decide_eq_false hfalse)
  · intro htrue
    exact ⟨_, hdone (of_decide_eq_true htrue)⟩

theorem rootDir_directory (crowded : Bool) : Directory rootSb (rootDir crowded) 1 := by
  have himage := rootDir_image crowded
  have hsize : ((rootDir crowded).cur 1).size = direntSize := by
    rw [himage.cur]
    rfl
  refine ⟨himage.good, ⟨?_, rfl⟩, ?_, by rw [hsize], ?_⟩
  · cases crowded <;> decide
  · rw [himage.cur]
    rfl
  · rintro name j k ⟨hj, -⟩ ⟨hk, -⟩
    unfold State.entries at hj hk
    rw [hsize, Nat.div_self (by decide)] at hj hk
    omega

end Xv6.Fs
