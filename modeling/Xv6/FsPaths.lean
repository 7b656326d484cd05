/-
# Directories and paths (`dirlookup` and `namei` of `kernel/fs.c`)

A directory is a file of entries of sixteen bytes.  `dirlookup` finds the first entry in use with
the name (`dirlookup_eq`), and `namex` goes from directory to directory along the components of
the path.  In a file system whose directories are in order (`Walkable`) what it returns is found by
looking up one component after the other (`resolve` and `parent`), it changes nothing but the inode
table, and the only reference it leaves is one to the inode it returns.  It panics only in `iget`,
where the table has no room for two more inodes (`namex_spec`).
-/
import Xv6.FsWrite

namespace Xv6.Fs

open Function
open Itable (Dinode ninode naddrs)

variable {sb : Superblock} {s s₀ s' : State} {dp ip k : ℕ}

/-! ## Entries -/

/-- Entry `k` of a directory. -/
def State.entry (s : State) (dp k : ℕ) : Dirent :=
  Dirent.ofBytes (((s.contents dp).drop (k * direntSize)).take direntSize)

/-- The number of entries of a directory. -/
def State.entries (s : State) (dp : ℕ) : ℕ := (s.cur dp).size / direntSize

/-- The number of the first entry of the directory for which `p` holds, from entry `k` on. -/
def State.findEntry (s : State) (p : Dirent → Bool) (dp k : ℕ) : Option ℕ :=
  (List.range' k (s.entries dp - k)).find? fun j => p (s.entry dp j)

theorem readDirent_eq (h : Inv sb s) (hd : s.Held dp) (msg : String) (hk : k < s.entries dp) :
    readDirent sb msg dp (k * direntSize) s = .ok (s.entry dp k, s) := by
  have hsize := (h.solid dp (h.type_ne hd)).size_le
  have hend : k * direntSize + direntSize ≤ (s.cur dp).size :=
    calc k * direntSize + direntSize = (k + 1) * direntSize := by ring
      _ ≤ s.entries dp * direntSize := Nat.mul_le_mul_right _ hk
      _ ≤ (s.cur dp).size := Nat.div_mul_le_self _ _
  have hlt : (s.cur dp).size < 2 ^ 31 := lt_of_le_of_lt hsize (by decide)
  have hoff : (UInt32.ofNat (k * direntSize)).toNat = k * direntSize := by
    rw [UInt32.toNat_ofNat']
    omega
  have hn : (UInt32.ofNat direntSize).toNat = direntSize := rfl
  have hover : ¬ UInt32.ofNat (k * direntSize) + UInt32.ofNat direntSize
      < UInt32.ofNat (k * direntSize) := by
    rw [add_lt_iff, hoff, hn]
    omega
  obtain ⟨r, hrun, hr⟩ := readi_spec h hd (fun _ => true) (UInt32.ofNat (k * direntSize))
    (UInt32.ofNat direntSize)
  rw [hr fun _ _ => rfl] at hrun
  have hlen : ((((s.contents dp).drop (k * direntSize)).take direntSize).length : ℤ)
      = direntSize := by
    rw [List.length_take, List.length_drop, State.length_contents (h.type_ne hd)]
    omega
  unfold readDirent
  rw [hrun, ok_bind]
  unfold readBytes
  rw [if_neg hover, hoff, hn]
  exact if_neg (not_not_intro hlen)

/-- **The loop over a directory** stops at the first entry for which `p` holds. -/
theorem scan_eq (h : Inv sb s) (hd : s.Held dp) (hsize : direntSize ∣ (s.cur dp).size)
    (msg : String) (p : Dirent → Bool) {fuel : ℕ} (hfuel : s.entries dp < k + fuel) :
    scan sb msg p dp fuel (k * direntSize) s
      = .ok ((s.findEntry p dp k).map fun j => (s.entry dp j, j * direntSize), s) := by
  have hcopy : s.copy dp = s.cur dp := (State.cur_of_held hd).symm
  have hmul : s.entries dp * direntSize = (s.cur dp).size := Nat.div_mul_cancel hsize
  have hmore : k * direntSize < (s.copy dp).size ↔ k < s.entries dp := by
    rw [hcopy, ← hmul]
    exact Nat.mul_lt_mul_right (by decide)
  unfold State.findEntry
  induction fuel generalizing k with
  | zero =>
    rw [Nat.sub_eq_zero_of_le (by omega)]
    rfl
  | succ fuel ih =>
    unfold scan
    by_cases hk : k < s.entries dp
    · rw [if_pos (hmore.mpr hk), readDirent_eq h hd msg hk, ok_bind,
        show s.entries dp - k = s.entries dp - (k + 1) + 1 by omega, List.range'_succ,
        List.find?_cons]
      dsimp only
      cases p (s.entry dp k) with
      | true => rfl
      | false =>
        rw [if_neg Bool.false_ne_true,
          show k * direntSize + direntSize = (k + 1) * direntSize by ring]
        apply ih (by omega)
        rw [hcopy, ← hmul]
        exact Nat.mul_lt_mul_right (by decide)
    · rw [if_neg (fun hlt => hk (hmore.mp hlt)), Nat.sub_eq_zero_of_le (by omega)]
      rfl

/-- The number of the entry in use with this name. -/
def State.lookup (s : State) (dp : ℕ) (name : Name) : Option ℕ :=
  s.findEntry (fun de => de.inum != 0 && namecmp name de.name) dp 0

/-- **`dirlookup`** finds the first entry in use with the name, and adds a reference. -/
theorem dirlookup_eq (h : Inv sb s) (hd : s.Held dp) (htype : (s.cur dp).type = tDir)
    (hsize : direntSize ∣ (s.cur dp).size) (name : Name) :
    dirlookup sb dp name s = (s.lookup dp name).elim (.ok (none, s)) fun j =>
      (iget sb (s.entry dp j).inum s).map fun s' =>
        (some ((s.entry dp j).inum, j * direntSize), s') := by
  have hcopy : s.copy dp = s.cur dp := (State.cur_of_held hd).symm
  have hturns : s.turns dp = s.entries dp + 1 := by
    unfold State.turns State.entries
    rw [hcopy]
  have hfuel : s.entries dp < 0 + s.turns dp := by omega
  have hscan := scan_eq h hd hsize "dirlookup read"
    (fun de => de.inum != 0 && namecmp name de.name) hfuel
  rw [Nat.zero_mul] at hscan
  unfold dirlookup
  rw [hcopy, if_neg (not_not_intro htype), hscan, ok_bind]
  unfold State.lookup
  cases s.findEntry (fun de => de.inum != 0 && namecmp name de.name) dp 0 with
  | none => rfl
  | some j =>
    dsimp only [Option.map_some, Option.elim_some]
    cases iget sb (s.entry dp j).inum s <;> rfl

/-- What is found is an entry in use. -/
theorem State.lookup_some {name : Name} {j : ℕ} (h : s.lookup dp name = some j) :
    j < s.entries dp ∧ (s.entry dp j).inum ≠ 0 := by
  have hmem := List.mem_of_find?_eq_some h
  have hp := List.find?_some h
  rw [List.mem_range'_1] at hmem
  simp only [Bool.and_eq_true, bne_iff_ne] at hp
  exact ⟨by omega, hp.1⟩

/-! ## Directories in order -/

/-- An inode that is allocated and that a last `iput` does not free: it has a link, or there are
references to it besides. -/
def State.Lasting (s : State) (i : ℕ) : Prop :=
  (s.cur i).type ≠ 0 ∧ ((s.cur i).nlink ≠ 0 ∨ 0 < s.refs i)

/-- The directories are in order: they consist of whole entries, and the entries in use name
inodes that last.  A directory that has been removed while it is in use has no link, but there
is a reference to it. -/
structure Walkable (s : State) : Prop where
  whole : ∀ i, (s.cur i).type = tDir → direntSize ∣ (s.cur i).size
  named : ∀ i k, (s.cur i).type = tDir → k < s.entries i → (s.entry i k).inum ≠ 0 →
    s.Lasting (s.entry i k).inum
  root : s.Lasting rootino

theorem Tabled.trans {s'' : State} (h : Tabled s s') (h' : Tabled s' s'') : Tabled s s'' where
  bitmap := h'.bitmap.trans h.bitmap
  block := h'.block.trans h.block
  dinode := h'.dinode.trans h.dinode
  cur := h'.cur.trans h.cur
  ballocs := h'.ballocs.trans h.ballocs
  logged := h'.logged.trans h.logged

theorem Tabled.contents (h : Tabled s s') : s'.contents = s.contents := by
  funext i
  unfold State.contents State.byte
  simp only [h.cur, h.block, State.fileBlock_congr h.block (congrFun h.cur i)]

theorem Tabled.entry (h : Tabled s s') : s'.entry = s.entry := by
  funext i k
  unfold State.entry
  rw [h.contents]

theorem Tabled.entries (h : Tabled s s') : s'.entries = s.entries := by
  funext i
  unfold State.entries
  rw [h.cur]

theorem Tabled.lookup (h : Tabled s s') : s'.lookup = s.lookup := by
  funext i name
  unfold State.lookup State.findEntry
  rw [h.entries, h.entry]

/-! ## What a path stands for -/

/-- The components of a path: the longest pieces without a slash, cut to `DIRSIZ`. -/
def components (path : Path) : List Name :=
  (((path.takeWhile (· != 0)).splitOn slash).filter (· ≠ [])).map (List.take dirsiz)

/-- The inode that a name stands for in a directory. -/
def State.child (s : State) (ip : ℕ) (name : Name) : Option ℕ :=
  if (s.cur ip).type = tDir then (s.lookup ip name).map fun j => (s.entry ip j).inum else none

/-- The inode at the end of a list of names. -/
def State.resolve (s : State) (ip : ℕ) (names : List Name) : Option ℕ := names.foldlM s.child ip

/-- The directory at the end of all the names but the last, and that one. -/
def State.parent (s : State) (ip : ℕ) (names : List Name) : Option (ℕ × Name) :=
  names.getLast?.bind fun name => (s.resolve ip names.dropLast).bind fun dp =>
    if (s.cur dp).type = tDir then some (dp, name) else none

/-- What a walk has to find, in both modes of `namex`. -/
def State.Finds (s : State) (parent : Bool) (ip : ℕ) (names : List Name)
    (r : Option (ℕ × Name)) : Prop :=
  if parent then r = s.parent ip names else r.map Prod.fst = s.resolve ip names

theorem State.resolve_cons (s : State) (ip : ℕ) (name : Name) (names : List Name) :
    s.resolve ip (name :: names) = (s.child ip name).bind fun next => s.resolve next names :=
  List.foldlM_cons

theorem State.parent_cons (s : State) (ip : ℕ) (name : Name) {names : List Name} (h : names ≠ []) :
    s.parent ip (name :: names) = (s.child ip name).bind fun next => s.parent next names := by
  obtain ⟨name', names, rfl⟩ := List.exists_cons_of_ne_nil h
  unfold State.parent
  rw [List.getLast?_cons_cons, List.dropLast_cons_cons, State.resolve_cons]
  cases s.child ip name with
  | none => cases (name' :: names).getLast? <;> rfl
  | some next => rfl

theorem State.finds_cons {parent : Bool} {name : Name} {names : List Name}
    (hmore : parent = true → names ≠ []) (r : Option (ℕ × Name)) :
    s.Finds parent ip (name :: names) r
      ↔ (s.child ip name).elim (r = none) fun next => s.Finds parent next names r := by
  unfold State.Finds
  cases parent with
  | true =>
    simp only [if_true, State.parent_cons s ip name (hmore rfl)]
    cases s.child ip name <;> rfl
  | false =>
    simp only [Bool.false_eq_true, if_false, State.resolve_cons]
    cases s.child ip name with
    | none => exact Option.map_eq_none_iff
    | some next => rfl

theorem State.finds_of_not_dir (h : (s.cur ip).type ≠ tDir) (parent : Bool) (name : Name)
    (names : List Name) : s.Finds parent ip (name :: names) none := by
  have hnone : s.child ip name = none := if_neg h
  by_cases hmore : parent = true → names ≠ []
  · rw [State.finds_cons hmore, hnone]
    rfl
  · rw [Classical.not_imp, not_not] at hmore
    rw [hmore.1, hmore.2]
    exact (if_neg h).symm

/-- A path with a component leads through its parent. -/
theorem State.resolve_eq_parent (s : State) (ip : ℕ) {names : List Name} (h : names ≠ []) :
    s.resolve ip names = (s.parent ip names).bind fun r => s.child r.1 r.2 := by
  unfold State.parent
  rw [List.getLast?_eq_getLast_of_ne_nil h, Option.bind_some]
  conv_lhs => rw [← List.dropLast_append_getLast h]
  unfold State.resolve
  rw [List.foldlM_append]
  cases names.dropLast.foldlM s.child ip with
  | none => rfl
  | some dp =>
    have hlast : [names.getLast h].foldlM s.child dp = s.child dp (names.getLast h) := by
      rw [List.foldlM_cons]
      exact bind_pure _
    change [names.getLast h].foldlM s.child dp = _
    rw [hlast, Option.bind_some]
    by_cases hdir : (s.cur dp).type = tDir
    · rw [if_pos hdir, Option.bind_some]
    · rw [if_neg hdir]
      exact if_neg hdir

theorem components_slash (path : Path) : components (slash :: path) = components path := by
  unfold components
  rw [List.takeWhile_cons_of_pos (by decide), List.splitOn_cons_eq_if_modifyHead, if_pos (by decide)]
  rfl

theorem components_dropWhile (path : Path) :
    components (path.dropWhile (· == slash)) = components path := by
  induction path with
  | nil => rfl
  | cons c path ih =>
    rw [List.dropWhile_cons]
    split_ifs with hc
    · rw [ih, eq_of_beq hc, components_slash]
    · rfl

theorem components_atEnd {path : Path} (h : atEnd path = true) : components path = [] := by
  unfold components
  cases path with
  | nil => rfl
  | cons c path =>
    rw [List.takeWhile_cons_of_neg (by simpa [atEnd] using h)]
    rfl

theorem takeWhile_ne_nil {path : Path} (hend : atEnd path = false)
    (hslash : path.dropWhile (· == slash) = path) :
    (path.takeWhile fun c => c != slash && c != 0) ≠ [] := by
  cases path with
  | nil => cases hend
  | cons c path =>
    have hc : c ≠ slash := by
      rintro rfl
      have hlen := congrArg List.length hslash
      rw [List.dropWhile_cons_of_pos (by decide)] at hlen
      have hle := (List.dropWhile_sublist (· == slash) (l := path)).length_le
      rw [List.length_cons] at hlen
      omega
    have h0 : c ≠ 0 := by simpa [atEnd] using hend
    simp [hc, h0]

/-- A path that begins with a component. -/
theorem components_cons {path : Path} (hend : atEnd path = false)
    (hslash : path.dropWhile (· == slash) = path) :
    components path = (path.takeWhile fun c => c != slash && c != 0).take dirsiz
      :: components (path.dropWhile fun c => c != slash && c != 0) := by
  have hsplit := List.takeWhile_append_dropWhile (p := fun c => c != slash && c != 0) (l := path)
  have hw : ∀ c ∈ path.takeWhile fun c => c != slash && c != 0, c ≠ slash ∧ c ≠ 0 := by
    intro c hc
    have hp := List.mem_takeWhile_imp hc
    simpa using hp
  have hne := takeWhile_ne_nil hend hslash
  have hhead := List.head?_dropWhile_not (fun c => c != slash && c != 0) path
  generalize (path.takeWhile fun c => c != slash && c != 0) = w at *
  generalize (path.dropWhile fun c => c != slash && c != 0) = r at *
  subst hsplit
  have htake : (w ++ r).takeWhile (· != 0) = w ++ r.takeWhile (· != 0) :=
    List.takeWhile_append_of_pos fun c hc => by simpa using (hw c hc).2
  have hno : slash ∉ w := fun hmem => (hw slash hmem).1 rfl
  -- what follows is the end, or a slash
  by_cases hr : atEnd r = true
  · rw [components_atEnd hr]
    have hnil : r.takeWhile (· != 0) = [] := by
      cases r with
      | nil => rfl
      | cons c r => exact List.takeWhile_cons_of_neg (by simpa [atEnd] using hr)
    unfold components
    rw [htake, hnil, List.append_nil, List.splitOn_eq_singleton hno, List.filter_singleton,
      decide_eq_true hne]
    rfl
  · cases r with
    | nil => exact absurd rfl hr
    | cons c r =>
      have hc : c = slash := by
        have h0 : c ≠ 0 := by simpa [atEnd] using hr
        simpa [h0] using hhead
      subst hc
      rw [components_slash]
      unfold components
      rw [htake, List.takeWhile_cons_of_pos (by decide), List.splitOn_append_cons_self_of_not_mem hno,
        List.filter_cons_of_pos (by simpa using hne), List.map_cons]

/-- The rest of the path is shorter. -/
theorem skipelem_length {path rest : Path} {name : Name} (h : skipelem path = some (name, rest)) :
    rest.length < path.length := by
  unfold skipelem at h
  dsimp only at h
  split_ifs at h with hend
  obtain ⟨-, rfl⟩ := Prod.mk.inj (Option.some.inj h)
  have hle := (List.dropWhile_sublist (· == slash) (l := path)).length_le
  have hne := takeWhile_ne_nil (Bool.not_eq_true _ ▸ hend) (List.dropWhile_idempotent _ _)
  generalize path.dropWhile (· == slash) = p at *
  have hsplit := congrArg List.length
    (List.takeWhile_append_dropWhile (p := fun c => c != slash && c != 0) (l := p))
  rw [List.length_append] at hsplit
  have hpos := List.length_pos_of_ne_nil hne
  have hle' := (List.dropWhile_sublist (· == slash)
    (l := p.dropWhile fun c => c != slash && c != 0)).length_le
  omega

theorem skipelem_none {path : Path} (h : skipelem path = none) : components path = [] := by
  rw [← components_dropWhile]
  apply components_atEnd
  unfold skipelem at h
  dsimp only at h
  split_ifs at h with hend
  exact hend

theorem skipelem_some {path rest : Path} {name : Name} (h : skipelem path = some (name, rest)) :
    components path = name :: components rest ∧ (atEnd rest = true ↔ components rest = []) := by
  unfold skipelem at h
  dsimp only at h
  split_ifs at h with hend
  obtain ⟨rfl, rfl⟩ := Prod.mk.inj (Option.some.inj h)
  rw [Bool.not_eq_true] at hend
  refine ⟨?_, components_atEnd, fun hnil => ?_⟩
  · rw [components_dropWhile, ← components_dropWhile path]
    exact components_cons hend (List.dropWhile_idempotent _ _)
  · by_contra hmore
    rw [Bool.not_eq_true] at hmore
    rw [components_cons hmore (List.dropWhile_idempotent _ _)] at hnil
    cases hnil

/-! ## The walk -/

/-- The inode table has no room for two more inodes, and `iget` panics. -/
def NoRoom (sb : Superblock) (s : State) (e : Fault) : Prop :=
  ninode ≤ s.active sb + 1 ∧ e = .panic "iget: no inodes"

/-- The walk from `s₀` has come to `ip`, and has one reference to it. -/
structure At (sb : Superblock) (s₀ : State) (ip : ℕ) (s : State) : Prop where
  good : Good sb s
  tabled : Tabled s₀ s
  refs : s.refs = update s₀.refs ip (s₀.refs ip + 1)
  lasting : s₀.Lasting ip

/-- The walk from `s₀` has ended, with a reference to the inode it has found, if any. -/
def Ended (sb : Superblock) (s₀ : State) : Option ℕ → State → Prop
  | none, s => Good sb s ∧ Tabled s₀ s ∧ s.refs = s₀.refs
  | some ip, s => At sb s₀ ip s

theorem State.active_le (h : s.refs = update s₀.refs ip (s₀.refs ip + 1)) :
    s.active sb ≤ s₀.active sb + 1 := by
  have hother : ∀ j, j ≠ ip → (s.inode j).ref = (s₀.inode j).ref := by
    intro j hj
    have hrefs := congrFun h j
    rwa [update_of_ne hj] at hrefs
  have hcount : ∀ l : List ℕ, l.Nodup →
      l.countP (fun i => decide (0 < (s.inode i).ref))
        ≤ l.countP (fun i => decide (0 < (s₀.inode i).ref)) + if ip ∈ l then 1 else 0 := by
    intro l
    induction l with
    | nil => exact fun _ => Nat.zero_le _
    | cons j l ih =>
      intro hnodup
      obtain ⟨hj, hl⟩ := List.nodup_cons.mp hnodup
      have hrest := ih hl
      rw [List.countP_cons, List.countP_cons]
      by_cases hji : j = ip
      · subst hji
        rw [if_neg hj] at hrest
        rw [if_pos List.mem_cons_self]
        split_ifs <;> omega
      · rw [hother j hji]
        have hmem : ip ∈ j :: l ↔ ip ∈ l := by
          rw [List.mem_cons, or_iff_right (Ne.symm hji)]
        simp only [hmem]
        omega
  refine (hcount _ List.nodup_range).trans (Nat.add_le_add_left ?_ _)
  split_ifs <;> omega

theorem iget_outcome (bad : Fault → Prop) (h : Good sb s) (i : ℕ)
    (hfull : ninode ≤ s.active sb → ¬ bad (.panic "iget: no inodes")) :
    Outcome bad (fun s' => Good sb s' ∧ Tabled s s'
      ∧ s'.refs = update s.refs i (s.refs i + 1) ∧ ∀ j, s'.Held j ↔ s.Held j) (iget sb i s) := by
  cases hrun : iget sb i s with
  | ok s' => exact (iget_spec h i).of_ok hrun
  | error e =>
    unfold iget at hrun
    split_ifs at hrun with href hroom
    cases hrun
    exact hfull hroom

/-- `iput` of an inode that has not been read, or where it is not the last reference, or there is a
link: only the reference goes. -/
theorem iput_lasting (h : Good sb s)
    (hlast : s.Held ip → (s.cur ip).nlink ≠ 0 ∨ 1 < s.refs ip) :
    ∃ s', iput ip s = .ok s' ∧ Good sb s' ∧ Tabled s s'
      ∧ s'.refs = update s.refs ip (s.refs ip - 1)
      ∧ ∀ j, s.Held j → j ≠ ip ∨ 1 < s.refs ip → s'.Held j := by
  refine ⟨s.setRef ip (s.refs ip - 1), if_neg ?_, iput_kept h ip⟩
  rintro ⟨hone, hvalid, hnlink⟩
  have hheld : s.Held ip := ⟨hone ▸ Nat.one_pos, hvalid⟩
  have hlast := hlast hheld
  rw [State.cur_of_held hheld, State.refs, hone] at hlast
  exact hlast.elim (fun hne => hne hnlink) (lt_irrefl 1)

namespace At

variable {bad : Fault → Prop}

theorem ilock (h : At sb s₀ ip s) :
    Outcome bad (fun s' => At sb s₀ ip s' ∧ s'.Held ip) (ilock ip s) := by
  have hpos : ¬ (s.inode ip).ref < 1 := by
    have hrefs := congrFun h.refs ip
    rw [update_self, State.refs] at hrefs
    omega
  have htype : (s.dinode ip).type ≠ 0 := by
    rw [← h.good.cur_eq, h.tabled.cur]
    exact h.lasting.1
  cases hrun : Fs.ilock ip s with
  | ok s' =>
    obtain ⟨hgood, htab, hrefs, hheld, -⟩ := (ilock_spec h.good ip).of_ok hrun
    exact ⟨⟨hgood, h.tabled.trans htab, hrefs.trans h.refs, h.lasting⟩, hheld⟩
  | error e =>
    unfold Fs.ilock at hrun
    rw [if_neg hpos, if_neg htype] at hrun
    split_ifs at hrun

theorem iput (h : At sb s₀ ip s) : Outcome bad (Ended sb s₀ none) (iput ip s) := by
  have hone : s.refs ip = s₀.refs ip + 1 := by rw [h.refs, update_self]
  have hlast : (s.cur ip).nlink ≠ 0 ∨ 1 < s.refs ip := by
    rw [h.tabled.cur, hone]
    exact h.lasting.2.imp_right Nat.succ_lt_succ
  obtain ⟨s', hrun, hgood, htab, hrefs, -⟩ := iput_lasting h.good fun _ => hlast
  rw [hrun, Outcome.ok_iff]
  refine ⟨hgood, h.tabled.trans htab, ?_⟩
  rw [hrefs, hone, h.refs, update_idem, Nat.add_sub_cancel, update_eq_self]

/-- `dirlookup` on the way: the reference to what is found comes on top. -/
theorem dirlookup (h : At sb s₀ ip s) (hwalk : Walkable s₀) (hheld : s.Held ip)
    (hdir : (s₀.cur ip).type = tDir) (name : Name) :
    Outcome (fun e => ¬ NoRoom sb s₀ e)
      (fun r => r.1.map Prod.fst = s₀.child ip name
        ∧ (r.1 = none → r.2 = s) ∧ ∀ x, r.1 = some x → Good sb r.2 ∧ Tabled s r.2
          ∧ r.2.refs = update s.refs x.1 (s.refs x.1 + 1) ∧ s₀.Lasting x.1)
      (dirlookup sb ip name s) := by
  have hcur : s.cur ip = s₀.cur ip := congrFun h.tabled.cur ip
  have hsize : direntSize ∣ (s.cur ip).size := hcur ▸ hwalk.whole ip hdir
  rw [dirlookup_eq h.good.toInv hheld (hcur ▸ hdir) hsize]
  unfold State.child
  rw [if_pos hdir, ← h.tabled.lookup, ← h.tabled.entry]
  cases hl : s.lookup ip name with
  | none => exact ⟨rfl, fun _ => rfl, fun _ hx => by cases hx⟩
  | some j =>
    obtain ⟨hj, hne⟩ := State.lookup_some hl
    rw [Option.elim_some, Option.map_some]
    have hlasting : s₀.Lasting (s.entry ip j).inum := by
      rw [h.tabled.entry] at hne ⊢
      rw [h.tabled.entries] at hj
      exact hwalk.named ip j hdir hj hne
    have hget := iget_outcome (fun e => ¬ NoRoom sb s₀ e) h.good (s.entry ip j).inum
      fun hfull => not_not_intro ⟨hfull.trans (State.active_le h.refs), rfl⟩
    refine hget.bind (f := fun s' => .ok (some ((s.entry ip j).inum, j * direntSize), s')) ?_
    rintro s₁ ⟨hgood, htab, hrefs, -⟩
    refine ⟨rfl, (fun hnone => by cases hnone), fun x hx => ?_⟩
    cases hx
    exact ⟨hgood, htab, hrefs, hlasting⟩

/-- **One turn of the walk**: the directory is looked at, and then left. -/
theorem next (h : At sb s₀ ip s) (hwalk : Walkable s₀) (hheld : s.Held ip)
    (hdir : (s₀.cur ip).type = tDir) (name : Name) :
    Outcome (fun e => ¬ NoRoom sb s₀ e)
      (fun r => r.1.map Prod.fst = s₀.child ip name ∧ Ended sb s₀ (r.1.map Prod.fst) r.2)
      (Fs.dirlookup sb ip name s >>= fun r => Fs.iput ip r.2 >>= fun s' => .ok (r.1, s')) := by
  apply (h.dirlookup hwalk hheld hdir name).bind
  rintro ⟨found, s₁⟩ ⟨hchild, hnone, hsome⟩
  cases found with
  | none =>
    obtain rfl := hnone rfl
    exact h.iput.bind fun s' hs' => ⟨hchild, hs'⟩
  | some x =>
    obtain ⟨hgood, htab, hrefs, hlasting⟩ := hsome x rfl
    obtain ⟨inum, off⟩ := x
    dsimp only at hgood htab hrefs hlasting
    -- `inum` may be the directory itself, which then has two more references here
    have hmore : s₁.refs ip = s₀.refs ip + 1 + if inum = ip then 1 else 0 := by
      rw [hrefs, h.refs]
      by_cases hsame : inum = ip
      · subst hsame
        rw [update_self, update_self, if_pos rfl]
      · rw [update_of_ne (Ne.symm hsame), update_self, if_neg hsame]
    have hlast : (s₁.cur ip).nlink ≠ 0 ∨ 1 < s₁.refs ip := by
      rw [htab.cur, h.tabled.cur, hmore]
      exact h.lasting.2.imp_right fun hpos => by omega
    obtain ⟨s₂, hput, hgood₂, htab₂, hrefs₂, -⟩ := iput_lasting hgood fun _ => hlast
    rw [hput, ok_bind, Outcome.ok_iff]
    refine ⟨hchild, hgood₂, (h.tabled.trans htab).trans htab₂, ?_, hlasting⟩
    change s₂.refs = update s₀.refs inum (s₀.refs inum + 1)
    funext j'
    rw [hrefs₂, hmore, hrefs, h.refs]
    by_cases hji : j' = ip
    · subst hji
      rw [update_self]
      by_cases hsame : inum = j'
      · subst hsame
        rw [update_self, if_pos rfl]
        omega
      · rw [update_of_ne (Ne.symm hsame), if_neg hsame]
        omega
    · rw [update_of_ne hji]
      by_cases hin : j' = inum
      · subst hin
        rw [update_self, update_self, update_of_ne hji]
      · rw [update_of_ne hin, update_of_ne hin, update_of_ne hji]

end At

/-! ## `namex` -/

theorem namexFrom_spec (hwalk : Walkable s₀) (parent : Bool) {fuel : ℕ} {path : Path}
    (hfuel : path.length < fuel) (name : Name) (h : At sb s₀ ip s) :
    Outcome (fun e => ¬ NoRoom sb s₀ e)
      (fun r => s₀.Finds parent ip (components path) r.1 ∧ Ended sb s₀ (r.1.map Prod.fst) r.2)
      (namexFrom sb parent fuel ip name path s) := by
  induction fuel generalizing ip name path s with
  | zero => exact absurd hfuel (Nat.not_lt_zero _)
  | succ fuel ih =>
    unfold namexFrom
    cases helem : skipelem path with
    | none =>
      rw [skipelem_none helem]
      dsimp only
      cases parent with
      | true => exact h.iput.bind fun s' hs' => ⟨rfl, hs'⟩
      | false => exact ⟨rfl, h⟩
    | some elem =>
      obtain ⟨name', rest⟩ := elem
      obtain ⟨hnames, hlast⟩ := skipelem_some helem
      rw [hnames]
      dsimp only
      apply h.ilock.bind
      rintro s₁ ⟨h₁, hheld⟩
      have hcur : s₁.copy ip = s₀.cur ip := by rw [← State.cur_of_held hheld, h₁.tabled.cur]
      by_cases htype : (s₁.copy ip).type = tDir
      · rw [if_neg (not_not_intro htype)]
        split_ifs with hend
        · -- the last component, for `nameiparent`
          rw [Bool.and_eq_true, hlast] at hend
          rw [hend.1, hend.2]
          refine ⟨?_, h₁⟩
          rw [hcur] at htype
          exact (if_pos htype).symm
        · have hmore : parent = true → components rest ≠ [] :=
            fun hp hnil => hend (by rw [hp, hlast.mpr hnil]; rfl)
          have hturn := h₁.next hwalk hheld (hcur ▸ htype) name'
          cases hlook : dirlookup sb ip name' s₁ with
          | error e =>
            rw [hlook] at hturn
            exact hturn
          | ok r =>
            obtain ⟨found, s₂⟩ := r
            rw [hlook, ok_bind] at hturn
            rw [ok_bind]
            dsimp only at hturn ⊢
            cases hput : Fs.iput ip s₂ with
            | error e =>
              rw [hput] at hturn
              exact hturn
            | ok s₃ =>
              rw [hput, ok_bind, Outcome.ok_iff] at hturn
              rw [ok_bind]
              obtain ⟨hchild, hended⟩ := hturn
              simp only [State.finds_cons hmore, ← hchild]
              cases found with
              | none => exact ⟨rfl, hended⟩
              | some next => exact ih (by have := skipelem_length helem; omega) name' hended
      · rw [if_pos htype]
        rw [hcur] at htype
        exact h₁.iput.bind fun s' hs' => ⟨State.finds_of_not_dir htype .., hs'⟩

/-- Where a path begins. -/
def start (cwd : ℕ) (path : Path) : ℕ := if path.headD 0 = slash then rootino else cwd

/-- **`namex`** finds what the path stands for, and ends with one reference more, to the inode it
returns; it can only fail because the inode table has no room. -/
theorem namex_spec (h : Good sb s) (hwalk : Walkable s) (parent : Bool) {cwd : ℕ}
    (hcwd : 0 < s.refs cwd) (htype : (s.cur cwd).type ≠ 0) (path : Path) :
    Outcome (fun e => ¬ NoRoom sb s e)
      (fun r => s.Finds parent (start cwd path) (components path) r.1
        ∧ Ended sb s (r.1.map Prod.fst) r.2)
      (namex sb parent cwd path s) := by
  unfold namex start
  split_ifs
  · have hget := iget_outcome (fun e => ¬ NoRoom sb s e) h rootino
      fun hfull => not_not_intro ⟨Nat.le_succ_of_le hfull, rfl⟩
    apply hget.bind
    rintro s₁ ⟨hgood, htab, hrefs, -⟩
    exact namexFrom_spec hwalk parent (Nat.lt_succ_self _) [] ⟨hgood, htab, hrefs, hwalk.root⟩
  · obtain ⟨hgood, htab, hrefs, -⟩ := addRef_spec h hcwd
    exact namexFrom_spec hwalk parent (Nat.lt_succ_self _) []
      ⟨hgood, htab, hrefs, htype, Or.inr hcwd⟩

theorem rootSb_size : 8 < 2 ^ 32 := by decide

theorem rootSb_boot : 3 < 8 := by decide

/-- A disk with more inodes than the table has entries. -/
def rootSb : Superblock := ⟨8, 3, 60, rootSb_size, rootSb_boot⟩

/-- The root has an entry `a` for the inode 2, and the other directories are empty.  The root is in
the inode table, and if that is crowded so are all the inodes from 3 on. -/
def rootDir (crowded : Bool) : State where
  bitmap := fun b => decide (b ≤ 5)
  dinode := fun i => if i = 1 then ⟨tDir, 0, 0, 1, direntSize, fun k => if k.val = 0 then 5 else 0⟩
    else ⟨tDir, 0, 0, 1, 0, fun _ => 0⟩
  block := fun b k => if b = 5 then (Dirent.toBytes ⟨2, [97]⟩).getD k 0 else 0
  inode := fun i => ⟨if i = 1 ∨ (2 < i ∧ crowded) then 1 else 0, true,
    if i = 1 then ⟨tDir, 0, 0, 1, direntSize, fun k => if k.val = 0 then 5 else 0⟩
    else ⟨tDir, 0, 0, 1, 0, fun _ => 0⟩⟩
  ballocs := 0
  logged := []

theorem rootDir_image (crowded : Bool) : Image rootSb (rootDir crowded) := by
  refine ⟨fun _ => Iff.rfl, fun _ => decide_eq_true_iff, fun _ _ => rfl, ?_, ?_, ?_,
    show tDir ≠ 0 by decide⟩
  all_goals intro i
  · intro _
    by_cases hi : i = 1 <;> simp [rootDir, hi, tDir]
  · by_cases hi : i = 1 <;> simp [rootDir, hi]
  · by_cases hi : i = 1 <;> simp [rootDir, hi, bsize, direntSize]

theorem rootDir_walkable (crowded : Bool) : Walkable (rootDir crowded) := by
  have hcur := (rootDir_image crowded).cur
  have hlasting : ∀ i, (rootDir crowded).Lasting i := by
    intro i
    unfold State.Lasting
    rw [hcur]
    by_cases hi : i = 1 <;> simp [rootDir, hi, tDir]
  refine ⟨fun i _ => ?_, fun _ _ _ _ _ => hlasting _, hlasting _⟩
  rw [hcur]
  by_cases hi : i = 1 <;> simp [rootDir, hi]

end Xv6.Fs
