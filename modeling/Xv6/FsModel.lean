/-
# The inode layer of the file system (`kernel/fs.c`)

The functions of `fs.c` from `balloc` to `namex`, each run without interruption (`ialloc` is in
`ItableModel`).  The free map, the inodes on disk and the other blocks are kept apart; the calls of
`log_write` are kept as history, and so is the number of those of `balloc`.  There is one device,
and an entry of the inode table is named by its inode number, of which `iget` makes sure there is
one.  The sleeplocks are left out.

What the user's memory holds, and where it ends, is an input of the functions that copy.
-/
import Xv6.ItableModel

namespace Xv6.Fs

open Function

open Itable (Dinode ninode naddrs)

/-! ## Constants -/

/-- `BSIZE`. -/
def bsize : ℕ := 1024

/-- `BPB`, the bits of a block of the free map. -/
def bpb : ℕ := bsize * 8

/-- `IPB`, the inodes of a block. -/
def ipb : ℕ := bsize / 64

/-- `NDIRECT`. -/
def ndirect : ℕ := 12

/-- `NINDIRECT`. -/
def nindirect : ℕ := bsize / 4

/-- `MAXFILE`. -/
def maxfile : ℕ := ndirect + nindirect

/-- `DIRSIZ`. -/
def dirsiz : ℕ := 14

/-- `sizeof(struct dirent)`. -/
def direntSize : ℕ := 16

/-- `ROOTINO`. -/
def rootino : ℕ := 1

/-- `T_DIR`. -/
def tDir : ℤ := 1

/-- `T_FILE`. -/
def tFile : ℤ := 2

/-- The fields of `struct superblock` that `fs.c` uses.  The blocks before the last `nblocks` are
the boot block, the super block, the log, the inodes and the free map. -/
structure Superblock where
  size : ℕ
  nblocks : ℕ
  ninodes : ℕ
  size_lt : size < 2 ^ 32
  boot : nblocks < size

namespace Superblock

/-- The block holds metadata. -/
def Meta (sb : Superblock) (b : ℕ) : Prop := b < sb.size - sb.nblocks

instance (sb : Superblock) (b : ℕ) : Decidable (sb.Meta b) := inferInstanceAs (Decidable (_ < _))

end Superblock

/-! ## Blocks -/

/-- The bytes of a block. -/
abbrev Block := ℕ → UInt8

namespace Block

/-- `((uint*)data)[j]`. -/
def word (b : Block) (j : ℕ) : ℕ :=
  (b (4 * j)).toNat + 2 ^ 8 * (b (4 * j + 1)).toNat + 2 ^ 16 * (b (4 * j + 2)).toNat
    + 2 ^ 24 * (b (4 * j + 3)).toNat

/-- `((uint*)data)[j] = v`. -/
def setWord (b : Block) (j v : ℕ) : Block := fun k =>
  if k / 4 = j then UInt8.ofNat (v / 2 ^ (8 * (k % 4))) else b k

/-- The bytes from `o` on are replaced by the first `m` of `bytes`. -/
def fill (b : Block) (o : ℕ) (bytes : ℕ → UInt8) (m : ℕ) : Block := fun k =>
  if o ≤ k ∧ k < o + m then bytes (k - o) else b k

end Block

/-! ## The state -/

/-- What `log_write` is called for: a block of the free map, a block of inodes, or another one. -/
inductive LogBlock where
  /-- `BBLOCK(b, sb)`, as the number of the block in the free map. -/
  | bitmap (k : ℕ)
  /-- `IBLOCK(i, sb)`, as the number of the block among those of the inodes. -/
  | inodes (k : ℕ)
  | data (b : ℕ)
  deriving DecidableEq

/-- An entry of `itable`. -/
structure Inode where
  ref : ℕ
  valid : Bool
  copy : Dinode

/-- The disk as the buffer cache shows it, the inode table, and how often `balloc` has been called
and for which blocks `log_write`, as history. -/
structure State where
  bitmap : ℕ → Bool
  dinode : ℕ → Dinode
  block : ℕ → Block
  inode : ℕ → Inode
  ballocs : ℕ
  logged : List LogBlock

namespace State

/-- `log_write(b)`. -/
def logWrite (s : State) (b : LogBlock) : State := { s with logged := b :: s.logged }

/-- Write the bit of `b` in the free map. -/
def setBit (s : State) (b : ℕ) (v : Bool) : State :=
  { s with bitmap := update s.bitmap b v }

/-- Write the block `b`. -/
def setBlock (s : State) (b : ℕ) (data : Block) : State :=
  { s with block := update s.block b data }

/-- Write an entry of the inode table. -/
def setInode (s : State) (i : ℕ) (ip : Inode) : State :=
  { s with inode := update s.inode i ip }

/-- What the inode table has of the inode. -/
def copy (s : State) (i : ℕ) : Dinode := (s.inode i).copy

/-- Change what the inode table has of the inode. -/
def setCopy (s : State) (i : ℕ) (d : Dinode) : State :=
  s.setInode i { s.inode i with copy := d }

/-- `ip->addrs[k] = b`. -/
def setAddr (s : State) (i : ℕ) (k : Fin naddrs) (b : ℕ) : State :=
  s.setCopy i { s.copy i with addrs := update (s.copy i).addrs k b }

/-- `ip->ref = n`. -/
def setRef (s : State) (i n : ℕ) : State := s.setInode i { s.inode i with ref := n }

end State

/-- The index of the pointer to the indirect block in `addrs`. -/
def indirect : Fin naddrs := ⟨ndirect, by decide⟩

/-- A direct index. -/
def direct (k : Fin ndirect) : Fin naddrs := ⟨k, Nat.lt_trans k.isLt (by decide)⟩

section

variable (sb : Superblock)

/-! ## The free map -/

/-- `bzero(dev, bno)`. -/
def bzero (b : ℕ) (s : State) : State := (s.setBlock b fun _ => 0).logWrite (.data b)

/-- `balloc(dev)`: the first free block, or `0`. -/
def balloc (s : State) : ℕ × State :=
  let s := { s with ballocs := s.ballocs + 1 }
  match (List.range sb.size).find? (fun b => !s.bitmap b) with
  | some b => (b, bzero b ((s.setBit b true).logWrite (.bitmap (b / bpb))))
  | none => (0, s)

/-- `bfree(dev, b)`. -/
def bfree (b : ℕ) (s : State) : Except Fault State :=
  if s.bitmap b = false then .error (.panic "freeing free block")
  else .ok ((s.setBit b false).logWrite (.bitmap (b / bpb)))

/-! ## Inodes -/

/-- `iupdate(ip)`. -/
def iupdate (i : ℕ) (s : State) : State :=
  { s with dinode := update s.dinode i (s.copy i) }.logWrite (.inodes (i / ipb))

/-- How many entries of the inode table are in use. -/
def State.active (s : State) : ℕ :=
  (List.range sb.ninodes).countP fun i => decide (0 < (s.inode i).ref)

/-- `iget(dev, inum)`. -/
def iget (i : ℕ) (s : State) : Except Fault State :=
  if 0 < (s.inode i).ref then .ok (s.setRef i ((s.inode i).ref + 1))
  else if ninode ≤ s.active sb then .error (.panic "iget: no inodes")
  else .ok (s.setInode i { s.inode i with ref := 1, valid := false })

/-- `idup(ip)`. -/
def idup (i : ℕ) (s : State) : State := s.setRef i ((s.inode i).ref + 1)

/-- `ilock(ip)`. -/
def ilock (i : ℕ) (s : State) : Except Fault State :=
  if (s.inode i).ref < 1 then .error (.panic "ilock")
  else if (s.inode i).valid then .ok s
  else if (s.dinode i).type = 0 then .error (.panic "ilock: no type")
  else .ok (s.setInode i { s.inode i with valid := true, copy := s.dinode i })

/-! ## The block map -/

/-- The block in `ip->addrs[k]`, which is allocated if there is none. -/
def bmapAddr (i : ℕ) (k : Fin naddrs) (s : State) : ℕ × State :=
  if (s.copy i).addrs k = 0 then
    let (addr, s) := balloc sb s
    if addr = 0 then (0, s) else (addr, s.setAddr i k addr)
  else ((s.copy i).addrs k, s)

/-- The block in entry `j` of the indirect block `addr`, which is allocated if there is none. -/
def bmapEntry (addr j : ℕ) (s : State) : ℕ × State :=
  if (s.block addr).word j = 0 then
    let (b, s) := balloc sb s
    if b = 0 then (0, s) else (b, (s.setBlock addr ((s.block addr).setWord j b)).logWrite (.data addr))
  else ((s.block addr).word j, s)

/-- `bmap(ip, bn)`. -/
def bmap (i bn : ℕ) (s : State) : Except Fault (ℕ × State) :=
  if h : bn < ndirect then .ok (bmapAddr sb i (direct ⟨bn, h⟩) s)
  else if bn - ndirect < nindirect then
    let (addr, s) := bmapAddr sb i indirect s
    if addr = 0 then .ok (0, s) else .ok (bmapEntry sb addr (bn - ndirect) s)
  else .error (.panic "bmap: out of range")

/-- A turn of the first loop of `itrunc`. -/
def truncDirect (i : ℕ) (s : State) (k : Fin ndirect) : Except Fault State :=
  if (s.copy i).addrs (direct k) = 0 then .ok s
  else do
    let s ← bfree ((s.copy i).addrs (direct k)) s
    return s.setAddr i (direct k) 0

/-- A turn of the second loop of `itrunc`, where `a` is the indirect block. -/
def truncEntry (a : Block) (s : State) (j : Fin nindirect) : Except Fault State :=
  if a.word j = 0 then .ok s else bfree (a.word j) s

/-- The indirect block in `itrunc`. -/
def truncIndirect (i : ℕ) (s : State) : Except Fault State :=
  if (s.copy i).addrs indirect = 0 then .ok s
  else do
    let addr := (s.copy i).addrs indirect
    let s ← (List.finRange nindirect).foldlM (truncEntry (s.block addr)) s
    let s ← bfree addr s
    return s.setAddr i indirect 0

/-- `itrunc(ip)`. -/
def itrunc (i : ℕ) (s : State) : Except Fault State := do
  let s ← (List.finRange ndirect).foldlM (truncDirect i) s
  let s ← truncIndirect i s
  return iupdate i (s.setCopy i { s.copy i with size := 0 })

/-- `iput(ip)`. -/
def iput (i : ℕ) (s : State) : Except Fault State :=
  if (s.inode i).ref = 1 ∧ (s.inode i).valid = true ∧ (s.copy i).nlink = 0 then do
    let s ← itrunc i s
    let s := iupdate i (s.setCopy i { s.copy i with type := 0 })
    return s.setInode i { s.inode i with ref := (s.inode i).ref - 1, valid := false }
  else .ok (s.setRef i ((s.inode i).ref - 1))

/-! ## Reading and writing -/

/-- The loop of `readi`: `dst k` says that byte `k` of the destination may be written, and the
bytes that were copied are returned.  Every turn copies at least one byte. -/
def readLoop (i : ℕ) (dst : ℕ → Bool) :
    ℕ → ℕ → ℕ → ℕ → List UInt8 → State → Except Fault ((ℤ × List UInt8) × State)
  | 0, tot, _, _, out, s => .ok ((tot, out), s)
  | fuel + 1, tot, off, n, out, s =>
    if tot < n then do
      let (addr, s) ← bmap sb i (off / bsize) s
      if addr = 0 then return ((tot, out), s)
      else
        let m := min (n - tot) (bsize - off % bsize)
        if (List.range m).all (fun k => dst (tot + k)) then
          readLoop i dst fuel (tot + m) (off + m) n
            (out ++ (List.range m).map fun k => s.block addr (off % bsize + k)) s
        else return ((-1, out), s)
    else .ok ((tot, out), s)

/-- `readi(ip, user_dst, dst, off, n)`. -/
def readi (i : ℕ) (dst : ℕ → Bool) (off n : UInt32) (s : State) :
    Except Fault ((ℤ × List UInt8) × State) :=
  let size := (s.copy i).size
  if size < off.toNat ∨ off + n < off then .ok ((0, []), s)
  else
    let n := if size < (off + n).toNat then size - off.toNat else n.toNat
    readLoop sb i dst n 0 off.toNat n [] s

/-- Where `writei` copies from: the bytes that can be read, and whether what a failing copy left
in a buffer is still there when the block is read again. -/
structure Source where
  byte : ℕ → Option UInt8
  kept : Bool

/-- How many of the `m` bytes from `tot` on can be read. -/
def Source.readable (src : Source) (tot m : ℕ) : ℕ :=
  (List.range m).findIdx fun k => (src.byte (tot + k)).isNone

/-- The loop of `writei`, with the number of bytes written, and `off`, at its end. -/
def writeLoop (i : ℕ) (src : Source) :
    ℕ → ℕ → ℕ → ℕ → State → Except Fault ((ℕ × ℕ) × State)
  | 0, tot, off, _, s => .ok ((tot, off), s)
  | fuel + 1, tot, off, n, s =>
    if tot < n then do
      let (addr, s) ← bmap sb i (off / bsize) s
      if addr = 0 then return ((tot, off), s)
      else
        let m := min (n - tot) (bsize - off % bsize)
        let c := src.readable tot m
        let data := (s.block addr).fill (off % bsize) (fun k => (src.byte (tot + k)).getD 0) c
        if c < m then return ((tot, off), if src.kept then s.setBlock addr data else s)
        else writeLoop i src fuel (tot + m) (off + m) n ((s.setBlock addr data).logWrite (.data addr))
    else .ok ((tot, off), s)

/-- `writei(ip, user_src, src, off, n)`. -/
def writei (i : ℕ) (src : Source) (off n : UInt32) (s : State) : Except Fault (ℤ × State) :=
  if (s.copy i).size < off.toNat ∨ off + n < off then .ok (-1, s)
  else if maxfile * bsize < (off + n).toNat then .ok (-1, s)
  else do
    let ((tot, off), s) ← writeLoop sb i src n.toNat 0 off.toNat n.toNat s
    let s := if (s.copy i).size < off then s.setCopy i { s.copy i with size := off } else s
    return (tot, iupdate i s)

/-! ## Directories -/

/-- The characters of a name; it ends at the first zero, or after `DIRSIZ` of them. -/
abbrev Name := List UInt8

/-- The characters that count. -/
def Name.cut (name : Name) : Name := (name.take dirsiz).takeWhile (· != 0)

/-- `namecmp(s, t) == 0`. -/
def namecmp (s t : Name) : Bool := s.cut == t.cut

/-- `struct dirent`. -/
structure Dirent where
  inum : ℕ
  name : Name
  deriving DecidableEq

namespace Dirent

/-- The bytes of an entry; `strncpy` fills the name with zeros. -/
def toBytes (de : Dirent) : List UInt8 :=
  [UInt8.ofNat de.inum, UInt8.ofNat (de.inum / 2 ^ 8)]
    ++ (de.name.cut ++ List.replicate (dirsiz - de.name.cut.length) 0)

/-- The entry in some bytes. -/
def ofBytes (l : List UInt8) : Dirent where
  inum := (l.getD 0 0).toNat + 2 ^ 8 * (l.getD 1 0).toNat
  name := Name.cut (l.drop 2)

/-- The entry as something to write, in the kernel's memory. -/
def source (de : Dirent) : Source := ⟨fun k => some (de.toBytes.getD k 0), true⟩

end Dirent

/-- Read the entry at `off` into the kernel's memory, or panic. -/
def readDirent (msg : String) (dp off : ℕ) (s : State) : Except Fault (Dirent × State) := do
  let ((r, bytes), s) ← readi sb dp (fun _ => true) (UInt32.ofNat off) (UInt32.ofNat direntSize) s
  if r ≠ direntSize then .error (.panic msg) else return (Dirent.ofBytes bytes, s)

/-- The first entry from `off` on for which `p` holds, and its offset.  It is `for (off = ..; off <
dp->size; off += sizeof(de))` with a `readi` in the body. -/
def scan (msg : String) (p : Dirent → Bool) (dp : ℕ) :
    ℕ → ℕ → State → Except Fault (Option (Dirent × ℕ) × State)
  | 0, _, s => .ok (none, s)
  | fuel + 1, off, s =>
    if off < (s.copy dp).size then do
      let (de, s) ← readDirent sb msg dp off s
      if p de then return (some (de, off), s) else scan msg p dp fuel (off + direntSize) s
    else .ok (none, s)

/-- How many turns the loops over a directory make at most. -/
def State.turns (s : State) (dp : ℕ) : ℕ := (s.copy dp).size / direntSize + 1

/-- `dirlookup(dp, name, poff)`: the inode, with a reference, and the offset of its entry. -/
def dirlookup (dp : ℕ) (name : Name) (s : State) : Except Fault (Option (ℕ × ℕ) × State) :=
  if (s.copy dp).type ≠ tDir then .error (.panic "dirlookup not DIR")
  else do
    let (found, s) ← scan sb "dirlookup read"
      (fun de => de.inum != 0 && namecmp name de.name) dp (s.turns dp) 0 s
    match found with
    | none => return (none, s)
    | some (de, off) => do
      let s ← iget sb de.inum s
      return (some (de.inum, off), s)

/-- `dirlink(dp, name, inum)`: `true` for `0`. -/
def dirlink (dp : ℕ) (name : Name) (inum : ℕ) (s : State) : Except Fault (Bool × State) := do
  let (found, s) ← dirlookup sb dp name s
  match found with
  | some (ip, _) => do
    let s ← iput ip s
    return (false, s)
  | none => do
    let (free, s) ← scan sb "dirlink read" (fun de => de.inum == 0) dp (s.turns dp) 0 s
    let off := (free.map Prod.snd).getD (s.copy dp).size
    let (r, s) ← writei sb dp (Dirent.source ⟨inum, name⟩) (UInt32.ofNat off)
      (UInt32.ofNat direntSize) s
    return (decide (r = direntSize), s)

/-! ## Paths -/

/-- The characters of a path; it ends at the first zero. -/
abbrev Path := List UInt8

/-- `'/'`. -/
def slash : UInt8 := 47

/-- `*path == 0`. -/
def atEnd (path : Path) : Bool := path.headD 0 == 0

/-- `skipelem(path, name)`: the element and the rest. -/
def skipelem (path : Path) : Option (Name × Path) :=
  let path := path.dropWhile (· == slash)
  if atEnd path then none
  else
    let inside := fun c : UInt8 => c != slash && c != 0
    some ((path.takeWhile inside).take dirsiz, (path.dropWhile inside).dropWhile (· == slash))

/-- The loop of `namex`; every turn goes on by a character. -/
def namexFrom (parent : Bool) :
    ℕ → ℕ → Name → Path → State → Except Fault (Option (ℕ × Name) × State)
  | 0, _, _, _, _ => .error .noReturn
  | fuel + 1, ip, name, path, s =>
    match skipelem path with
    | none =>
      if parent then do
        let s ← iput ip s
        return (none, s)
      else .ok (some (ip, name), s)
    | some (name, path) => do
      let s ← ilock ip s
      if (s.copy ip).type ≠ tDir then do
        let s ← iput ip s
        return (none, s)
      else if parent && atEnd path then return (some (ip, name), s)
      else do
        let (next, s) ← dirlookup sb ip name s
        let s ← iput ip s
        match next with
        | none => return (none, s)
        | some (next, _) => namexFrom parent fuel next name path s

/-- `namex(path, nameiparent, name)`, in a process with the current directory `cwd`. -/
def namex (parent : Bool) (cwd : ℕ) (path : Path) (s : State) :
    Except Fault (Option (ℕ × Name) × State) :=
  if path.headD 0 = slash then do
    let s ← iget sb rootino s
    namexFrom sb parent (path.length + 1) rootino [] path s
  else namexFrom sb parent (path.length + 1) cwd [] path (idup cwd s)

/-- `namei(path)`. -/
def namei (cwd : ℕ) (path : Path) (s : State) : Except Fault (Option ℕ × State) := do
  let (ip, s) ← namex sb false cwd path s
  return (ip.map Prod.fst, s)

/-- `nameiparent(path, name)`. -/
def nameiparent (cwd : ℕ) (path : Path) (s : State) :
    Except Fault (Option (ℕ × Name) × State) :=
  namex sb true cwd path s

end

end Xv6.Fs
