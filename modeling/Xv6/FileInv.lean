/-
# Exact references

While a call runs it may have references that no descriptor stands for: a new entry of
`ftable` before `fdalloc`, a file whose descriptor is already gone.  These are in its
`hand`, and the invariant `FileInv` counts them: the references of a file are its
descriptors and those in the hand.  Each operation moves references between the
descriptors, the hand and nothing, and between two calls the hand is empty.

An open end of a pipe is exactly one entry of `ftable`, and the pages of the pipes with
an open end are a part of the account of the outstanding pages (`PipesInv`).
-/
import Xv6.FileModel
import Xv6.Isolation

namespace Xv6.Ftable

open Function

variable {k k' : Kernel} {hand : Multiset ℕ} {p pj : ℕ}

/-! ## The ends of a pipe -/

/-- Whether an end is open. -/
def Pipe.isOpen (pi : Pipe) (writable : Bool) : Bool :=
  if writable then pi.writeopen else pi.readopen

/-- Some end is open. -/
def Pipe.Live (pi : Pipe) : Prop := ∃ w, pi.isOpen w = true

@[simp] theorem Pipe.id_shut (pi : Pipe) (w : Bool) : (pi.shut w).id = pi.id := by
  cases w <;> rfl

theorem Pipe.isOpen_shut (pi : Pipe) (v w : Bool) :
    (pi.shut w).isOpen v = true ↔ pi.isOpen v = true ∧ v ≠ w := by
  cases v <;> cases w <;> simp [Pipe.shut, Pipe.isOpen]

/-- The condition under which `pipeclose` frees the page. -/
theorem Pipe.closed_iff (pi : Pipe) : (pi.readopen = false ∧ pi.writeopen = false) ↔ ¬ pi.Live := by
  constructor
  · rintro ⟨hr, hw⟩ ⟨v, hv⟩
    cases v <;> simp_all [Pipe.isOpen]
  · intro h
    constructor
    · exact Bool.eq_false_iff.mpr fun hr => h ⟨false, hr⟩
    · exact Bool.eq_false_iff.mpr fun hw => h ⟨true, hw⟩

/-! ## The invariants -/

/-- The entries of `ftable`, with the references of `hand` on top of those of the descriptors. -/
structure EntriesInv (hand : Multiset ℕ) (s : Tables) : Prop where
  refs : ∀ f, (s.kernel.file f).ref = fdCount s.kernel f + hand.count f
  idle : ∀ f, (s.kernel.file f).ref = 0 → (s.kernel.file f).ip = none
  ended : ∀ f e, s.pipeOf f = some e → (s.kernel.file f).ip = none ∧ (s.kernel.file f).ref ≠ 0

/-- The pipes, with the pages of `boot` outstanding for other reasons. -/
structure PipesInv (boot : Multiset ℕ) (s : Tables) : Prop where
  single : ∀ f g e, s.pipeOf f = some e → s.pipeOf g = some e → f = g
  ends : ∀ pi w, (s.pipe pi).isOpen w = true ↔ ∃ f, s.pipeOf f = some (pi, w)
  numbered : ∀ pi, (s.pipe pi).Live → (s.pipe pi).id < s.born ∧ s.freed (s.pipe pi).id = 0
  distinct : ∀ pi pj, (s.pipe pi).Live → (s.pipe pj).Live → (s.pipe pi).id = (s.pipe pj).id → pi = pj
  once : ∀ i, i < s.born → (∀ pi, (s.pipe pi).Live → (s.pipe pi).id ≠ i) → s.freed i = 1
  unborn : ∀ i, s.born ≤ i → s.freed i = 0
  isPage : ∀ pi, (s.pipe pi).Live → s.kernel.mem.IsPage pi
  pages : ∃ live : Finset ℕ, (∀ pi, pi ∈ live ↔ (s.pipe pi).Live) ∧ Accounts (boot + live.val) s.kernel

/-- What holds while a call runs. -/
structure FileInv (boot hand : Multiset ℕ) (s : Tables) : Prop where
  entries : EntriesInv hand s
  pipes : PipesInv boot s

/-- Only descriptors of `p`, files, inodes and the pool have changed. -/
structure Touched (p : ℕ) (k k' : Kernel) : Prop where
  kend : k'.mem.kend = k.mem.kend
  only : FilesOnly p { k with mem := k'.mem } k'

theorem Touched.refl (p : ℕ) (k : Kernel) : Touched p k k := ⟨rfl, FilesOnly.refl p k⟩

theorem Touched.trans {k'' : Kernel} (h : Touched p k k') (h' : Touched p k' k'') :
    Touched p k k'' := by
  have honly : FilesOnly p { k with mem := k''.mem } { k' with mem := k''.mem } := by
    refine ⟨?_, h.only.other, h.only.self⟩
    have hrest := h.only.rest
    exact congrArg (fun x : Kernel => { x with mem := k''.mem }) hrest
  exact ⟨h'.kend.trans h.kend, honly.trans h'.only⟩

theorem Touched.setFd (p : ℕ) (k : Kernel) (fd : Fin nofile) (f : Option ℕ) :
    Touched p k (k.setFd p fd f) :=
  ⟨rfl, (FilesOnly.refl p k).setFd fd f⟩

theorem Touched.of_proc (p : ℕ) (hkend : k'.mem.kend = k.mem.kend)
    (hrest : k' = { k with file := k'.file, inodeRef := k'.inodeRef, mem := k'.mem }) :
    Touched p k k' := by
  have hproc : k'.proc = k.proc := by rw [hrest]
  refine ⟨hkend, FilesOnly.of_proc p hproc ?_⟩
  rw [hproc]
  exact hrest

/-- The rest of the invariant of the kernel holds again as soon as the counts are exact. -/
theorem Touched.inv (h : Touched p k k') (hk : KInv k) (hp : (k.proc p).Live)
    (hfiles : FilesExact k') : KInv k' := by
  have hmem : KInv { k with mem := k'.mem } :=
    ⟨fun q => (hk.slots q).of_kend h.kend, hk.files.congr (fun _ => rfl) (fun _ => rfl), hk.ns, hk.noded⟩
  exact hmem.filesOnly hp hfiles h.only

theorem Touched.owned (h : Touched p k k') (q : ℕ) : (k'.proc q).owned = (k.proc q).owned := by
  by_cases hq : q = p
  · rw [hq, h.only.self]
    rfl
  · rw [h.only.other q hq]

/-- An operation that leaves the pipes alone. -/
theorem PipesInv.touched {boot : Multiset ℕ} {s t : Tables} (h : PipesInv boot s)
    (ht : Touched p s.kernel t.kernel) (hout : t.kernel.mem.outstanding = s.kernel.mem.outstanding)
    (hof : t.pipeOf = s.pipeOf) (hpipe : t.pipe = s.pipe) (hborn : t.born = s.born)
    (hfreed : t.freed = s.freed) : PipesInv boot t := by
  constructor
  · rw [hof]
    exact h.single
  · rw [hof, hpipe]
    exact h.ends
  · rw [hpipe, hborn, hfreed]
    exact h.numbered
  · rw [hpipe]
    exact h.distinct
  · rw [hpipe, hborn, hfreed]
    exact h.once
  · rw [hborn, hfreed]
    exact h.unborn
  · rw [hpipe]
    exact fun pi hpi => isPage_of_kend (h.isPage pi hpi) ht.kend
  · obtain ⟨live, hlive, hacc⟩ := h.pages
    rw [hpipe]
    exact ⟨live, hlive, hacc.kept ⟨hout, ht.owned⟩⟩

/-! ## Descriptors -/

theorem EntriesInv.congr {s t : Tables} (h : EntriesInv hand s)
    (hofile : ∀ q, (t.kernel.proc q).ofile = (s.kernel.proc q).ofile)
    (hfile : t.kernel.file = s.kernel.file) (hof : t.pipeOf = s.pipeOf) : EntriesInv hand t := by
  constructor
  · intro f
    rw [hfile, fdCount_congr hofile]
    exact h.refs f
  · rw [hfile]
    exact h.idle
  · rw [hfile, hof]
    exact h.ended

theorem FileInv.installFd {boot : Multiset ℕ} {s : Tables} {f : ℕ} {fd : Fin nofile}
    (h : FileInv boot (f ::ₘ hand) s) (hp : p < nproc) (hnone : (s.kernel.proc p).ofile fd = none) :
    FileInv boot hand (s.setFd p fd (some f)) := by
  refine ⟨⟨fun g => ?_, h.entries.idle, h.entries.ended⟩,
    h.pipes.touched (Touched.setFd p s.kernel fd (some f)) rfl rfl rfl rfl rfl⟩
  have hg : ((s.setFd p fd (some f)).kernel.file g).ref = _ := h.entries.refs g
  rw [hg, show fdCount (s.setFd p fd (some f)).kernel g = _ from fdCount_open hp hnone f g,
    Multiset.count_cons]
  push_cast
  ring

/-- A descriptor is cleared: its reference is in the hand. -/
theorem FileInv.clearFd {boot : Multiset ℕ} {s : Tables} {f : ℕ} {fd : Fin nofile}
    (h : FileInv boot hand s) (hp : p < nproc) (hsome : (s.kernel.proc p).ofile fd = some f) :
    FileInv boot (f ::ₘ hand) (s.setFd p fd none) := by
  refine ⟨⟨fun g => ?_, h.entries.idle, h.entries.ended⟩,
    h.pipes.touched (Touched.setFd p s.kernel fd none) rfl rfl rfl rfl rfl⟩
  have hg : ((s.setFd p fd none).kernel.file g).ref = _ := h.entries.refs g
  rw [hg, fdCount_close hp hsome g, Multiset.count_cons]
  show _ = (fdCount (s.kernel.setFd p fd none) g : ℤ) + _
  push_cast
  ring

theorem fdalloc_cases (s : Tables) (p f : ℕ) :
    fdalloc s p f = (none, s)
      ∨ ∃ fd, (s.kernel.proc p).ofile fd = none ∧ fdalloc s p f = (some fd, s.setFd p fd (some f)) := by
  unfold fdalloc
  cases hfind : (List.finRange nofile).find? (fun fd => (s.kernel.proc p).ofile fd = none) with
  | none => exact Or.inl rfl
  | some fd => exact Or.inr ⟨fd, by simpa using List.find?_some hfind, rfl⟩

/-! ## Entries -/

theorem touched_setFile (p : ℕ) (s : Tables) (f : ℕ) (file : File) :
    Touched p s.kernel (s.setFile f file).kernel :=
  Touched.of_proc p rfl rfl

/-- An entry gets another count, and the hand pays for it. -/
theorem EntriesInv.setFile {hand' : Multiset ℕ} {s : Tables} (h : EntriesInv hand s) {f : ℕ}
    {file : File} (href : file.ref = fdCount s.kernel f + hand'.count f)
    (hother : ∀ g, g ≠ f → hand'.count g = hand.count g) (hidle : file.ref = 0 → file.ip = none)
    (hended : ∀ e, s.pipeOf f = some e → file.ip = none ∧ file.ref ≠ 0) :
    EntriesInv hand' (s.setFile f file) := by
  have hself : (s.setFile f file).kernel.file f = file := update_self ..
  have hne : ∀ g, g ≠ f → (s.setFile f file).kernel.file g = s.kernel.file g :=
    fun g hg => update_of_ne hg ..
  have hcount : ∀ g, fdCount (s.setFile f file).kernel g = fdCount s.kernel g :=
    fdCount_congr fun _ => rfl
  constructor
  · intro g
    by_cases hg : g = f
    · rw [hg, hself, hcount]
      exact href
    · rw [hne g hg, hcount, hother g hg]
      exact h.refs g
  · intro g
    by_cases hg : g = f
    · rw [hg, hself]
      exact hidle
    · rw [hne g hg]
      exact h.idle g
  · intro g
    by_cases hg : g = f
    · rw [hg, hself]
      exact hended
    · rw [hne g hg]
      exact h.ended g

theorem FileInv.filealloc {boot : Multiset ℕ} {s : Tables} (h : FileInv boot hand s) :
    filealloc s = (none, s)
      ∨ ∃ f, filealloc s = (some f, s.setFile f { s.kernel.file f with ref := 1 })
        ∧ (s.kernel.file f).ref = 0 ∧ s.pipeOf f = none
        ∧ FileInv boot (f ::ₘ hand) (s.setFile f { s.kernel.file f with ref := 1 }) := by
  unfold Ftable.filealloc
  cases hfind : (List.range nfile).find? (fun f => (s.kernel.file f).ref = 0) with
  | none => exact Or.inl rfl
  | some f =>
    have hzero : (s.kernel.file f).ref = 0 := by simpa using List.find?_some hfind
    have hof : s.pipeOf f = none := by
      cases hf : s.pipeOf f with
      | none => rfl
      | some e => exact absurd hzero (h.entries.ended f e hf).2
    refine Or.inr ⟨f, rfl, hzero, hof, h.entries.setFile ?_ (fun g hg => ?_) (by simp) ?_,
      h.pipes.touched (touched_setFile 0 s f _) rfl rfl rfl rfl rfl⟩
    · have hrefs := h.entries.refs f
      rw [hzero] at hrefs
      rw [Multiset.count_cons_self]
      push_cast
      linarith
    · exact Multiset.count_cons_of_ne hg hand
    · rw [hof]
      simp

theorem FileInv.filedup {boot : Multiset ℕ} {s : Tables} {f : ℕ} (h : FileInv boot hand s)
    (href : 1 ≤ (s.kernel.file f).ref) :
    filedup s f = .ok (s.setFile f { s.kernel.file f with ref := (s.kernel.file f).ref + 1 })
      ∧ FileInv boot (f ::ₘ hand)
        (s.setFile f { s.kernel.file f with ref := (s.kernel.file f).ref + 1 }) := by
  constructor
  · unfold Ftable.filedup
    rw [if_neg (by omega)]
  refine ⟨h.entries.setFile ?_ (fun g hg => Multiset.count_cons_of_ne hg hand) ?_ ?_,
    h.pipes.touched (touched_setFile 0 s f _) rfl rfl rfl rfl rfl⟩
  · show (s.kernel.file f).ref + 1 = _
    rw [h.entries.refs f, Multiset.count_cons_self]
    push_cast
    ring
  · intro hzero
    exact absurd hzero (by show (s.kernel.file f).ref + 1 ≠ 0; omega)
  · intro e he
    refine ⟨(h.entries.ended f e he).1, ?_⟩
    show (s.kernel.file f).ref + 1 ≠ 0
    omega

/-! ## Closing -/

/-- The end `f` of the pipe `pi` is closed. -/
def Tables.shutEnd (s : Tables) (f pi : ℕ) (w : Bool) : Tables :=
  { s with
    pipe := update s.pipe pi ((s.pipe pi).shut w)
    pipeOf := update s.pipeOf f none }

section Shut

variable {boot : Multiset ℕ} {s : Tables} {f pi : ℕ} {w : Bool}

@[simp] theorem pipe_shutEnd_self (s : Tables) (f pi : ℕ) (w : Bool) :
    (s.shutEnd f pi w).pipe pi = (s.pipe pi).shut w := update_self ..

theorem pipe_shutEnd_of_ne (s : Tables) (f : ℕ) {pi : ℕ} (w : Bool) (hne : pj ≠ pi) :
    (s.shutEnd f pi w).pipe pj = s.pipe pj := update_of_ne hne ..

/-- An end is open afterwards iff it was and is not the one that is closed. -/
theorem isOpen_shutEnd (s : Tables) (f pi pj : ℕ) (w v : Bool) :
    ((s.shutEnd f pi w).pipe pj).isOpen v = true
      ↔ (s.pipe pj).isOpen v = true ∧ (pj, v) ≠ (pi, w) := by
  by_cases hpj : pj = pi
  · subst hpj
    rw [pipe_shutEnd_self, Pipe.isOpen_shut]
    simp
  · rw [pipe_shutEnd_of_ne s f w hpj]
    simp [hpj]

@[simp] theorem id_shutEnd (s : Tables) (f pi pj : ℕ) (w : Bool) :
    ((s.shutEnd f pi w).pipe pj).id = (s.pipe pj).id := by
  by_cases hpj : pj = pi
  · rw [hpj, pipe_shutEnd_self, Pipe.id_shut]
  · rw [pipe_shutEnd_of_ne s f w hpj]

theorem live_of_shutEnd (h : ((s.shutEnd f pi w).pipe pj).Live) : (s.pipe pj).Live := by
  obtain ⟨v, hv⟩ := h
  exact ⟨v, ((isOpen_shutEnd s f pi pj w v).mp hv).1⟩

theorem live_shutEnd_of_ne (s : Tables) (f : ℕ) {pi : ℕ} (w : Bool) (hne : pj ≠ pi) :
    ((s.shutEnd f pi w).pipe pj).Live ↔ (s.pipe pj).Live := by
  rw [pipe_shutEnd_of_ne s f w hne]

theorem PipesInv.single_shutEnd (h : PipesInv boot s) (f pi : ℕ) (w : Bool) (g g' : ℕ) (e : ℕ × Bool)
    (hg : (s.shutEnd f pi w).pipeOf g = some e) (hg' : (s.shutEnd f pi w).pipeOf g' = some e) :
    g = g' := by
  simp only [Tables.shutEnd, update_apply] at hg hg'
  split_ifs at hg hg'
  exact h.single g g' e hg hg'

theorem PipesInv.ends_shutEnd (h : PipesInv boot s) (hf : s.pipeOf f = some (pi, w)) (pj : ℕ) (v : Bool) :
    ((s.shutEnd f pi w).pipe pj).isOpen v = true
      ↔ ∃ g, (s.shutEnd f pi w).pipeOf g = some (pj, v) := by
  rw [isOpen_shutEnd, h.ends pj v]
  simp only [Tables.shutEnd, update_apply]
  constructor
  · rintro ⟨⟨g, hg⟩, hne⟩
    have hgf : g ≠ f := by
      rintro rfl
      exact hne (Option.some.inj (hg.symm.trans hf))
    exact ⟨g, by rw [if_neg hgf, hg]⟩
  · rintro ⟨g, hg⟩
    split_ifs at hg with hgf
    refine ⟨⟨g, hg⟩, fun heq => ?_⟩
    rw [heq] at hg
    exact hgf (h.single g f _ hg hf)

/-- The other end is open: the page stays. -/
theorem PipesInv.shutEnd (h : PipesInv boot s) (hf : s.pipeOf f = some (pi, w))
    (hstill : ((s.shutEnd f pi w).pipe pi).Live) : PipesInv boot (s.shutEnd f pi w) := by
  have hsame : ∀ pj, ((s.shutEnd f pi w).pipe pj).Live ↔ (s.pipe pj).Live := by
    intro pj
    by_cases hpj : pj = pi
    · rw [hpj]
      exact ⟨live_of_shutEnd, fun _ => hstill⟩
    · exact live_shutEnd_of_ne s f w hpj
  constructor
  · exact h.single_shutEnd f pi w
  · exact h.ends_shutEnd hf
  · intro pj hpj
    rw [id_shutEnd]
    exact h.numbered pj (live_of_shutEnd hpj)
  · intro pj pk hj hk heq
    rw [id_shutEnd, id_shutEnd] at heq
    exact h.distinct pj pk (live_of_shutEnd hj) (live_of_shutEnd hk) heq
  · intro i hi hnone
    refine h.once i hi fun pj hj => ?_
    rw [← id_shutEnd s f pi pj w]
    exact hnone pj ((hsame pj).mpr hj)
  · exact h.unborn
  · exact fun pj hpj => h.isPage pj (live_of_shutEnd hpj)
  · obtain ⟨live, hlive, hacc⟩ := h.pages
    exact ⟨live, fun pj => (hlive pj).trans (hsame pj).symm, hacc⟩

/-- It was the last open end: the page goes back. -/
theorem PipesInv.freeEnd (h : PipesInv boot s) (hf : s.pipeOf f = some (pi, w))
    (hgone : ¬ ((s.shutEnd f pi w).pipe pi).Live) {m : PagePool} (hfree : kfree s.kernel.mem pi = .ok m) :
    PipesInv boot { (s.shutEnd f pi w).setMem m with
      freed := update s.freed (s.pipe pi).id (s.freed (s.pipe pi).id + 1) } := by
  have hlive : (s.pipe pi).Live := ⟨w, (h.ends pi w).mpr ⟨f, hf⟩⟩
  have hback : ∀ pj, ((s.shutEnd f pi w).pipe pj).Live → (s.pipe pj).Live := fun _ => live_of_shutEnd
  have hne : ∀ pj, ((s.shutEnd f pi w).pipe pj).Live → pj ≠ pi := by
    rintro pj hj rfl
    exact hgone hj
  constructor
  · exact h.single_shutEnd f pi w
  · exact h.ends_shutEnd hf
  · intro pj hpj
    have hj : (s.pipe pj).Live := hback pj hpj
    have hid : (s.pipe pj).id ≠ (s.pipe pi).id := fun heq => hne pj hpj (h.distinct pj pi hj hlive heq)
    show ((s.shutEnd f pi w).pipe pj).id < s.born
      ∧ update s.freed _ _ ((s.shutEnd f pi w).pipe pj).id = 0
    rw [id_shutEnd, update_of_ne hid]
    exact h.numbered pj hj
  · intro pj pk hj hk heq
    have heq' : (s.pipe pj).id = (s.pipe pk).id := by
      rw [← id_shutEnd s f pi pj w, ← id_shutEnd s f pi pk w]
      exact heq
    exact h.distinct pj pk (hback pj hj) (hback pk hk) heq'
  · intro i hi hnone
    show update s.freed _ _ i = 1
    by_cases heq : i = (s.pipe pi).id
    · rw [heq, update_self, (h.numbered pi hlive).2]
    · rw [update_of_ne heq]
      refine h.once i hi fun pj hj hx => ?_
      have hpj : pj ≠ pi := by
        rintro rfl
        exact heq hx.symm
      exact hnone pj ((live_shutEnd_of_ne s f w hpj).mpr hj) ((id_shutEnd s f pi pj w).trans hx)
  · intro i hi
    have hne' : i ≠ (s.pipe pi).id := (lt_of_lt_of_le (h.numbered pi hlive).1 hi).ne'
    exact (update_of_ne hne' ..).trans (h.unborn i hi)
  · exact fun pj hpj => isPage_of_kend (h.isPage pj (hback pj hpj)) (kfree_kend hfree)
  · obtain ⟨live, hmem, hacc⟩ := h.pages
    refine ⟨live.erase pi, fun pj => ?_, kfree_holds (hacc.congr ?_) hfree⟩
    · rw [Finset.mem_erase, hmem pj]
      constructor
      · rintro ⟨hpj, hj⟩
        exact (live_shutEnd_of_ne s f w hpj).mpr hj
      · exact fun hj => ⟨hne pj hj, hback pj hj⟩
    · have hval : live.val = (live.erase pi).val + {pi} := by
        rw [Finset.erase_val, add_comm, Multiset.singleton_add,
          Multiset.cons_erase ((hmem pi).mpr hlive)]
      rw [hval]
      show _ = boot + (live.erase pi).val + ∑ q ∈ _, (s.kernel.proc q).owned + {pi}
      abel

theorem PipesInv.pipeclose (h : PipesInv boot s) (hf : s.pipeOf f = some (pi, w)) :
    ∃ t, pipeclose { s with pipeOf := update s.pipeOf f none } pi w = .ok t
      ∧ PipesInv boot t ∧ t.pipeOf = update s.pipeOf f none
      ∧ t.kernel = { s.kernel with mem := t.kernel.mem } ∧ t.kernel.mem.kend = s.kernel.mem.kend := by
  have hself := pipe_shutEnd_self s f pi w
  unfold Ftable.pipeclose
  simp only
  by_cases hstill : ((s.pipe pi).shut w).Live
  · rw [if_neg fun hc => (Pipe.closed_iff _).mp hc hstill]
    exact ⟨s.shutEnd f pi w, rfl, h.shutEnd hf (hself ▸ hstill), rfl, rfl, rfl⟩
  · rw [if_pos ((Pipe.closed_iff _).mpr hstill)]
    obtain ⟨m, hfree⟩ : ∃ m, kfree s.kernel.mem pi = .ok m := by
      unfold kfree
      rw [if_neg (not_not.mpr (h.isPage pi ⟨w, (h.ends pi w).mpr ⟨f, hf⟩⟩))]
      exact ⟨_, rfl⟩
    rw [hfree, ok_bind, Pipe.id_shut]
    exact ⟨_, rfl, h.freeEnd hf (hself ▸ hstill) hfree, rfl, rfl, kfree_kend hfree⟩

end Shut

theorem FileInv.fileclose {boot : Multiset ℕ} {s : Tables} {f : ℕ} (h : FileInv boot (f ::ₘ hand)
      s) :
    ∃ t, fileclose s f = .ok t ∧ FileInv boot hand t ∧ t.kernel.proc = s.kernel.proc
      ∧ ∀ p, Touched p s.kernel t.kernel := by
  have hrefs := h.entries.refs f
  rw [Multiset.count_cons_self] at hrefs
  push_cast at hrefs
  have hother : ∀ g, g ≠ f → hand.count g = (f ::ₘ hand).count g :=
    fun g hg => (Multiset.count_cons_of_ne hg hand).symm
  unfold Ftable.fileclose
  simp only
  rw [if_neg (by omega)]
  by_cases hlast : (s.kernel.file f).ref - 1 > 0
  · rw [if_pos hlast]
    refine ⟨_, rfl, ⟨h.entries.setFile ?_ hother ?_ ?_,
      h.pipes.touched (touched_setFile 0 s f _) rfl rfl rfl rfl rfl⟩, rfl,
      fun p => touched_setFile p s f _⟩
    · show (s.kernel.file f).ref - 1 = _
      omega
    · intro hzero
      exact absurd hzero hlast.ne'
    · exact fun e he => ⟨(h.entries.ended f e he).1, hlast.ne'⟩
  · rw [if_neg hlast]
    have hentries : EntriesInv hand (s.clearFile f) := by
      have hclear : EntriesInv (f ::ₘ hand) { s with pipeOf := update s.pipeOf f none } := by
        refine ⟨h.entries.refs, h.entries.idle, fun g e hg => ?_⟩
        simp only [update_apply] at hg
        split_ifs at hg
        exact h.entries.ended g e hg
      refine hclear.setFile ?_ hother (fun _ => rfl) fun e he => ?_
      · show (0 : ℤ) = fdCount s.kernel f + _
        omega
      · simp at he
    cases hof : s.pipeOf f with
    | some e =>
      obtain ⟨pi, w⟩ := e
      obtain ⟨t, hrun, hpipes, hpof, hkernel, hkend⟩ := PipesInv.pipeclose
        (h.pipes.touched (touched_setFile 0 s f { ref := 0, ip := none }) rfl rfl rfl rfl rfl) hof
      have hfile : t.kernel.file = (s.clearFile f).kernel.file := by
        rw [hkernel]
        rfl
      have hproc : t.kernel.proc = s.kernel.proc := by
        rw [hkernel]
        rfl
      refine ⟨t, hrun, ⟨hentries.congr (fun q => congrArg Proc.ofile (congrFun hproc q)) hfile hpof, hpipes⟩, hproc,
        fun p => ?_⟩
      refine (touched_setFile p s f { ref := 0, ip := none }).trans (Touched.of_proc p hkend ?_)
      rw [hkernel]
    | none =>
      have hsame : update s.pipeOf f none = s.pipeOf := by
        rw [← hof, update_eq_self]
      cases hip : (s.kernel.file f).ip with
      | none =>
        exact ⟨s.clearFile f, rfl, ⟨hentries, h.pipes.touched (touched_setFile 0 s f _) rfl hsame rfl rfl rfl⟩,
          rfl, fun p => touched_setFile p s f _⟩
      | some ip =>
        have ht : ∀ p, Touched p s.kernel (iput (s.clearFile f).kernel ip) := fun p => Touched.of_proc p rfl rfl
        exact ⟨{ s.clearFile f with kernel := iput (s.clearFile f).kernel ip }, rfl,
          ⟨hentries.congr (fun _ => rfl) rfl rfl, h.pipes.touched (ht 0) rfl hsame rfl rfl rfl⟩, rfl, ht⟩

end Xv6.Ftable
