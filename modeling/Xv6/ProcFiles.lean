/-
# Open files

The reference count of a file is the number of descriptors of all processes that
refer to it (`FilesExact`).  Every operation on descriptors keeps this, so `filedup`
and `fileclose` never meet a file without references, and each of them changes
nothing but descriptors, files and the reference counts of inodes (`FilesOnly`).
-/
import Xv6.HeadChain
import Xv6.ProcModel

namespace Xv6

open Function HeadChain

variable {s s' : Kernel} {f p q : ℕ}

/-! ## Counting descriptors -/

/-- All descriptors of all processes. -/
@[irreducible] def descriptors : Finset (ℕ × Fin nofile) := Finset.range nproc ×ˢ Finset.univ

/-- The file that a descriptor refers to. -/
def openFile (s : Kernel) (x : ℕ × Fin nofile) : Option ℕ := (s.proc x.1).ofile x.2

/-- The number of descriptors that refer to `f`. -/
@[irreducible] def fdCount (s : Kernel) (f : ℕ) : ℕ := (descriptors.filter fun x => openFile s x = some f).card

/-- Every reference count is exact. -/
def FilesExact (s : Kernel) : Prop := ∀ f, (s.file f).ref = fdCount s f

theorem mem_descriptors (hq : q < nproc) (fd : Fin nofile) : (q, fd) ∈ descriptors := by
  unfold descriptors
  simp [hq]

/-- The descriptors as members placed on files, without any heads. -/
theorem fdCount_eq_population (s : Kernel) (f : ℕ) :
    fdCount s f = population (fun _ => none) descriptors (openFile s) f := by
  classical
  unfold fdCount population
  refine congrArg Finset.card (Finset.filter_congr (fun x _ => ?_))
  simp only [above_none_iff]
  constructor
  · exact fun h => ⟨f, h, rfl⟩
  · rintro ⟨a, h, rfl⟩
    exact h

theorem openFile_setFd (s : Kernel) (q : ℕ) (fd : Fin nofile) (v : Option ℕ) :
    openFile (s.setFd q fd v) = update (openFile s) (q, fd) v := by
  funext ⟨r, gd⟩
  unfold openFile
  by_cases hr : r = q
  · subst hr
    by_cases hg : gd = fd
    · subst hg
      simp [Kernel.setFd, Kernel.updProc]
    · have hne : (r, gd) ≠ (r, fd) := fun h => hg (Prod.mk.inj h).2
      simp [Kernel.setFd, Kernel.updProc, hg]
  · have hne : (r, gd) ≠ (q, fd) := fun h => hr (Prod.mk.inj h).1
    simp [Kernel.setFd, Kernel.updProc, hr]

theorem fdCount_open {fd : Fin nofile} (hq : q < nproc) (hnone : (s.proc q).ofile fd = none)
    (f g : ℕ) : fdCount (s.setFd q fd (some f)) g = fdCount s g + if g = f then 1 else 0 := by
  rw [fdCount_eq_population, openFile_setFd,
    population_join (mem_descriptors hq fd) (show openFile s (q, fd) = none from hnone),
    ← fdCount_eq_population]
  simp only [above_none_iff]

theorem fdCount_close {fd : Fin nofile} (hq : q < nproc) (hsome : (s.proc q).ofile fd = some f)
    (g : ℕ) : fdCount s g = fdCount (s.setFd q fd none) g + if g = f then 1 else 0 := by
  rw [fdCount_eq_population,
    population_leave (mem_descriptors hq fd) (show openFile s (q, fd) = some f from hsome),
    ← openFile_setFd, ← fdCount_eq_population]
  simp only [above_none_iff]

/-- Counts depend on the descriptors only. -/
theorem fdCount_congr (h : ∀ q, (s'.proc q).ofile = (s.proc q).ofile) (f : ℕ) :
    fdCount s' f = fdCount s f := by
  unfold fdCount openFile
  simp only [h]

theorem FilesExact.congr (h : FilesExact s) (hofile : ∀ q, (s'.proc q).ofile = (s.proc q).ofile)
    (href : ∀ f, (s'.file f).ref = (s.file f).ref) : FilesExact s' := by
  intro f
  rw [fdCount_congr hofile, href]
  exact h f

theorem FilesExact.one_le_ref (h : FilesExact s) {fd : Fin nofile} (hq : q < nproc)
    (hsome : (s.proc q).ofile fd = some f) : 1 ≤ (s.file f).ref := by
  rw [h f, fdCount_close hq hsome, if_pos rfl]
  omega

/-! ## Single operations -/

/-- Only descriptors of `p`, files and inodes have changed. -/
structure FilesOnly (p : ℕ) (s s' : Kernel) : Prop where
  rest : s' = { s with proc := s'.proc, file := s'.file, inodeRef := s'.inodeRef }
  other : ∀ q, q ≠ p → s'.proc q = s.proc q
  self : s'.proc p = { s.proc p with ofile := (s'.proc p).ofile }

/-- No descriptor has changed either. -/
theorem FilesOnly.of_proc (p : ℕ) (hproc : s'.proc = s.proc)
    (hrest : s' = { s with proc := s'.proc, file := s'.file, inodeRef := s'.inodeRef }) :
    FilesOnly p s s' :=
  ⟨hrest, fun q _ => by rw [hproc], by rw [hproc]⟩

theorem FilesOnly.refl (p : ℕ) (s : Kernel) : FilesOnly p s s := FilesOnly.of_proc p rfl rfl

theorem FilesOnly.trans {s'' : Kernel} (h : FilesOnly p s s') (h' : FilesOnly p s' s'') :
    FilesOnly p s s'' := by
  refine ⟨?_, fun q hq => (h'.other q hq).trans (h.other q hq), ?_⟩
  · rw [h'.rest, h.rest]
  · rw [h'.self, h.self]

theorem FilesOnly.setFd (h : FilesOnly p s s') (fd : Fin nofile) (f : Option ℕ) :
    FilesOnly p s (s'.setFd p fd f) := by
  refine h.trans ⟨rfl, fun q hq => ?_, ?_⟩
  · simp [Kernel.setFd, Kernel.updProc, hq]
  · simp [Kernel.setFd, Kernel.updProc]

/-- A descriptor and its reference change together. -/
theorem filedup_ok (h : 1 ≤ (s.file f).ref) (p : ℕ) :
    ∃ s', filedup s f = .ok s' ∧ FilesOnly p s s' ∧ s'.proc = s.proc ∧ s'.inodeRef = s.inodeRef
      ∧ ∀ g, (s'.file g).ref = (s.file g).ref + if g = f then 1 else 0 := by
  unfold filedup
  rw [if_neg (by omega)]
  refine ⟨_, rfl, FilesOnly.of_proc p rfl rfl, rfl, rfl, fun g => ?_⟩
  by_cases hg : g = f
  · subst hg
    simp
  · simp [hg]

theorem fileclose_ok (h : 1 ≤ (s.file f).ref) (p : ℕ) :
    ∃ s', fileclose s f = .ok s' ∧ FilesOnly p s s' ∧ s'.proc = s.proc
      ∧ ∀ g, (s'.file g).ref = (s.file g).ref - if g = f then 1 else 0 := by
  unfold fileclose
  rw [if_neg (by omega)]
  by_cases hlast : (s.file f).ref - 1 > 0
  · rw [if_pos hlast]
    refine ⟨_, rfl, FilesOnly.of_proc p rfl rfl, rfl, fun g => ?_⟩
    by_cases hg : g = f
    · subst hg
      simp
    · simp [hg]
  · -- the last reference: the file is gone, and with it its hold on the inode
    have hone : (s.file f).ref = 1 := by omega
    rw [if_neg hlast]
    have href : ∀ g, ((update s.file f { ref := 0, ip := none }) g).ref
        = (s.file g).ref - if g = f then 1 else 0 := by
      intro g
      by_cases hg : g = f
      · subst hg
        simp [hone]
      · simp [hg]
    cases hip : (s.file f).ip with
    | none =>
      exact ⟨{ s with file := update s.file f {} }, by simp only [hip],
        FilesOnly.of_proc p rfl rfl, rfl, href⟩
    | some ip =>
      exact ⟨iput { s with file := update s.file f {} } ip, by simp only [hip],
        FilesOnly.of_proc p rfl rfl, rfl, href⟩

/-! ## The loops of `fork` and `exit` -/

theorem setFd_ofile_self (s : Kernel) (p : ℕ) (fd : Fin nofile) (f : Option ℕ) :
    ((s.setFd p fd f).proc p).ofile = update (s.proc p).ofile fd f := by
  simp [Kernel.setFd, Kernel.updProc]

theorem dupFile_spec {np : ℕ} (hp : p < nproc) (hnp : np < nproc) {fd : Fin nofile}
    (hexact : FilesExact s) (hnone : (s.proc np).ofile fd = none) :
    ∃ s', dupFile p np s fd = .ok s' ∧ FilesExact s' ∧ FilesOnly np s s'
      ∧ s'.inodeRef = s.inodeRef
      ∧ (s'.proc np).ofile = update (s.proc np).ofile fd ((s.proc p).ofile fd) := by
  unfold dupFile
  cases hf : (s.proc p).ofile fd with
  | none =>
    refine ⟨s, rfl, hexact, FilesOnly.refl np s, rfl, ?_⟩
    rw [← hnone, update_eq_self]
  | some f =>
    obtain ⟨s₁, hrun, honly, hproc, hinode, href⟩ := filedup_ok (hexact.one_le_ref hp hf) np
    refine ⟨s₁.setFd np fd (some f), by simp [hrun], fun g => ?_, honly.setFd fd (some f),
      hinode, ?_⟩
    · have hcount := fdCount_open hnp (show (s₁.proc np).ofile fd = none by rw [hproc, hnone]) f g
      rw [hcount, fdCount_congr (s := s) (fun q => by rw [hproc]), Nat.cast_add, ← hexact g]
      have hg := href g
      split_ifs at hg ⊢ <;> exact hg
    · rw [setFd_ofile_self, hproc]

theorem dupFiles_spec {np : ℕ} (hp : p < nproc) (hnp : np < nproc) (hne : p ≠ np)
    (l : List (Fin nofile)) (hl : l.Nodup) (hexact : FilesExact s)
    (hnone : ∀ fd ∈ l, (s.proc np).ofile fd = none) :
    ∃ s', l.foldlM (dupFile p np) s = .ok s' ∧ FilesExact s' ∧ FilesOnly np s s'
      ∧ s'.inodeRef = s.inodeRef
      ∧ ∀ fd, (s'.proc np).ofile fd
        = if fd ∈ l then (s.proc p).ofile fd else (s.proc np).ofile fd := by
  induction l generalizing s with
  | nil => exact ⟨s, rfl, hexact, FilesOnly.refl np s, rfl, fun fd => by simp⟩
  | cons fd l ih =>
    obtain ⟨hfd, hl⟩ := List.nodup_cons.mp hl
    obtain ⟨s₁, hrun₁, hexact₁, honly₁, hinode₁, hofile₁⟩ :=
      dupFile_spec hp hnp hexact (hnone fd List.mem_cons_self)
    obtain ⟨s', hrun, hexact', honly, hinode, hofile⟩ := ih hl hexact₁ (fun gd hgd => by
      have hne' : gd ≠ fd := fun h => hfd (h ▸ hgd)
      rw [hofile₁, update_of_ne hne']
      exact hnone gd (List.mem_cons_of_mem fd hgd))
    refine ⟨s', ?_, hexact', honly₁.trans honly, hinode.trans hinode₁, fun gd => ?_⟩
    · rw [List.foldlM_cons, hrun₁]
      exact hrun
    · rw [hofile gd, honly₁.other p hne, hofile₁]
      by_cases hgd : gd = fd
      · subst hgd
        simp [hfd]
      · simp [hgd]

theorem closeFile_spec (hp : p < nproc) (fd : Fin nofile) (hexact : FilesExact s) :
    ∃ s', closeFile p s fd = .ok s' ∧ FilesExact s' ∧ FilesOnly p s s'
      ∧ (s'.proc p).ofile = update (s.proc p).ofile fd none := by
  unfold closeFile
  cases hf : (s.proc p).ofile fd with
  | none =>
    refine ⟨s, rfl, hexact, FilesOnly.refl p s, ?_⟩
    rw [← hf, update_eq_self]
  | some f =>
    obtain ⟨s₁, hrun, honly, hproc, href⟩ := fileclose_ok (hexact.one_le_ref hp hf) p
    refine ⟨s₁.setFd p fd none, by simp [hrun], fun g => ?_, honly.setFd fd none, ?_⟩
    · have hcount := fdCount_close hp (show (s₁.proc p).ofile fd = some f by rw [hproc, hf]) g
      rw [fdCount_congr (s := s) (fun q => by rw [hproc])] at hcount
      have hg : ((s₁.setFd p fd none).file g).ref = _ := href g
      rw [hg, hexact g, hcount, Nat.cast_add]
      split_ifs <;> simp
    · rw [setFd_ofile_self, hproc]

/-- `exit` closes every descriptor. -/
theorem closeFiles_spec (hp : p < nproc) (l : List (Fin nofile)) (hexact : FilesExact s) :
    ∃ s', l.foldlM (closeFile p) s = .ok s' ∧ FilesExact s' ∧ FilesOnly p s s'
      ∧ ∀ fd, (s'.proc p).ofile fd = if fd ∈ l then none else (s.proc p).ofile fd := by
  induction l generalizing s with
  | nil => exact ⟨s, rfl, hexact, FilesOnly.refl p s, fun fd => by rw [if_neg List.not_mem_nil]⟩
  | cons fd l ih =>
    obtain ⟨s₁, hrun₁, hexact₁, honly₁, hofile₁⟩ := closeFile_spec hp fd hexact
    obtain ⟨s', hrun, hexact', honly, hofile⟩ := ih hexact₁
    refine ⟨s', ?_, hexact', honly₁.trans honly, fun gd => ?_⟩
    · rw [List.foldlM_cons, hrun₁]
      exact hrun
    · rw [hofile gd, hofile₁]
      by_cases hgd : gd = fd
      · subst hgd
        simp
      · simp [hgd]

/-! ## Opening, duplicating and closing -/

theorem fdalloc_cases (s : Kernel) (p f : ℕ) :
    fdalloc s p f = (none, s)
      ∨ ∃ fd, (s.proc p).ofile fd = none ∧ fdalloc s p f = (some fd, s.setFd p fd (some f)) := by
  unfold fdalloc
  cases hfind : (List.finRange nofile).find? (fun fd => (s.proc p).ofile fd = none) with
  | none => exact Or.inl rfl
  | some fd => exact Or.inr ⟨fd, by simpa using List.find?_some hfind, rfl⟩

theorem filealloc_cases (s : Kernel) :
    filealloc s = (none, s)
      ∨ ∃ f, (s.file f).ref = 0 ∧ filealloc s
        = (some f, { s with file := update s.file f { s.file f with ref := 1 } }) := by
  unfold filealloc
  cases hfind : (List.range nfile).find? (fun f => (s.file f).ref = 0) with
  | none => exact Or.inl rfl
  | some f =>
    have hzero := List.find?_some hfind
    exact Or.inr ⟨f, by simpa using hzero, rfl⟩

theorem sysOpen_spec (hp : p < nproc) (ip : ℕ) (hexact : FilesExact s) :
    ∃ s', sysOpen s p ip = .ok s' ∧ FilesExact s' ∧ FilesOnly p s s' := by
  unfold sysOpen
  simp only
  rcases filealloc_cases (idup s ip) with hfile | ⟨f, hzero, hfile⟩
  · rw [hfile]
    exact ⟨iput (idup s ip) ip, rfl, hexact.congr (fun _ => rfl) (fun _ => rfl),
      FilesOnly.of_proc p rfl rfl⟩
  · rw [hfile]
    simp only
    have hzero' : (s.file f).ref = 0 := hzero
    set s₁ : Kernel := { idup s ip with
      file := update (idup s ip).file f { (idup s ip).file f with ref := 1 } } with hs₁
    have honly₁ : FilesOnly p s s₁ := FilesOnly.of_proc p rfl rfl
    have href₁ : ∀ g, (s₁.file g).ref = (s.file g).ref + if g = f then 1 else 0 := by
      intro g
      by_cases hg : g = f
      · subst hg
        simp [hs₁, hzero']
      · simp [hs₁, idup, hg]
    rcases fdalloc_cases s₁ p f with hfd | ⟨fd, hnone, hfd⟩
    · -- no descriptor: the file is given back
      rw [hfd]
      obtain ⟨s₂, hrun, honly₂, hproc, href⟩ :=
        fileclose_ok (show 1 ≤ (s₁.file f).ref by rw [href₁, hzero']; simp) p
      refine ⟨iput s₂ ip, by simp [hrun], hexact.congr (fun q => ?_) (fun g => ?_),
        honly₁.trans (honly₂.trans ?_)⟩
      · exact congrArg Proc.ofile (congrFun hproc q)
      · exact (href g).trans (by rw [href₁ g, add_sub_cancel_right])
      · exact FilesOnly.of_proc p rfl rfl
    · rw [hfd]
      have hexact₁ : FilesExact (s₁.setFd p fd (some f)) := by
        intro g
        have hofile : ∀ q, (s₁.proc q).ofile = (s.proc q).ofile := fun _ => rfl
        have hg : ((s₁.setFd p fd (some f)).file g).ref = _ := href₁ g
        rw [hg, fdCount_open hp hnone f g, fdCount_congr hofile, hexact g, Nat.cast_add]
        split_ifs <;> simp
      -- the inode is written last, and does not count
      refine ⟨_, rfl, hexact₁.congr (fun _ => rfl) (fun g => ?_),
        (honly₁.setFd fd (some f)).trans (FilesOnly.of_proc p rfl rfl)⟩
      by_cases hg : g = f
      · subst hg
        simp
      · simp [hg]

theorem argfd_eq_some {n : ℤ} {fd : Fin nofile} (h : argfd s p n = some (fd, f)) :
    (s.proc p).ofile fd = some f := by
  unfold argfd at h
  split_ifs at h with hbound
  obtain ⟨g, hg, heq⟩ := Option.map_eq_some_iff.mp h
  obtain ⟨rfl, rfl⟩ := Prod.mk.inj heq
  exact hg

theorem sysDup_spec (hp : p < nproc) (n : ℤ) (hexact : FilesExact s) :
    ∃ s', sysDup s p n = .ok s' ∧ FilesExact s' ∧ FilesOnly p s s' := by
  unfold sysDup
  cases harg : argfd s p n with
  | none => exact ⟨s, rfl, hexact, FilesOnly.refl p s⟩
  | some x =>
    obtain ⟨gd, f⟩ := x
    have hf := hexact.one_le_ref hp (argfd_eq_some harg)
    simp only
    rcases fdalloc_cases s p f with hfd | ⟨fd, hnone, hfd⟩
    · exact ⟨s, by rw [hfd], hexact, FilesOnly.refl p s⟩
    · rw [hfd]
      -- here the descriptor is written before the reference is counted
      obtain ⟨s', hrun, honly, hproc, -, href⟩ :=
        filedup_ok (show 1 ≤ ((s.setFd p fd (some f)).file f).ref from hf) p
      refine ⟨s', hrun, fun g => ?_, ((FilesOnly.refl p s).setFd fd (some f)).trans honly⟩
      rw [href g, fdCount_congr (s := s.setFd p fd (some f)) (fun q => by rw [hproc]),
        fdCount_open hp hnone f g, Nat.cast_add, ← hexact g]
      split_ifs <;> rfl

theorem sysClose_spec (hp : p < nproc) (n : ℤ) (hexact : FilesExact s) :
    ∃ s', sysClose s p n = .ok s' ∧ FilesExact s' ∧ FilesOnly p s s' := by
  unfold sysClose
  cases harg : argfd s p n with
  | none => exact ⟨s, rfl, hexact, FilesOnly.refl p s⟩
  | some x =>
    obtain ⟨fd, f⟩ := x
    have hsome := argfd_eq_some harg
    simp only
    obtain ⟨s', hrun, honly, hproc, href⟩ :=
      fileclose_ok (show 1 ≤ ((s.setFd p fd none).file f).ref from hexact.one_le_ref hp hsome) p
    refine ⟨s', hrun, fun g => ?_, ((FilesOnly.refl p s).setFd fd none).trans honly⟩
    rw [href g, fdCount_congr (s := s.setFd p fd none) (fun q => by rw [hproc])]
    have hg : ((s.setFd p fd none).file g).ref = (fdCount s g : ℤ) := hexact g
    rw [hg, fdCount_close hp hsome g, Nat.cast_add]
    split_ifs <;> simp

end Xv6
