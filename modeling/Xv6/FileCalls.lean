/-
# What each call does to the references

The calls one by one, from an empty hand to an empty hand.  A call that returns an
error has put every descriptor back (`Returned`).  The calls of `ProcModel` that
concern no pipe only add references and never change what a file is (`Grown`).
-/
import Xv6.FileInv

namespace Xv6.Ftable

open Function

variable {boot hand : Multiset ℕ} {s : Tables} {f p pi : ℕ}

/-! ## Descriptors that are set and cleared -/

theorem setFd_cancel {fd : Fin nofile} (hnone : (s.kernel.proc p).ofile fd = none) (f : Option ℕ) :
    (s.setFd p fd f).setFd p fd none = s := by
  unfold Tables.setFd Kernel.setFd Kernel.updProc
  simp only [update_self, update_idem]
  rw [← hnone, update_eq_self, update_eq_self]

theorem setFd_comm (s : Tables) (p : ℕ) {fd fd' : Fin nofile} (hne : fd ≠ fd') (f f' : Option ℕ) :
    (s.setFd p fd f).setFd p fd' f' = (s.setFd p fd' f').setFd p fd f := by
  unfold Tables.setFd Kernel.setFd Kernel.updProc
  simp only [update_self, update_idem]
  rw [update_comm hne]

theorem ofile_setFd (s : Tables) (p : ℕ) (fd : Fin nofile) (f : Option ℕ) :
    ((s.setFd p fd f).kernel.proc p).ofile = update (s.kernel.proc p).ofile fd f :=
  setFd_ofile_self s.kernel p fd f

/-- Both descriptors of a pipe are cleared again. -/
theorem setFd_cancel_two {f' : ℕ} {fd fd' : Fin nofile} (hnone : (s.kernel.proc p).ofile fd = none)
    (hnone' : ((s.setFd p fd (some f)).kernel.proc p).ofile fd' = none) :
    (((s.setFd p fd (some f)).setFd p fd' (some f')).setFd p fd none).setFd p fd' none = s := by
  have hne : fd' ≠ fd := by
    rintro rfl
    rw [ofile_setFd, update_self] at hnone'
    cases hnone'
  rw [ofile_setFd, update_of_ne hne] at hnone'
  rw [setFd_comm _ p hne, setFd_cancel hnone, setFd_cancel hnone']

theorem pipeclose_setFd (s : Tables) (p pi : ℕ) (w : Bool) (fd : Fin nofile) (v : Option ℕ) :
    pipeclose (s.setFd p fd v) pi w = (pipeclose s pi w).map fun t => t.setFd p fd v := by
  by_cases hclosed : ((s.pipe pi).shut w).readopen = false ∧ ((s.pipe pi).shut w).writeopen = false
  · have hleft : pipeclose (s.setFd p fd v) pi w = (kfree s.kernel.mem pi >>= _) := if_pos hclosed
    have hright : pipeclose s pi w = (kfree s.kernel.mem pi >>= _) := if_pos hclosed
    rw [hleft, hright]
    cases kfree s.kernel.mem pi <;> rfl
  · have hleft : pipeclose (s.setFd p fd v) pi w = .ok _ := if_neg hclosed
    have hright : pipeclose s pi w = .ok _ := if_neg hclosed
    rw [hleft, hright]
    rfl

theorem releaseFile_setFd (s : Tables) (p : ℕ) (fd : Fin nofile) (v : Option ℕ) (pipe : Option (ℕ × Bool))
    (ip : Option ℕ) :
    releaseFile (s.setFd p fd v) pipe ip = (releaseFile s pipe ip).map fun t => t.setFd p fd v := by
  cases pipe with
  | none => cases ip <;> rfl
  | some e => exact pipeclose_setFd s p e.1 e.2 fd v

theorem fileclose_setFd (s : Tables) (p f : ℕ) (fd : Fin nofile) (v : Option ℕ) :
    fileclose (s.setFd p fd v) f = (fileclose s f).map fun t => t.setFd p fd v := by
  have hright : fileclose s f = if (s.kernel.file f).ref < 1 then .error (.panic "fileclose")
      else if (s.kernel.file f).ref - 1 > 0 then
        .ok (s.setFile f { s.kernel.file f with ref := (s.kernel.file f).ref - 1 })
      else releaseFile (s.clearFile f) (s.pipeOf f) (s.kernel.file f).ip := rfl
  have hleft : fileclose (s.setFd p fd v) f
      = if (s.kernel.file f).ref < 1 then .error (.panic "fileclose")
        else if (s.kernel.file f).ref - 1 > 0 then
          .ok ((s.setFile f { s.kernel.file f with ref := (s.kernel.file f).ref - 1 }).setFd p fd v)
        else releaseFile ((s.clearFile f).setFd p fd v) (s.pipeOf f) (s.kernel.file f).ip := rfl
  rw [hleft, hright]
  split_ifs
  · rfl
  · rfl
  · exact releaseFile_setFd (s.clearFile f) p fd v _ _

/-! ## Pipes -/

/-- How a call ends. -/
structure Returned (boot : Multiset ℕ) (p : ℕ) (s : Tables) (ok : Bool) (t : Tables) : Prop where
  inv : FileInv boot 0 t
  touched : Touched p s.kernel t.kernel
  same : ok = false → t.kernel.proc = s.kernel.proc

/-- A page that the pool has handed out is no pipe with an open end. -/
theorem PipesInv.not_live (h : PipesInv boot s) (hpi : pi ∉ s.kernel.mem.outstanding) :
    ¬ (s.pipe pi).Live := by
  intro hlive
  obtain ⟨live, hmem, hacc⟩ := h.pages
  refine hpi (Finset.mem_def.mpr ?_)
  rw [show s.kernel.mem.outstanding.val = _ from hacc]
  have hin : pi ∈ live.val := (hmem pi).mpr hlive
  exact Multiset.mem_add.mpr (Or.inl (Multiset.mem_add.mpr (Or.inr hin)))

theorem pipeOf_newPipe {f0 f1 : ℕ} (hne : f0 ≠ f1) (h0 : s.pipeOf f0 = none)
    (h1 : s.pipeOf f1 = none) (hfresh : ∀ g w, s.pipeOf g ≠ some (pi, w)) (g pj : ℕ) (w : Bool) :
    (s.newPipe f0 f1 pi).pipeOf g = some (pj, w)
      ↔ (pj ≠ pi ∧ s.pipeOf g = some (pj, w)) ∨ (pj = pi ∧ g = if w then f1 else f0) := by
  show update (update s.pipeOf f0 _) f1 _ g = _ ↔ _
  by_cases hg1 : g = f1
  · subst hg1
    rw [update_self, h1]
    cases w <;> simp [hne.symm, eq_comm (a := pi)]
  rw [update_of_ne hg1]
  by_cases hg0 : g = f0
  · subst hg0
    rw [update_self, h0]
    cases w <;> simp [hne, eq_comm (a := pi)]
  rw [update_of_ne hg0]
  by_cases hpj : pj = pi
  · subst hpj
    cases w <;> simp [hg0, hg1, hfresh]
  · simp [hpj]

theorem FileInv.newPipe (h : FileInv boot hand s) {f0 f1 : ℕ} {m : PagePool} (hne : f0 ≠ f1)
    (h0 : s.pipeOf f0 = none) (h1 : s.pipeOf f1 = none)
    (hfile : ∀ f, f = f0 ∨ f = f1 → (s.kernel.file f).ip = none ∧ (s.kernel.file f).ref ≠ 0)
    (hk : kalloc s.kernel.mem = (some pi, m)) :
    FileInv boot hand ((s.setMem m).newPipe f0 f1 pi) := by
  obtain ⟨hpage, hout, hkend⟩ : s.kernel.mem.IsPage pi ∧ pi ∉ s.kernel.mem.outstanding
      ∧ m.kend = s.kernel.mem.kend := by
    rcases kalloc_cases s.kernel.mem with ⟨m', hk', -⟩ | ⟨pa, m', hk', hpage, hout, -, hkend⟩
    · rw [hk] at hk'
      cases hk'
    · rw [hk] at hk'
      obtain ⟨hpa, rfl⟩ := Prod.mk.inj hk'
      cases hpa
      exact ⟨hpage, hout, hkend⟩
  have hdead := h.pipes.not_live hout
  have hfresh : ∀ g w, s.pipeOf g ≠ some (pi, w) :=
    fun g w hg => hdead ⟨w, (h.pipes.ends pi w).mpr ⟨g, hg⟩⟩
  have hof : ∀ g pj w, ((s.setMem m).newPipe f0 f1 pi).pipeOf g = some (pj, w)
      ↔ (pj ≠ pi ∧ s.pipeOf g = some (pj, w)) ∨ (pj = pi ∧ g = if w then f1 else f0) :=
    pipeOf_newPipe (s := s.setMem m) hne h0 h1 hfresh
  have hself : ((s.setMem m).newPipe f0 f1 pi).pipe pi = ⟨true, true, s.born⟩ := update_self ..
  have hother : ∀ pj, pj ≠ pi → ((s.setMem m).newPipe f0 f1 pi).pipe pj = s.pipe pj :=
    fun pj hpj => update_of_ne hpj ..
  have hcount : ∀ g, fdCount ((s.setMem m).newPipe f0 f1 pi).kernel g = fdCount s.kernel g :=
    fdCount_congr fun _ => rfl
  refine ⟨⟨fun g => (hcount g).symm ▸ h.entries.refs g, h.entries.idle, fun g e hg => ?_⟩, ?_⟩
  · obtain ⟨pj, w⟩ := e
    rcases (hof g pj w).mp hg with ⟨-, hold⟩ | ⟨-, rfl⟩
    · exact h.entries.ended g _ hold
    · cases w
      · exact hfile f0 (Or.inl rfl)
      · exact hfile f1 (Or.inr rfl)
  constructor
  · rintro g g' ⟨pj, w⟩ hg hg'
    rcases (hof g pj w).mp hg with ⟨hpj, hold⟩ | ⟨hpj, rfl⟩ <;>
      rcases (hof g' pj w).mp hg' with ⟨hpj', hold'⟩ | ⟨hpj', rfl⟩
    · exact h.pipes.single g g' _ hold hold'
    · exact absurd hpj' hpj
    · exact absurd hpj hpj'
    · rfl
  · intro pj w
    by_cases hpj : pj = pi
    · subst hpj
      rw [hself]
      refine iff_of_true (by cases w <;> rfl) ⟨if w then f1 else f0, ?_⟩
      exact (hof _ pj w).mpr (Or.inr ⟨rfl, rfl⟩)
    · rw [hother pj hpj, h.pipes.ends pj w]
      refine exists_congr fun g => ?_
      rw [hof g pj w]
      simp [hpj]
  · intro pj hj
    show _ < s.born + 1 ∧ s.freed _ = 0
    by_cases hpj : pj = pi
    · rw [hpj, hself]
      refine ⟨Nat.lt_succ_self _, ?_⟩
      exact h.pipes.unborn s.born le_rfl
    · rw [hother pj hpj] at hj ⊢
      obtain ⟨hlt, hzero⟩ := h.pipes.numbered pj hj
      exact ⟨Nat.lt_succ_of_lt hlt, hzero⟩
  · have hsep : ∀ pj, pj ≠ pi → (((s.setMem m).newPipe f0 f1 pi).pipe pj).Live →
        (((s.setMem m).newPipe f0 f1 pi).pipe pj).id < s.born := by
      intro pj hpj hj
      rw [hother pj hpj] at hj ⊢
      exact (h.pipes.numbered pj hj).1
    intro pj pk hj hk' heq
    by_cases hpj : pj = pi <;> by_cases hpk : pk = pi
    · rw [hpj, hpk]
    · have := hsep pk hpk hk'
      rw [← heq, hpj, hself] at this
      exact absurd this (lt_irrefl _)
    · have := hsep pj hpj hj
      rw [heq, hpk, hself] at this
      exact absurd this (lt_irrefl _)
    · rw [hother pj hpj] at hj heq
      rw [hother pk hpk] at hk' heq
      exact h.pipes.distinct pj pk hj hk' heq
  · intro i hi hnone
    have hne' : s.born ≠ i := by
      intro heq
      refine hnone pi (hself ▸ ⟨true, rfl⟩) ?_
      rw [hself]
      exact heq
    refine h.pipes.once i (lt_of_le_of_ne (Nat.lt_succ_iff.mp hi) hne'.symm) fun pj hj => ?_
    have hpj : pj ≠ pi := by
      rintro rfl
      exact hdead hj
    rw [← hother pj hpj] at hj ⊢
    exact hnone pj hj
  · exact fun i hi => h.pipes.unborn i (le_trans (Nat.le_succ _) hi)
  · intro pj hj
    by_cases hpj : pj = pi
    · rw [hpj]
      exact isPage_of_kend hpage hkend
    · rw [hother pj hpj] at hj
      exact isPage_of_kend (h.pipes.isPage pj hj) hkend
  · obtain ⟨live, hmem, hacc⟩ := h.pipes.pages
    have hnot : pi ∉ live := fun hin => hdead ((hmem pi).mp hin)
    refine ⟨insert pi live, fun pj => ?_, (kalloc_holds hacc hk).congr ?_⟩
    · by_cases hpj : pj = pi
      · rw [hpj, hself]
        exact iff_of_true (Finset.mem_insert_self pi live) ⟨true, rfl⟩
      · rw [Finset.mem_insert, hother pj hpj, hmem pj, or_iff_right hpj]
    · rw [Finset.insert_val_of_notMem hnot, ← Multiset.singleton_add]
      show _ = boot + ({pi} + live.val) + ∑ q ∈ _, (s.kernel.proc q).owned
      abel

/-- A state that differs in the pool only, with the same pages outstanding, or in inodes. -/
theorem FileInv.congr (h : FileInv boot hand s) {k : Kernel} (hproc : k.proc = s.kernel.proc)
    (hfile : k.file = s.kernel.file) (ht : Touched 0 s.kernel k)
    (hout : k.mem.outstanding = s.kernel.mem.outstanding) :
    FileInv boot hand { s with kernel := k } :=
  ⟨h.entries.congr (fun q => congrArg Proc.ofile (congrFun hproc q)) hfile rfl,
    h.pipes.touched ht hout rfl rfl rfl rfl⟩

theorem fileclose_two {f' : ℕ} (h : FileInv boot (f ::ₘ f' ::ₘ 0) s) :
    ∃ u t, fileclose s f = .ok u ∧ fileclose u f' = .ok t ∧ FileInv boot 0 t
      ∧ t.kernel.proc = s.kernel.proc ∧ ∀ p, Touched p s.kernel t.kernel := by
  obtain ⟨u, hrun, hu, hproc, ht⟩ := h.fileclose
  obtain ⟨t, hrun', ht', hproc', htt⟩ := hu.fileclose
  exact ⟨u, t, hrun, hrun', ht', hproc'.trans hproc, fun p => (ht p).trans (htt p)⟩

theorem closeEnds_spec {rf wf : ℕ} (h : FileInv boot (rf ::ₘ wf ::ₘ 0) s) :
    ∃ t, closeEnds s rf wf = .ok (false, t) ∧ FileInv boot 0 t ∧ t.kernel.proc = s.kernel.proc
      ∧ ∀ p, Touched p s.kernel t.kernel := by
  obtain ⟨u, t, hrun, hrun', ht, hproc, htouch⟩ := fileclose_two h
  refine ⟨t, ?_, ht, hproc, htouch⟩
  unfold closeEnds
  rw [hrun, ok_bind, hrun', ok_bind]
  rfl

/-- **`pipealloc`** returns with two references in the hand, or with none. -/
theorem pipealloc_spec (h : FileInv boot 0 s) :
    (∃ t, pipealloc s = .ok (none, t) ∧ FileInv boot 0 t ∧ t.kernel.proc = s.kernel.proc
        ∧ ∀ p, Touched p s.kernel t.kernel)
      ∨ ∃ f0 f1 t, pipealloc s = .ok (some (f0, f1), t) ∧ FileInv boot (f0 ::ₘ f1 ::ₘ 0) t
        ∧ t.kernel.proc = s.kernel.proc ∧ ∀ p, Touched p s.kernel t.kernel := by
  unfold pipealloc
  rcases h.filealloc with hnone | ⟨f0, hf0, hzero0, hof0, h₁⟩
  · rw [hnone]
    exact Or.inl ⟨s, rfl, h, rfl, fun p => Touched.refl p _⟩
  rw [hf0]
  simp only
  set s₁ := s.setFile f0 { s.kernel.file f0 with ref := 1 } with hs₁
  have ht₁ : ∀ p, Touched p s.kernel s₁.kernel := fun p => touched_setFile p s f0 _
  rcases h₁.filealloc with hnone | ⟨f1, hf1, hzero1, hof1, h₂⟩
  · -- no second entry
    rw [hnone]
    obtain ⟨t, hrun, ht, hproc, htouch⟩ := h₁.fileclose
    refine Or.inl ⟨t, ?_, ht, hproc, fun p => (ht₁ p).trans (htouch p)⟩
    simp only [hrun, ok_bind]
    rfl
  rw [hf1]
  simp only
  have hself : s₁.kernel.file f0 = { s.kernel.file f0 with ref := 1 } := update_self ..
  have hne : f0 ≠ f1 := by
    rintro rfl
    rw [hself] at hzero1
    exact one_ne_zero hzero1
  set s₂ := s₁.setFile f1 { s₁.kernel.file f1 with ref := 1 } with hs₂
  have ht₂ : ∀ p, Touched p s.kernel s₂.kernel := fun p => (ht₁ p).trans (touched_setFile p s₁ f1 _)
  have h₂' : FileInv boot (f0 ::ₘ f1 ::ₘ 0) s₂ := Multiset.cons_swap f1 f0 0 ▸ h₂
  rcases hk : kalloc s₂.kernel.mem with ⟨pi, m⟩
  have hkend : m.kend = s₂.kernel.mem.kend := by
    rcases kalloc_cases s₂.kernel.mem with ⟨m', hk', -, hkend⟩ | ⟨_, m', hk', -, -, -, hkend⟩ <;>
    · rw [hk] at hk'
      obtain rfl := (Prod.mk.inj hk').2
      exact hkend
  have ht₃ : ∀ p, Touched p s.kernel (s₂.setMem m).kernel :=
    fun p => (ht₂ p).trans (Touched.of_proc p hkend rfl)
  cases pi with
  | none =>
    -- no page
    have hout : m.outstanding = s₂.kernel.mem.outstanding := by
      rcases kalloc_cases s₂.kernel.mem with ⟨m', hk', hout, -⟩ | ⟨_, m', hk', -⟩
      · rw [hk] at hk'
        obtain rfl := (Prod.mk.inj hk').2
        exact hout
      · rw [hk] at hk'
        cases hk'
    have h₃ : FileInv boot (f0 ::ₘ f1 ::ₘ 0) (s₂.setMem m) :=
      h₂'.congr rfl rfl (Touched.of_proc 0 hkend rfl) hout
    obtain ⟨u, t, hrun, hrun', ht, hproc, htouch⟩ := fileclose_two h₃
    refine Or.inl ⟨t, ?_, ht, hproc, fun p => (ht₃ p).trans (htouch p)⟩
    simp only [hrun, hrun', ok_bind]
    rfl
  | some pi =>
    have hof1' : s.pipeOf f1 = none := hof1
    refine Or.inr ⟨f0, f1, _, rfl, h₂'.newPipe hne hof0 hof1' ?_ hk, rfl, ht₃⟩
    have hidle0 := h.entries.idle f0 hzero0
    have hidle1 := h₁.entries.idle f1 hzero1
    rintro f (rfl | rfl)
    · have hf : s₂.kernel.file f = s₁.kernel.file f := update_of_ne hne ..
      rw [hf, hself]
      exact ⟨hidle0, one_ne_zero⟩
    · have hf : s₂.kernel.file f = { s₁.kernel.file f with ref := 1 } := update_self ..
      rw [hf]
      exact ⟨hidle1, one_ne_zero⟩

/-- **`sys_pipe`**, wherever it fails. -/
theorem sysPipe_spec (h : FileInv boot 0 s) (hp : p < nproc) (copyFails : Bool) :
    ∃ ok t, sysPipe s p copyFails = .ok (ok, t) ∧ Returned boot p s ok t := by
  unfold sysPipe
  rcases pipealloc_spec h with ⟨t, hrun, ht, hproc, htouch⟩ | ⟨rf, wf, u, hrun, hu, hproc, htouch⟩
  · exact ⟨false, t, by rw [hrun]; rfl, ht, htouch p, fun _ => hproc⟩
  rw [hrun]
  simp only [ok_bind]
  -- wherever it fails from here on, the descriptors are those of `u` again
  have hback : ∃ t, closeEnds u rf wf = .ok (false, t) ∧ Returned boot p s false t := by
    obtain ⟨t, hclose, ht, hproc', htouch'⟩ := closeEnds_spec hu
    exact ⟨t, hclose, ht, (htouch p).trans (htouch' p), fun _ => hproc'.trans hproc⟩
  rcases fdalloc_cases u p rf with hfd | ⟨fd0, hnone0, hfd⟩
  · rw [hfd]
    exact ⟨false, hback⟩
  rw [hfd]
  have h₁ := hu.installFd hp hnone0
  simp only
  rcases fdalloc_cases (u.setFd p fd0 (some rf)) p wf with hfd' | ⟨fd1, hnone1, hfd'⟩
  · rw [hfd']
    simp only
    rw [setFd_cancel hnone0]
    exact ⟨false, hback⟩
  rw [hfd']
  simp only
  cases copyFails with
  | true =>
    rw [if_pos rfl, setFd_cancel_two hnone0 hnone1]
    exact ⟨false, hback⟩
  | false =>
    rw [if_neg Bool.false_ne_true]
    refine ⟨true, _, rfl, h₁.installFd hp hnone1, (htouch p).trans ?_, fun hok => nomatch hok⟩
    exact (Touched.setFd p u.kernel fd0 (some rf)).trans (Touched.setFd p _ fd1 (some wf))

/-! ## Opening, duplicating and closing -/

theorem sysOpen_spec (h : FileInv boot 0 s) (hp : p < nproc) (path : Option ℕ) :
    ∃ ok t, sysOpen s p path = .ok (ok, t) ∧ Returned boot p s ok t := by
  unfold sysOpen
  cases path with
  | none => exact ⟨false, s, rfl, h, Touched.refl p _, fun _ => rfl⟩
  | some ip =>
    simp only
    have hiput : ∀ k : Kernel, Touched p k (iput k ip) := fun k => Touched.of_proc p rfl rfl
    set s₀ : Tables := { s with kernel := idup s.kernel ip } with hs₀
    have ht₀ : Touched p s.kernel s₀.kernel := Touched.of_proc p rfl rfl
    have h₀ : FileInv boot 0 s₀ := h.congr rfl rfl (Touched.of_proc 0 rfl rfl) rfl
    rcases h₀.filealloc with hnone | ⟨f, hf, hzero, hof, h₁⟩
    · rw [hnone]
      refine ⟨false, _, rfl, h₀.congr rfl rfl (Touched.of_proc 0 rfl rfl) rfl, ?_, fun _ => rfl⟩
      exact ht₀.trans (hiput _)
    rw [hf]
    simp only
    set s₁ := s₀.setFile f { s₀.kernel.file f with ref := 1 } with hs₁
    have ht₁ : Touched p s.kernel s₁.kernel := ht₀.trans (touched_setFile p s₀ f _)
    rcases fdalloc_cases s₁ p f with hfd | ⟨fd, hnone, hfd⟩
    · -- no descriptor: the entry is given back
      rw [hfd]
      obtain ⟨t, hrun, ht, hproc, htouch⟩ := h₁.fileclose
      refine ⟨false, { t with kernel := iput t.kernel ip }, by simp only [hrun, ok_bind]; rfl,
        ht.congr rfl rfl (Touched.of_proc 0 rfl rfl) rfl, ?_, fun _ => hproc⟩
      exact (ht₁.trans (htouch p)).trans (hiput _)
    · rw [hfd]
      have h₂ := h₁.installFd hp hnone
      have hone : ((s₁.setFd p fd (some f)).kernel.file f).ref = 1 := by
        show (update s₀.kernel.file f _ f).ref = 1
        rw [update_self]
      refine ⟨true, _, rfl, ⟨h₂.entries.setFile (h₂.entries.refs f) (fun _ _ => rfl) ?_ ?_,
        h₂.pipes.touched (touched_setFile 0 _ f _) rfl rfl rfl rfl rfl⟩, ?_, fun hok => nomatch hok⟩
      · intro hzero'
        rw [hone] at hzero'
        exact absurd hzero' one_ne_zero
      · intro e he
        have hof' : s.pipeOf f = some e := he
        rw [show s.pipeOf f = none from hof] at hof'
        cases hof'
      · exact (ht₁.trans (Touched.setFd p s₁.kernel fd (some f))).trans
          (touched_setFile p (s₁.setFd p fd (some f)) f _)

theorem FileInv.one_le_ref (h : FileInv boot hand s) {fd : Fin nofile} (hp : p < nproc)
    (hsome : (s.kernel.proc p).ofile fd = some f) : 1 ≤ (s.kernel.file f).ref := by
  rw [h.entries.refs f, fdCount_close hp hsome f, if_pos rfl]
  push_cast
  omega

theorem sysDup_spec (h : FileInv boot 0 s) (hp : p < nproc) (n : ℤ) :
    ∃ ok t, sysDup s p n = .ok (ok, t) ∧ Returned boot p s ok t := by
  unfold sysDup
  cases harg : argfd s.kernel p n with
  | none => exact ⟨false, s, rfl, h, Touched.refl p _, fun _ => rfl⟩
  | some x =>
    obtain ⟨gd, f⟩ := x
    simp only
    rcases fdalloc_cases s p f with hfd | ⟨fd, hnone, hfd⟩
    · exact ⟨false, s, by rw [hfd], h, Touched.refl p _, fun _ => rfl⟩
    · rw [hfd]
      have href := h.one_le_ref hp (argfd_eq_some harg)
      -- the descriptor is written first, the reference counted after it
      have hdup : FileInv boot 0 (Tables.setFd _ p fd (some f)) := (h.filedup href).2.installFd hp hnone
      refine ⟨true, _, ?_, hdup, ?_, fun hok => nomatch hok⟩
      · have hrun : filedup (s.setFd p fd (some f)) f = .ok _ := if_neg (not_lt.mpr href)
        simp only [hrun, ok_bind]
        rfl
      · exact (touched_setFile p s f _).trans (Touched.setFd p _ fd (some f))

theorem sysClose_spec (h : FileInv boot 0 s) (hp : p < nproc) (n : ℤ) :
    ∃ ok t, sysClose s p n = .ok (ok, t) ∧ Returned boot p s ok t := by
  unfold sysClose
  cases harg : argfd s.kernel p n with
  | none => exact ⟨false, s, rfl, h, Touched.refl p _, fun _ => rfl⟩
  | some x =>
    obtain ⟨fd, f⟩ := x
    obtain ⟨t, hrun, ht, -, htouch⟩ := (h.clearFd hp (argfd_eq_some harg)).fileclose
    refine ⟨true, t, by simp only [hrun, ok_bind]; rfl, ht, ?_, fun hok => nomatch hok⟩
    exact (Touched.setFd p s.kernel fd none).trans (htouch p)

/-! ## `exit` -/

theorem closeFile_spec (h : FileInv boot 0 s) (hp : p < nproc) (fd : Fin nofile) :
    ∃ t, closeFile p s fd = .ok t ∧ FileInv boot 0 t ∧ Touched p s.kernel t.kernel
      ∧ (t.kernel.proc p).ofile = update (s.kernel.proc p).ofile fd none := by
  unfold closeFile
  cases hf : (s.kernel.proc p).ofile fd with
  | none =>
    refine ⟨s, rfl, h, Touched.refl p _, ?_⟩
    rw [← hf, update_eq_self]
  | some f =>
    -- here the reference goes first, the descriptor after it
    obtain ⟨t, hrun, ht, hproc, htouch⟩ := (h.clearFd hp hf).fileclose
    rw [fileclose_setFd] at hrun
    refine ⟨t, ?_, ht, (Touched.setFd p s.kernel fd none).trans (htouch p), ?_⟩
    · cases hclose : fileclose s f with
      | error e =>
        rw [hclose] at hrun
        cases hrun
      | ok u =>
        rw [hclose] at hrun
        simp only [hclose, ok_bind]
        exact hrun
    · rw [hproc]
      exact ofile_setFd s p fd none

/-- **The loop of `exit`** closes every descriptor. -/
theorem closeFiles_spec (hp : p < nproc) (l : List (Fin nofile)) (h : FileInv boot 0 s) :
    ∃ t, l.foldlM (closeFile p) s = .ok t ∧ FileInv boot 0 t ∧ Touched p s.kernel t.kernel
      ∧ ∀ fd, (t.kernel.proc p).ofile fd = if fd ∈ l then none else (s.kernel.proc p).ofile fd := by
  induction l generalizing s with
  | nil => exact ⟨s, rfl, h, Touched.refl p _, fun fd => by rw [if_neg List.not_mem_nil]⟩
  | cons fd l ih =>
    obtain ⟨s₁, hrun₁, h₁, ht₁, hofile₁⟩ := closeFile_spec h hp fd
    obtain ⟨t, hrun, ht, htouch, hofile⟩ := ih h₁
    refine ⟨t, ?_, ht, ht₁.trans htouch, fun gd => ?_⟩
    · rw [List.foldlM_cons, hrun₁]
      exact hrun
    · rw [hofile gd, hofile₁]
      by_cases hgd : gd = fd
      · subst hgd
        simp
      · simp [hgd]

end Xv6.Ftable
