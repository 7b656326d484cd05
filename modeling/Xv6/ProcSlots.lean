/-
# Process slots

What a slot of the process table holds (`SlotOk`): an unused slot is clear, a used one
has a trapframe and an address space, and only a live process has a directory and open
files.  From this `freeproc` cannot fail and gives back what the slot owns, and
`forkCopy`, the beginning of `fork` and `clone`, does one of three things (`Copied`): it
finds no slot, it runs out of memory and gives back all it had taken, or it sets up the
child.
-/
import Xv6.ProcFiles
import Xv6.VmGrow

namespace Xv6

open Function

variable {s t : Kernel} {m : PagePool} {p : Proc} {i : ℕ}

/-! ## Slots -/

/-- Created, and not yet through `exit`. -/
def Proc.Live (p : Proc) : Prop := p.state ≠ .unused ∧ p.state ≠ .zombie

instance (p : Proc) : Decidable p.Live := inferInstanceAs (Decidable (_ ∧ _))

/-- A well-formed slot, where `m` tells which addresses are pages. -/
structure SlotOk (m : PagePool) (p : Proc) : Prop where
  clear : p.state = .unused → p.cleared = p
  space : p.state ≠ .unused → ∃ pt tf, p.pagetable = some pt ∧ p.trapframe = some tf
    ∧ m.IsPage tf ∧ UserSpace m ∅ pt (pageCount p.sz)
  closed : ¬ p.Live → (∀ fd, p.ofile fd = none) ∧ p.cwd = none
  dir : p.Live → ∃ ip, p.cwd = some ip

theorem not_live_of_unused (h : p.state = .unused) : ¬ p.Live := fun hl => hl.1 h

theorem isPage_of_kend {m' : PagePool} {pa : ℕ} (h : m.IsPage pa) (hkend : m'.kend = m.kend) :
    m'.IsPage pa :=
  ((spare_empty h).of_kend hkend).1

theorem SlotOk.of_kend {m' : PagePool} (h : SlotOk m p) (hkend : m'.kend = m.kend) :
    SlotOk m' p where
  clear := h.clear
  space := fun hs => by
    obtain ⟨pt, tf, hpt, htf, hpage, hspace⟩ := h.space hs
    exact ⟨pt, tf, hpt, htf, isPage_of_kend hpage hkend, hspace.of_kend hkend⟩
  closed := h.closed
  dir := h.dir

/-! ## `freeproc` -/

/-- The pages of a process. -/
def Proc.owned (p : Proc) : Multiset ℕ :=
  p.pagetable.elim 0 (fun pt => pt.tables + pt.user (pageCount p.sz))
    + p.trapframe.elim 0 fun tf => {tf}

theorem Proc.owned_cleared (p : Proc) : p.cleared.owned = 0 := rfl

theorem Proc.owned_of_cleared {p : Proc} (h : p.cleared = p) : p.owned = 0 := by
  rw [← h]
  exact p.owned_cleared

theorem Proc.owned_space {p : Proc} {pt : PageTable} {tf : ℕ} (hpt : p.pagetable = some pt)
    (htf : p.trapframe = some tf) : p.owned = {tf} + pt.tables + pt.user (pageCount p.sz) := by
  unfold Proc.owned
  rw [hpt, htf, Option.elim_some, Option.elim_some]
  abel

/-- The pages of a slot may be freed. -/
structure Freeable (m : PagePool) (p : Proc) : Prop where
  trapframe : ∀ tf, p.trapframe = some tf → m.IsPage tf
  pagetable : ∀ pt, p.pagetable = some pt → UserSpace m ∅ pt (pageCount p.sz)

theorem SlotOk.freeable (h : SlotOk m p) (hs : p.state ≠ .unused) : Freeable m p := by
  obtain ⟨pt, tf, hpt, htf, hpage, hspace⟩ := h.space hs
  constructor
  · intro tf' htf'
    rw [htf] at htf'
    cases htf'
    exact hpage
  · intro pt' hpt'
    rw [hpt] at hpt'
    cases hpt'
    exact hspace

theorem freeTrapframe_spec (h : Freeable m p) :
    ∃ m', freeTrapframe m p = .ok m' ∧ Moves m (p.trapframe.elim 0 fun tf => {tf}) m' 0 := by
  unfold freeTrapframe
  cases ht : p.trapframe with
  | none => exact ⟨m, rfl, Moves.refl m 0⟩
  | some tf => exact kfree_moves (h.trapframe tf ht)

theorem freePagetable_spec
    (h : ∀ pt, p.pagetable = some pt → UserSpace m ∅ pt (pageCount p.sz)) :
    ∃ m', freePagetable m p = .ok m'
      ∧ Moves m (p.pagetable.elim 0 fun pt => pt.tables + pt.user (pageCount p.sz)) m' 0 := by
  unfold freePagetable
  cases ht : p.pagetable with
  | none => exact ⟨m, rfl, Moves.refl m 0⟩
  | some pt => exact procFreepagetable_spec (h pt ht)

/-- **`freeproc`** gives back what the slot owns. -/
theorem freeproc_spec (h : Freeable s.mem (s.proc i)) :
    ∃ m', freeproc s i = .ok ({ s with mem := m' }.updProc i Proc.cleared)
      ∧ Moves s.mem (s.proc i).owned m' 0 := by
  obtain ⟨m₁, hrun₁, hmoves₁⟩ := freeTrapframe_spec h
  obtain ⟨m₂, hrun₂, hmoves₂⟩ := freePagetable_spec fun pt ht =>
    (h.pagetable pt ht).of_kend hmoves₁.kend
  refine ⟨m₂, ?_, ((hmoves₁.frame _).congr rfl (add_zero _)).trans hmoves₂⟩
  unfold freeproc
  rw [hrun₁, ok_bind, hrun₂, ok_bind]
  rfl

/-- **A failing call**: freeing a slot `i` that was taken from an unused one restores the
process table and the outstanding pages. -/
theorem freeproc_restore (hother : ∀ j, j ≠ i → t.proc j = s.proc j)
    (hself : (t.proc i).cleared = s.proc i) (h : Freeable t.mem (t.proc i))
    (hmoves : Moves s.mem 0 t.mem (t.proc i).owned) :
    ∃ m', freeproc t i = .ok { t with mem := m', proc := s.proc } ∧ Moves s.mem 0 m' 0 := by
  obtain ⟨m', hrun, hmoves'⟩ := freeproc_spec h
  refine ⟨m', ?_, hmoves.trans hmoves'⟩
  rw [hrun]
  unfold Kernel.updProc
  congr 2
  funext j
  by_cases hj : j = i
  · subst hj
    exact (update_self _ _ _).trans hself
  · exact (update_of_ne hj _ _).trans (hother j hj)

/-! ## `allocproc` -/

/-- A new slot: pid, trapframe and an address space without user memory. -/
def Proc.fresh (p : Proc) (pid : ℤ) (tf : ℕ) (pt : PageTable) : Proc :=
  { p with pid := pid, state := .used, trapframe := some tf, pagetable := some pt }

theorem Proc.owned_fresh (hclear : p.cleared = p) (pid : ℤ) (tf : ℕ) (pt : PageTable) :
    (p.fresh pid tf pt).owned = {tf} + pt.tables := by
  have hsz : p.sz = 0 := by rw [← hclear]; rfl
  rw [Proc.owned_space rfl rfl]
  show {tf} + pt.tables + pt.user (pageCount p.sz) = _
  rw [hsz, pageCount_zero, PageTable.user_zero, add_zero]

/-- **`allocproc`** sets up a slot with pages from the pool, or gives back those it took. -/
theorem allocprocFound_spec (hclear : (s.proc i).cleared = s.proc i) :
    (∃ m, allocprocFound s i = .ok (none, { s with mem := m, nextpid := int32 (s.nextpid + 1) })
        ∧ Moves s.mem 0 m 0)
      ∨ ∃ m tf pt, allocprocFound s i = .ok (some i,
          { s with mem := m, nextpid := int32 (s.nextpid + 1)
                   proc := update s.proc i ((s.proc i).fresh s.nextpid tf pt) })
        ∧ m.IsPage tf ∧ m.kend = s.mem.kend
        ∧ ∀ B, Holds s.mem B → AddressSpace m (B + {tf}) pt 0 := by
  have hnotf : (s.proc i).trapframe = none := by rw [← hclear]; rfl
  have hnopt : (s.proc i).pagetable = none := by rw [← hclear]; rfl
  unfold allocprocFound allocpid
  simp only [Kernel.updProc, update_self, update_idem]
  rcases kalloc_moves s.mem with ⟨m₁, hk, hmoves⟩ | ⟨tf, m₁, hk, htf, -, hmoves⟩
  · -- no page for the trapframe
    left
    rw [hk]
    simp only
    set q : Proc := { s.proc i with pid := s.nextpid, state := .used, trapframe := none } with hq
    set t : Kernel := { s with
      mem := m₁, nextpid := int32 (s.nextpid + 1), proc := update s.proc i q } with ht
    have hti : t.proc i = q := update_self _ _ _
    obtain ⟨m₂, hrun, hmoves₂⟩ := freeproc_restore (s := s) (t := t) (i := i)
      (fun j hj => update_of_ne hj _ _) (by rw [hti]; exact hclear)
      (by rw [hti]; exact ⟨by simp [hq], by simp [hq, hnopt]⟩)
      (by rw [hti]; simpa [hq, Proc.owned, hnopt] using hmoves)
    exact ⟨m₂, by rw [hrun]; rfl, hmoves₂⟩
  · rw [hk]
    simp only
    have htf₁ : m₁.IsPage tf := isPage_of_kend htf hmoves.kend
    rcases procPagetable_spec m₁ s.trampoline tf with
      ⟨m₂, hrun₂, hmoves₂⟩ | ⟨pt, m₂, hrun₂, hmoves₂, -⟩
    · -- no page table: the trapframe is freed again
      left
      rw [hrun₂]
      simp only [ok_bind]
      set q : Proc := { s.proc i with
        pid := s.nextpid, state := .used, trapframe := some tf, pagetable := none } with hq
      set t : Kernel := { s with
        mem := m₂, nextpid := int32 (s.nextpid + 1), proc := update s.proc i q } with ht
      have hti : t.proc i = q := update_self _ _ _
      obtain ⟨m₃, hrun₃, hmoves₃⟩ := freeproc_restore (s := s) (t := t) (i := i)
        (fun j hj => update_of_ne hj _ _) (by rw [hti]; exact hclear)
        (by
          rw [hti]
          refine ⟨fun tf' htf' => ?_, by simp [hq]⟩
          cases htf'
          exact isPage_of_kend htf₁ hmoves₂.kend)
        (by
          rw [hti]
          simpa [hq, Proc.owned] using hmoves.trans ((hmoves₂.frame {tf}).congr (add_zero _) rfl))
      exact ⟨m₃, by rw [hrun₃]; rfl, hmoves₃⟩
    · right
      rw [hrun₂]
      refine ⟨m₂, tf, pt, rfl, isPage_of_kend htf₁ hmoves₂.kend, hmoves₂.kend.trans hmoves.kend,
        fun B hB => ?_⟩
      rcases procPagetable_space (hmoves.holds B (hB.congr (add_zero B).symm)) s.trampoline tf with
        ⟨m', hrun', -⟩ | ⟨pt', m', hrun', -, hspace⟩
      · rw [hrun₂] at hrun'
        cases hrun'
      · rw [hrun₂] at hrun'
        cases hrun'
        exact hspace

theorem allocproc_cases (s : Kernel) :
    (allocproc s = .ok (none, s) ∧ ∀ i, i < nproc → (s.proc i).state ≠ .unused)
      ∨ ∃ i, i < nproc ∧ (s.proc i).state = .unused ∧ allocproc s = allocprocFound s i := by
  unfold allocproc
  cases hfind : (List.range nproc).find? (fun i => (s.proc i).state = .unused) with
  | none =>
    refine Or.inl ⟨rfl, fun i hi => ?_⟩
    have hi' := List.find?_eq_none.mp hfind i (List.mem_range.mpr hi)
    simpa using hi'
  | some i =>
    have hunused := List.find?_some hfind
    have hmem := List.mem_of_find?_eq_some hfind
    exact Or.inr ⟨i, List.mem_range.mp hmem, by simpa using hunused, rfl⟩

/-! ## The beginning of `fork` and `clone` -/

/-- The child's slot when `forkCopy` returns it. -/
def Proc.copyOf (q p : Proc) (pid : ℤ) (tf : ℕ) (pt : PageTable) : Proc :=
  { q with pid := pid, state := .used, trapframe := some tf, pagetable := some pt, sz := p.sz,
           ofile := p.ofile, cwd := p.cwd }

/-- What `forkCopy` can do. -/
inductive Copied (s : Kernel) (p : ℕ) : Option ℕ → Kernel → Prop
  | noSlot (hfull : ∀ i, i < nproc → (s.proc i).state ≠ .unused) : Copied s p none s
  | noMemory {i : ℕ} {m : PagePool} (hi : i < nproc) (hunused : (s.proc i).state = .unused)
      (hkend : m.kend = s.mem.kend) (hout : m.outstanding = s.mem.outstanding) :
      Copied s p none { s with mem := m, nextpid := int32 (s.nextpid + 1) }
  | child {np tf : ℕ} {m : PagePool} {pt : PageTable} {file : ℕ → File} {inodeRef : ℕ → ℤ} {t : Kernel}
      (hnp : np < nproc) (hunused : (s.proc np).state = .unused) (hkend : m.kend = s.mem.kend)
      (ht : t = { s with
        mem := m, nextpid := int32 (s.nextpid + 1), file := file, inodeRef := inodeRef,
        proc := update s.proc np ((s.proc np).copyOf (s.proc p) s.nextpid tf pt) })
      (hslot : SlotOk m (t.proc np)) (hfiles : FilesExact t) : Copied s p (some np) t

/-- The files and the directory of the child. -/
theorem copyOpen_spec {p np tf tf' ip : ℕ} (hp : p < nproc) (hnp : np < nproc) (hne : p ≠ np)
    (htf : (s.proc p).trapframe = some tf) (htf' : (s.proc np).trapframe = some tf')
    (hcwd : (s.proc p).cwd = some ip) (hexact : FilesExact s)
    (hnone : ∀ fd, (s.proc np).ofile fd = none) :
    ∃ file inodeRef, copyOpen s p np = .ok { s with
        file := file, inodeRef := inodeRef,
        proc := update s.proc np
          { s.proc np with ofile := (s.proc p).ofile, cwd := (s.proc p).cwd } }
      ∧ FilesExact { s with
        file := file, inodeRef := inodeRef,
        proc := update s.proc np
          { s.proc np with ofile := (s.proc p).ofile, cwd := (s.proc p).cwd } } := by
  obtain ⟨s₁, hrun, hexact₁, honly, -, hofile⟩ := dupFiles_spec hp hnp hne (List.finRange nofile)
    (List.nodup_finRange nofile) hexact (fun fd _ => hnone fd)
  have hofile' : (s₁.proc np).ofile = (s.proc p).ofile := by
    funext fd
    rw [hofile fd, if_pos (List.mem_finRange fd)]
  have hself : s₁.proc np = { s.proc np with ofile := (s.proc p).ofile } := by
    rw [honly.self, hofile']
  have hcwd₁ : (s₁.proc p).cwd = some ip := by rw [honly.other p hne, hcwd]
  have hproc : ((idup s₁ ip).updProc np fun q => { q with cwd := some ip }).proc
      = update s.proc np
        { s.proc np with ofile := (s.proc p).ofile, cwd := (s.proc p).cwd } := by
    funext q
    by_cases hq : q = np
    · subst hq
      simp only [Kernel.updProc, idup, update_self, hself, hcwd]
    · simp only [Kernel.updProc, idup, update_of_ne hq, honly.other q hq]
  have hstate : (idup s₁ ip).updProc np (fun q => { q with cwd := some ip }) = { s with
      file := s₁.file, inodeRef := (idup s₁ ip).inodeRef,
      proc := update s.proc np
        { s.proc np with ofile := (s.proc p).ofile, cwd := (s.proc p).cwd } } := by
    rw [← hproc]
    unfold Kernel.updProc idup
    rw [honly.rest]
  refine ⟨s₁.file, (idup s₁ ip).inodeRef, ?_, ?_⟩
  · unfold copyOpen
    rw [htf, htf', deref_some, ok_bind, deref_some, ok_bind, hrun, ok_bind, hcwd₁, deref_some, ok_bind,
      hstate]
    rfl
  · rw [← hstate]
    refine hexact₁.congr (fun q => ?_) (fun _ => rfl)
    by_cases hq : q = np
    · subst hq
      simp [Kernel.updProc, idup]
    · simp [Kernel.updProc, idup, hq]

/-- **The beginning of `fork` and `clone`**: the pages it takes from the pool are those of the
child. -/
theorem forkCopy_spec {p : ℕ} (hp : p < nproc) (hrun : (s.proc p).state = .running)
    (hslots : ∀ q, SlotOk s.mem (s.proc q)) (hexact : FilesExact s) :
    ∃ r t, forkCopy s p = .ok (r, t) ∧ Copied s p r t
      ∧ Moves s.mem 0 t.mem (r.elim 0 fun np => (t.proc np).owned) := by
  have hlive : (s.proc p).Live := by
    unfold Proc.Live
    rw [hrun]
    exact ⟨by decide, by decide⟩
  obtain ⟨old, tfp, hold, htfp, -, hspacep⟩ := (hslots p).space hlive.1
  obtain ⟨ip, hcwd⟩ := (hslots p).dir hlive
  unfold forkCopy
  rcases allocproc_cases s with ⟨halloc, hfull⟩ | ⟨np, hnp, hunused, halloc⟩
  · exact ⟨none, s, by rw [halloc]; rfl, Copied.noSlot hfull, Moves.refl s.mem 0⟩
  have hclear := (hslots np).clear hunused
  have hne : p ≠ np := by
    rintro rfl
    rw [hrun] at hunused
    cases hunused
  rw [halloc]
  rcases allocprocFound_spec hclear with ⟨m, hfound, hmoves⟩ | ⟨m, tf, pt, hfound, htf, hkend, hspace⟩
  · exact ⟨none, _, by rw [hfound]; rfl,
      Copied.noMemory hnp hunused hmoves.kend hmoves.outstanding, hmoves⟩
  rw [hfound]
  simp only [ok_bind, update_self, update_of_ne hne, hold, deref_some, Proc.fresh]
  -- the copy, and the account with it
  have hcopied : ∃ ok new m₂, uvmcopy old pt m (s.proc p).sz = .ok (ok, new, m₂)
      ∧ m₂.kend = m.kend ∧ UserSpace m₂ ∅ new (if ok then pageCount (s.proc p).sz else 0)
      ∧ Moves s.mem 0 m₂
        ({tf} + new.tables + new.user (if ok then pageCount (s.proc p).sz else 0)) := by
    obtain ⟨ok, new, m₂, hcopy, hkend₂, hspace₂⟩ := uvmcopy_space hspacep.mapsBelow (hspace _ rfl)
    refine ⟨ok, new, m₂, hcopy, hkend₂, hspace₂.user, hkend₂.trans hkend, fun B hB => ?_⟩
    obtain rfl : s.mem.outstanding.val = B := by simpa [Holds] using hB
    exact hspace₂.holds.congr (by abel)
  obtain ⟨ok, new, m₂, hcopy, hkend₂, hspace₂, hmoves₂⟩ := hcopied
  rw [hcopy]
  simp only [ok_bind]
  have htf₂ : m₂.IsPage tf := isPage_of_kend htf hkend₂
  have hsz : (s.proc np).sz = 0 := by rw [← hclear]; rfl
  cases ok with
  | false =>
    -- not enough memory for the copy
    simp only [Bool.false_eq_true, if_false] at hspace₂ hmoves₂
    simp only [Kernel.updProc, update_self, update_idem]
    set t : Kernel := { s with
      mem := m₂, nextpid := int32 (s.nextpid + 1),
      proc := update s.proc np ((s.proc np).fresh s.nextpid tf new) } with ht
    have hti : t.proc np = (s.proc np).fresh s.nextpid tf new := update_self _ _ _
    obtain ⟨m₃, hfree, hmoves₃⟩ := freeproc_restore (s := s) (t := t) (i := np)
      (fun j hj => update_of_ne hj _ _) (by rw [hti]; exact hclear)
      (by
        rw [hti]
        constructor
        · intro tf' htf'
          cases htf'
          exact htf₂
        · intro pt' hpt'
          cases hpt'
          show UserSpace m₂ ∅ new (pageCount (s.proc np).sz)
          rw [hsz]
          exact hspace₂)
      (by
        rw [hti, Proc.owned_fresh hclear]
        rwa [PageTable.user_zero, add_zero] at hmoves₂)
    refine ⟨none, _, ?_, Copied.noMemory (m := m₃) hnp hunused hmoves₃.kend hmoves₃.outstanding,
      hmoves₃⟩
    exact bind_eq_ok_iff.mpr ⟨_, hfree, rfl⟩
  | true =>
    simp only [if_true] at hspace₂ hmoves₂
    simp only [Kernel.updProc, update_self, update_idem]
    set t : Kernel := { s with
      mem := m₂, nextpid := int32 (s.nextpid + 1),
      proc := update s.proc np { (s.proc np).fresh s.nextpid tf pt with
        pagetable := some new, sz := (s.proc p).sz } } with ht
    have hti : t.proc np = { (s.proc np).fresh s.nextpid tf pt with
        pagetable := some new, sz := (s.proc p).sz } := update_self _ _ _
    have htp : t.proc p = s.proc p := update_of_ne hne _ _
    have hnofile := ((hslots np).closed (not_live_of_unused hunused)).1
    have hexact' : FilesExact t := hexact.congr (fun q => by
      by_cases hq : q = np
      · subst hq
        rw [hti]
        rfl
      · exact congrArg Proc.ofile (update_of_ne hq _ _)) (fun _ => rfl)
    obtain ⟨file, inodeRef, hopen, hfiles⟩ := copyOpen_spec (s := t) hp hnp hne
      (by rw [htp]; exact htfp) (by rw [hti]; rfl) (by rw [htp]; exact hcwd) hexact'
      (by rw [hti]; exact hnofile)
    have hproc : update t.proc np
        { t.proc np with ofile := (t.proc p).ofile, cwd := (t.proc p).cwd }
        = update s.proc np ((s.proc np).copyOf (s.proc p) s.nextpid tf new) := by
      rw [htp, hti, ht]
      exact update_idem _ _ _
    rw [hproc] at hopen hfiles
    refine ⟨some np, _, bind_eq_ok_iff.mpr ⟨_, hopen, rfl⟩,
      Copied.child hnp hunused (hkend₂.trans hkend) rfl ?_ hfiles, ?_⟩
    · -- the child's slot
      show SlotOk m₂ (update s.proc np _ np)
      rw [update_self]
      have hchild : ((s.proc np).copyOf (s.proc p) s.nextpid tf new).Live :=
        ⟨by simp [Proc.copyOf], by simp [Proc.copyOf]⟩
      refine ⟨fun h => absurd h hchild.1, fun _ => ?_, fun h => absurd hchild h, fun _ => ⟨ip, hcwd⟩⟩
      exact ⟨new, tf, rfl, rfl, htf₂, hspace₂⟩
    · refine hmoves₂.congr rfl ?_
      rw [Option.elim_some]
      show _ = (update s.proc np _ np).owned
      rw [update_self]
      exact (Proc.owned_space (p := (s.proc np).copyOf (s.proc p) s.nextpid tf new) rfl rfl).symm

end Xv6
