/-
# References over whole runs

`fork`, `clone`, `wait` and the scheduler are those of `ProcModel`.  They only add
references and never change what a file is (`Grown`), so the invariants of the entries
and of the pipes carry over, and with the calls of `FileCalls` they hold in every
reachable state (`Reach.inv`).  `file_references_exact` reads off what they say about
reference counts, free entries, failing calls and the pages of the pipes.
-/
import Xv6.FileCalls

namespace Xv6.Ftable

open Function

variable {fresh : Bool} {k t : Kernel} {boot : Multiset ℕ} {r : Option ℕ} {s : Tables} {np p : ℕ}

/-! ## Calls that concern no pipe -/

/-- References are only added, and no file changes. -/
def Grown (k k' : Kernel) : Prop :=
  ∀ f, (k.file f).ref ≤ (k'.file f).ref ∧ (k'.file f).ip = (k.file f).ip

theorem Grown.of_file {k' : Kernel} (h : k'.file = k.file) : Grown k k' := by
  intro f
  rw [h]
  exact ⟨le_rfl, rfl⟩

theorem Grown.trans {k' k'' : Kernel} (h : Grown k k') (h' : Grown k' k'') : Grown k k'' :=
  fun f => ⟨(h f).1.trans (h' f).1, (h' f).2.trans (h f).2⟩

theorem freeproc_file {i : ℕ} (hrun : freeproc k i = .ok t) : t.file = k.file := by
  obtain ⟨m, -, hrun⟩ := bind_eq_ok_iff.mp hrun
  obtain ⟨m', -, hrun⟩ := bind_eq_ok_iff.mp hrun
  cases hrun
  rfl

theorem allocproc_file (hrun : allocproc k = .ok (r, t)) : t.file = k.file := by
  rcases allocproc_cases k with ⟨halloc, -⟩ | ⟨i, -, -, halloc⟩
  · rw [halloc] at hrun
    cases hrun
    rfl
  rw [halloc] at hrun
  unfold allocprocFound at hrun
  simp only at hrun
  split at hrun
  · obtain ⟨u, hfree, hret⟩ := bind_eq_ok_iff.mp hrun
    cases hret
    exact (freeproc_file hfree).trans rfl
  · obtain ⟨⟨pt, m⟩, -, hrun⟩ := bind_eq_ok_iff.mp hrun
    cases pt with
    | none =>
      obtain ⟨u, hfree, hret⟩ := bind_eq_ok_iff.mp hrun
      cases hret
      exact (freeproc_file hfree).trans rfl
    | some pt =>
      cases hrun
      rfl

theorem dupFile_grown {fd : Fin nofile} (hrun : dupFile p np k fd = .ok t) : Grown k t := by
  unfold dupFile at hrun
  cases hf : (k.proc p).ofile fd with
  | none =>
    simp only [hf] at hrun
    cases hrun
    exact Grown.of_file rfl
  | some f =>
    simp only [hf] at hrun
    obtain ⟨u, hdup, hret⟩ := bind_eq_ok_iff.mp hrun
    cases hret
    unfold Xv6.filedup at hdup
    split_ifs at hdup
    cases hdup
    intro g
    show (k.file g).ref ≤ (update k.file f _ g).ref ∧ (update k.file f _ g).ip = _
    by_cases hg : g = f
    · rw [hg, update_self]
      exact ⟨by simp, rfl⟩
    · rw [update_of_ne hg]
      exact ⟨le_rfl, rfl⟩

theorem copyOpen_grown (hrun : copyOpen k p np = .ok t) : Grown k t := by
  obtain ⟨_, -, hrun⟩ := bind_eq_ok_iff.mp hrun
  obtain ⟨_, -, hrun⟩ := bind_eq_ok_iff.mp hrun
  obtain ⟨u, hloop, hrun⟩ := bind_eq_ok_iff.mp hrun
  obtain ⟨ip, -, hrun⟩ := bind_eq_ok_iff.mp hrun
  cases hrun
  have hu : Grown k u := foldlM_ok_induction
    (fun _ _ _ hturn h => h.trans (dupFile_grown hturn)) hloop (Grown.of_file rfl)
  exact hu.trans (Grown.of_file rfl)

/-- The beginning of `fork` and `clone`. -/
theorem forkCopy_grown (hrun : forkCopy k p = .ok (r, t)) : Grown k t := by
  obtain ⟨⟨o, u⟩, halloc, hrun⟩ := bind_eq_ok_iff.mp hrun
  have hu : Grown k u := Grown.of_file (allocproc_file halloc)
  cases o with
  | none =>
    cases hrun
    exact hu
  | some np =>
    obtain ⟨old, -, hrun⟩ := bind_eq_ok_iff.mp hrun
    obtain ⟨new, -, hrun⟩ := bind_eq_ok_iff.mp hrun
    obtain ⟨⟨ok, new', m⟩, -, hrun⟩ := bind_eq_ok_iff.mp hrun
    cases ok with
    | false =>
      obtain ⟨v, hfree, hret⟩ := bind_eq_ok_iff.mp hrun
      cases hret
      exact hu.trans (Grown.of_file ((freeproc_file hfree).trans rfl))
    | true =>
      obtain ⟨v, hopen, hret⟩ := bind_eq_ok_iff.mp hrun
      cases hret
      have hv := copyOpen_grown hopen
      exact hu.trans hv

theorem forkFinish_file (hrun : forkFinish k p np = .ok t) : t.file = k.file := by
  obtain ⟨n, -, hrun⟩ := bind_eq_ok_iff.mp hrun
  obtain ⟨⟨nodes, pids⟩, -, hrun⟩ := bind_eq_ok_iff.mp hrun
  cases hrun
  rfl

theorem fork_grown (hrun : Xv6.fork k p = .ok (r, t)) : Grown k t := by
  obtain ⟨⟨o, u⟩, hcopy, hrun⟩ := bind_eq_ok_iff.mp hrun
  have hu := forkCopy_grown hcopy
  cases o with
  | none =>
    cases hrun
    exact hu
  | some np =>
    obtain ⟨v, hfin, hret⟩ := bind_eq_ok_iff.mp hrun
    cases hret
    exact hu.trans (Grown.of_file ((forkFinish_file hfin).trans rfl))

theorem clone_grown (hrun : Xv6.clone k p = .ok (r, t)) : Grown k t := by
  obtain ⟨⟨o, u⟩, hcopy, hrun⟩ := bind_eq_ok_iff.mp hrun
  have hu := forkCopy_grown hcopy
  cases o with
  | none =>
    cases hrun
    exact hu
  | some np =>
    simp only at hrun
    have hmalloc : (namespaceMalloc u).2.file = u.file := by
      rcases namespaceMalloc_cases u with ⟨-, hm⟩ | ⟨i, -, -, hm⟩ <;> rw [hm]
    generalize namespaceMalloc u = w at hrun hmalloc
    obtain ⟨n, -, hrun⟩ := bind_eq_ok_iff.mp hrun
    obtain ⟨head, -, hrun⟩ := bind_eq_ok_iff.mp hrun
    obtain ⟨v, hfin, hret⟩ := bind_eq_ok_iff.mp hrun
    cases hret
    exact hu.trans (Grown.of_file ((forkFinish_file hfin).trans hmalloc))

/-- Once no file of `p` is open, the rest of `exit` leaves the files alone. -/
theorem exit_file {status : ℤ} (hnone : ∀ fd, (k.proc p).ofile fd = none)
    (hrun : Xv6.exit k p status = .ok t) : t.file = k.file := by
  unfold Xv6.exit at hrun
  split_ifs at hrun
  obtain ⟨k₁, hclose, hrun⟩ := bind_eq_ok_iff.mp hrun
  obtain ⟨k₂, hleave, hrun⟩ := bind_eq_ok_iff.mp hrun
  obtain ⟨k₃, hrep, hrun⟩ := bind_eq_ok_iff.mp hrun
  obtain rfl := Except.ok.inj hrun
  -- the loop over the files does nothing
  have hfile₁ : k₁.file = k.file := by
    obtain ⟨u, hloop, hclose⟩ := bind_eq_ok_iff.mp hclose
    obtain ⟨ip, -, hclose⟩ := bind_eq_ok_iff.mp hclose
    obtain rfl := Except.ok.inj hclose
    have hu : u = k := foldlM_ok_induction (P := fun v => v = k)
      (fun v fd v' hturn hv => by
        subst hv
        unfold Xv6.closeFile at hturn
        rw [hnone fd] at hturn
        exact (Except.ok.inj hturn).symm) hloop rfl
    rw [hu]
    rfl
  have hfile₂ : k₂.file = k₁.file := by
    obtain ⟨n, -, hleave⟩ := bind_eq_ok_iff.mp hleave
    obtain ⟨nodes, -, hleave⟩ := bind_eq_ok_iff.mp hleave
    obtain ⟨used, -, hleave⟩ := bind_eq_ok_iff.mp hleave
    obtain rfl := Except.ok.inj hleave
    rfl
  have hfile₃ : k₃.file = k₂.file := by
    obtain ⟨n, -, hrep⟩ := bind_eq_ok_iff.mp hrep
    obtain ⟨newInit, -, hrep⟩ := bind_eq_ok_iff.mp hrep
    obtain rfl := Except.ok.inj hrep
    refine List.foldlRecOn (motive := fun v : Kernel => v.file = k₂.file) _ _ rfl ?_
    intro v hv pp _
    unfold reparentOne
    split_ifs
    · exact hv
    · exact hv
  exact hfile₃.trans (hfile₂.trans hfile₁)

theorem Copied.kend (h : Copied k p r t) : t.mem.kend = k.mem.kend := by
  cases h with
  | noSlot _ => rfl
  | noMemory _ _ hkend _ => exact hkend
  | child _ _ hkend ht _ _ =>
    rw [ht]
    exact hkend

theorem Created.kend (h : Created k p fresh r t) : t.mem.kend = k.mem.kend := by
  cases h with
  | fail hcopy => exact Copied.kend hcopy
  | child hcopy _ _ _ =>
    have hkend := Copied.kend hcopy
    exact hkend

theorem Created.same (h : Created k p fresh none t) : t.proc = k.proc := by
  cases h with
  | fail hcopy =>
    cases hcopy with
    | noSlot _ => rfl
    | noMemory _ _ _ _ => rfl

/-! ## One call -/

/-- What holds between two calls. -/
structure Inv (boot : Multiset ℕ) (s : Tables) : Prop where
  kernel : KInv s.kernel
  files : FileInv boot 0 s

/-- The pipes do not notice a call that keeps the account of the pages and only adds
references. -/
theorem Inv.grow (h : Inv boot s) (hk : KInv k) (hgrown : Grown s.kernel k)
    (hkend : k.mem.kend = s.kernel.mem.kend) (hacc : ∀ B, Accounts B s.kernel → Accounts B k) :
    Inv boot { s with kernel := k } := by
  have hpos : ∀ f, 0 ≤ (s.kernel.file f).ref := by
    intro f
    rw [h.files.entries.refs f]
    omega
  refine ⟨hk, ⟨?_, ?_⟩⟩
  · constructor
    · intro f
      rw [Multiset.count_zero, Nat.cast_zero, add_zero]
      exact hk.files f
    · intro f hzero
      have hzero' : (s.kernel.file f).ref = 0 := le_antisymm (hzero ▸ (hgrown f).1) (hpos f)
      exact (hgrown f).2.trans (h.files.entries.idle f hzero')
    · intro f e he
      obtain ⟨hip, href⟩ := h.files.entries.ended f e he
      refine ⟨(hgrown f).2.trans hip, ?_⟩
      exact (lt_of_lt_of_le (lt_of_le_of_ne (hpos f) href.symm) (hgrown f).1).ne'
  · have hp := h.files.pipes
    refine ⟨hp.single, hp.ends, hp.numbered, hp.distinct, hp.once, hp.unborn, fun pi hpi => ?_, ?_⟩
    · exact isPage_of_kend (hp.isPage pi hpi) hkend
    · obtain ⟨live, hlive, hold⟩ := hp.pages
      exact ⟨live, hlive, hacc _ hold⟩

/-- A call that only touches descriptors and files. -/
theorem Inv.returned {t : Tables} (h : Inv boot s) (hp : (s.kernel.proc p).Live) {ok : Bool}
    (ht : Returned boot p s ok t) : Inv boot t := by
  refine ⟨ht.touched.inv h.kernel hp fun f => ?_, ht.inv⟩
  have href := ht.inv.entries.refs f
  rwa [Multiset.count_zero, Nat.cast_zero, add_zero] at href

theorem exit_spec (h : Inv boot s) (hp : p < nproc) (hrun : (s.kernel.proc p).state = .running)
    (hinit : s.kernel.initproc ≠ some p) (status : ℤ) :
    ∃ t, exit s p status = .ok t ∧ Inv boot t := by
  obtain ⟨u, hloop, hu, htouch, hofile⟩ := closeFiles_spec hp (List.finRange nofile) h.files
  have hnone : ∀ fd, (u.kernel.proc p).ofile fd = none := fun fd => by
    rw [hofile fd, if_pos (List.mem_finRange fd)]
  have huinv : Inv boot u :=
    h.returned (live_of_running hrun) (show Returned boot p s true u from ⟨hu, htouch, fun hok => nomatch hok⟩)
  have hrun' : (u.kernel.proc p).state = .running := by
    rw [htouch.only.self]
    exact hrun
  have hinit' : u.kernel.initproc ≠ some p := by
    rw [htouch.only.rest]
    exact hinit
  obtain ⟨k, hexit, hexited⟩ := Xv6.exit_spec huinv.kernel hp hrun' hinit' status
  have hstep : Xv6.step u.kernel (.exit p status) = .ok (none, k) := bind_eq_ok_iff.mpr ⟨k, hexit, rfl⟩
  have henabled : Enabled u.kernel (.exit p status) := ⟨hp, hrun'⟩
  refine ⟨{ u with kernel := k }, ?_, huinv.grow ?_ (Grown.of_file (exit_file hnone hexit)) ?_ ?_⟩
  · unfold exit
    rw [if_neg hinit, hloop, ok_bind, hexit, ok_bind]
    rfl
  · exact (Stepped.exit hexited).inv huinv.kernel henabled
  · rw [hexited.mem]
  · exact fun B hB => step_owned huinv.kernel henabled hB hstep

/-- An event of `ProcModel` that concerns no pipe. -/
theorem Inv.kernelStep (h : Inv boot s) {e : Event} (he : Enabled s.kernel e)
    (hstep : Xv6.step s.kernel e = .ok (r, k)) (hgrown : Grown s.kernel k)
    (hkend : k.mem.kend = s.kernel.mem.kend) : Inv boot { s with kernel := k } :=
  h.grow ((stepped_of_ok h.kernel he hstep).inv h.kernel he) hgrown hkend
    fun _ hB => step_owned h.kernel he hB hstep

/-- The descriptors are those of `s`. -/
def SameFds (s t : Tables) : Prop := ∀ q, (t.kernel.proc q).ofile = (s.kernel.proc q).ofile

theorem Inv.filesCall {u t : Tables} {ok : Bool} (hu : Inv boot u) (hlive : (u.kernel.proc p).Live)
    (hproc : u.kernel.proc = s.kernel.proc) (hret : Returned boot p u ok t) :
    Inv boot t ∧ (ok = false → SameFds s t) := by
  refine ⟨hu.returned hlive hret, fun hok q => ?_⟩
  rw [hret.same hok, hproc]

/-- `fork` and `clone`, with a child or without. -/
theorem Inv.childCall (h : Inv boot s) {supply : List ℕ} {e : Event} (he : Enabled s.kernel e)
    (hrun : Xv6.step s.kernel e = .ok (r, k)) (hgrown : Grown (s.kernel.refill supply) k)
    (hcreated : Created (s.kernel.refill supply) p fresh r k) :
    Inv boot { s with kernel := k } ∧ (r.isSome = false → SameFds s { s with kernel := k }) := by
  have hkend := Created.kend hcreated
  refine ⟨h.kernelStep he hrun hgrown hkend, fun hok q => ?_⟩
  obtain rfl : r = none := Option.not_isSome_iff_eq_none.mp (Bool.eq_false_iff.mp hok)
  show (k.proc q).ofile = _
  rw [Created.same hcreated]
  rfl

/-- How a call can end other than by returning. -/
inductive Stops (s : Tables) : Call → Prop
  | init {p : ℕ} {status : ℤ} : s.kernel.initproc = some p → Stops s (.exit p status)
  | clone {p : ℕ} {supply : List ℕ} : ¬ CloneRoom s.kernel p → Stops s (.clone p supply)

/-- **Every call** returns with the invariant, unless init exits or `clone` finds no room for a
namespace, and a call that returns an error has left every descriptor as it was. -/
theorem call_spec (h : Inv boot s) {c : Call} (hc : c.Enabled s) :
    (∃ ok t, call s c = .ok (ok, t) ∧ Inv boot t ∧ (ok = false → SameFds s t))
      ∨ (Stops s c ∧ ∃ e, call s c = .error e) := by
  obtain ⟨hp, hstate⟩ := hc
  cases c with
  | sysOpen p path =>
    obtain ⟨ok, t, hrun, hret⟩ := sysOpen_spec h.files hp path
    exact Or.inl ⟨ok, t, hrun, h.filesCall (live_of_running hstate) rfl hret⟩
  | sysPipe p supply copyFails =>
    have hu : Inv boot { s with kernel := s.kernel.refill supply } :=
      h.grow (h.kernel.refill supply) (Grown.of_file rfl) rfl fun _ hB => hB.refill supply
    obtain ⟨ok, t, hrun, hret⟩ := sysPipe_spec hu.files hp copyFails
    exact Or.inl ⟨ok, t, hrun, hu.filesCall (live_of_running hstate) rfl hret⟩
  | sysDup p fd =>
    obtain ⟨ok, t, hrun, hret⟩ := sysDup_spec h.files hp fd
    exact Or.inl ⟨ok, t, hrun, h.filesCall (live_of_running hstate) rfl hret⟩
  | sysClose p fd =>
    obtain ⟨ok, t, hrun, hret⟩ := sysClose_spec h.files hp fd
    exact Or.inl ⟨ok, t, hrun, h.filesCall (live_of_running hstate) rfl hret⟩
  | fork p supply =>
    obtain ⟨r, k, hrun, hcreated⟩ := fork_spec (h.kernel.refill supply) hp hstate
    exact Or.inl ⟨r.isSome, _, bind_eq_ok_iff.mpr ⟨(r, k), hrun, rfl⟩,
      h.childCall (e := .fork p supply) ⟨hp, hstate⟩ hrun (fork_grown hrun) hcreated⟩
  | clone p supply =>
    obtain ⟨r, u, -, hcopy, hnone, hsome⟩ := clone_spec (p := p) (h.kernel.refill supply) hp hstate
    cases r with
    | none =>
      have hrun := hnone rfl
      exact Or.inl ⟨false, _, bind_eq_ok_iff.mpr ⟨(none, u), hrun, rfl⟩,
        h.childCall (e := .clone p supply) ⟨hp, hstate⟩ hrun (clone_grown hrun)
          (show Created (s.kernel.refill supply) p true none u from Created.fail hcopy)⟩
    | some np =>
      by_cases hroom : CloneRoom (s.kernel.refill supply) p
      · obtain ⟨k, hrun, hcreated⟩ := (hsome np rfl).1 hroom
        exact Or.inl ⟨true, _, bind_eq_ok_iff.mpr ⟨(some np, k), hrun, rfl⟩,
          h.childCall (e := .clone p supply) ⟨hp, hstate⟩ hrun (clone_grown hrun) hcreated⟩
      · refine Or.inr ⟨Stops.clone hroom, ?_⟩
        rcases (hsome np rfl).2 hroom with herr | herr
        · exact ⟨_, show (Xv6.clone (s.kernel.refill supply) p >>= _) = _ by rw [herr]; rfl⟩
        · exact ⟨_, show (Xv6.clone (s.kernel.refill supply) p >>= _) = _ by rw [herr]; rfl⟩
  | exit p status =>
    by_cases hinit : s.kernel.initproc = some p
    · refine Or.inr ⟨Stops.init hinit, .panic "init exiting", ?_⟩
      simp [call, exit, hinit]
    · obtain ⟨t, hrun, ht⟩ := exit_spec h hp hstate hinit status
      exact Or.inl ⟨true, t, bind_eq_ok_iff.mpr ⟨t, hrun, rfl⟩, ht, fun hok => nomatch hok⟩
  | wait p copyFails =>
    have he : Enabled s.kernel (.wait p copyFails) := ⟨hp, hstate⟩
    obtain ⟨r, k, hrun, hwaited⟩ := wait_spec h.kernel.slots p copyFails
    have hstep : Xv6.step s.kernel (.wait p copyFails) = .ok (none, k) :=
      bind_eq_ok_iff.mpr ⟨(r, k), hrun, rfl⟩
    refine Or.inl ⟨true, _, bind_eq_ok_iff.mpr ⟨(none, k), hstep, rfl⟩, ?_, fun hok => nomatch hok⟩
    have hkept : k.file = s.kernel.file ∧ k.mem.kend = s.kernel.mem.kend := by
      cases hwaited with
      | fail => exact ⟨rfl, rfl⟩
      | reap _ _ _ hkend => exact ⟨rfl, hkend⟩
      | sleep => exact ⟨rfl, rfl⟩
    exact h.kernelStep he hstep (Grown.of_file hkept.1) hkept.2
  | dispatch p =>
    have he : Enabled s.kernel (.dispatch p) := ⟨hp, hstate⟩
    exact Or.inl ⟨true, _, rfl, h.kernelStep he rfl (Grown.of_file rfl) rfl, fun hok => nomatch hok⟩
  | yield p =>
    have he : Enabled s.kernel (.yield p) := ⟨hp, hstate⟩
    exact Or.inl ⟨true, _, rfl, h.kernelStep he rfl (Grown.of_file rfl) rfl, fun hok => nomatch hok⟩

/-! ## Runs -/

theorem Inv.start {boot : Finset ℕ} (h : StartedFrom boot k) : Inv boot.val (start k) := by
  have hk : KInv k := h.started.inv
  obtain ⟨_, _, -, -, -, -, -, hfile, -⟩ := started_spec h.started
  have hclosed : ∀ pi : ℕ, ¬ ((Ftable.start k).pipe pi).Live := by
    rintro pi ⟨w, hw⟩
    cases w <;> cases hw
  refine ⟨hk, ⟨⟨fun f => ?_, fun f _ => ?_, fun f e he => nomatch he⟩, ?_⟩⟩
  · rw [Multiset.count_zero, Nat.cast_zero, add_zero]
    exact hk.files f
  · show (k.file f).ip = none
    rw [hfile]
  constructor
  · exact fun f g e he => nomatch he
  · intro pi w
    refine iff_of_false (fun hw => hclosed pi ⟨w, hw⟩) ?_
    rintro ⟨f, hf⟩
    cases hf
  · exact fun pi hpi => absurd hpi (hclosed pi)
  · exact fun pi pj hpi => absurd hpi (hclosed pi)
  · exact fun i hi => absurd hi (Nat.not_lt_zero i)
  · exact fun i _ => rfl
  · exact fun pi hpi => absurd hpi (hclosed pi)
  · refine ⟨∅, fun pi => iff_of_false (Finset.notMem_empty pi) (hclosed pi), ?_⟩
    rw [Finset.empty_val, add_zero]
    exact h.accounts

/-- **The run lemma.** -/
theorem Reach.inv (h : Reach s) : ∃ boot, Inv boot s := by
  induction h with
  | start hs => exact ⟨_, Inv.start hs⟩
  | @call s t c ok _ hc hrun ih =>
    obtain ⟨boot, hinv⟩ := ih
    rcases call_spec hinv hc with ⟨ok', t', hrun', ht, -⟩ | ⟨-, e, herr⟩
    · rw [hrun] at hrun'
      cases hrun'
      exact ⟨boot, ht⟩
    · rw [hrun] at herr
      cases herr

/-- Some descriptor of some process stands for an end of the pipe number `i`. -/
def Referenced (s : Tables) (i : ℕ) : Prop :=
  ∃ q < nproc, ∃ fd f pi w, (s.kernel.proc q).ofile fd = some f ∧ s.pipeOf f = some (pi, w)
    ∧ (s.pipe pi).id = i

theorem lt_of_mem_descriptors {x : ℕ × Fin nofile} (h : x ∈ descriptors) : x.1 < nproc := by
  unfold descriptors at h
  simp only [Finset.mem_product, Finset.mem_range] at h
  exact h.1

theorem exists_fd_of_fdCount {f : ℕ} (h : fdCount k f ≠ 0) :
    ∃ q < nproc, ∃ fd, (k.proc q).ofile fd = some f := by
  by_contra hnone
  have hzero : fdCount k f = 0 := by
    unfold fdCount
    rw [Finset.card_eq_zero, Finset.filter_eq_empty_iff]
    intro x hx hopen
    exact hnone ⟨x.1, lt_of_mem_descriptors hx, x.2, hopen⟩
  exact h hzero

/-- The descriptors of a pipe and the flags of its ends. -/
theorem Inv.referenced_iff (h : Inv boot s) (i : ℕ) :
    Referenced s i ↔ ∃ pi, (s.pipe pi).Live ∧ (s.pipe pi).id = i := by
  constructor
  · rintro ⟨q, -, fd, f, pi, w, -, hf, hid⟩
    exact ⟨pi, ⟨w, (h.files.pipes.ends pi w).mpr ⟨f, hf⟩⟩, hid⟩
  · rintro ⟨pi, ⟨w, hw⟩, hid⟩
    obtain ⟨f, hf⟩ := (h.files.pipes.ends pi w).mp hw
    -- an entry that is an end of a pipe has a reference, and so a descriptor
    have href : fdCount s.kernel f ≠ 0 := by
      intro hzero
      apply (h.files.entries.ended f _ hf).2
      rw [h.kernel.files f, hzero]
      rfl
    obtain ⟨q, hq, fd, hopen⟩ := exists_fd_of_fdCount href
    exact ⟨q, hq, fd, f, pi, w, hopen, hf, hid⟩

/-- **References are exact.**  In every reachable state the count of every entry of `ftable` is
the number of descriptors of all processes that refer to it, and an entry without
references has the type `FD_NONE`.  Every call returns, unless init exits or `clone` finds no
room for a namespace, and one that returns an error leaves the descriptors of every process
as they were.  The page of a pipe has been freed once if no descriptor refers to an end of
the pipe any more, and not at all before. -/
theorem file_references_exact {s : Tables} (h : Reach s) :
    (∀ f, (s.kernel.file f).ref = fdCount s.kernel f)
      ∧ (∀ f, (s.kernel.file f).ref = 0 → s.fileType f = .none)
      ∧ (∀ c, c.Enabled s → (∃ ok t, call s c = .ok (ok, t)) ∨ Stops s c)
      ∧ (∀ c t, c.Enabled s → call s c = .ok (false, t) →
        ∀ q, (t.kernel.proc q).ofile = (s.kernel.proc q).ofile)
      ∧ ∀ i, i < s.born → (Referenced s i → s.freed i = 0) ∧ (¬ Referenced s i → s.freed i = 1) := by
  obtain ⟨boot, hinv⟩ := h.inv
  refine ⟨hinv.kernel.files, fun f hzero => ?_, fun c hc => ?_, fun c t hc hrun => ?_, fun i hi => ?_⟩
  · have hof : s.pipeOf f = none := by
      cases hf : s.pipeOf f with
      | none => rfl
      | some e => exact absurd hzero (hinv.files.entries.ended f e hf).2
    unfold Tables.fileType
    rw [hof, hinv.files.entries.idle f hzero]
    rfl
  · rcases call_spec hinv hc with ⟨ok, t, hrun, -⟩ | ⟨hstop, -⟩
    · exact Or.inl ⟨ok, t, hrun⟩
    · exact Or.inr hstop
  · rcases call_spec hinv hc with ⟨ok, t', hrun', -, hsame⟩ | ⟨-, e, herr⟩
    · rw [hrun] at hrun'
      obtain ⟨hok, rfl⟩ := Prod.mk.inj (Except.ok.inj hrun')
      exact hsame hok.symm
    · rw [hrun] at herr
      cases herr
  · rw [hinv.referenced_iff]
    constructor
    · rintro ⟨pi, hlive, rfl⟩
      exact (hinv.files.pipes.numbered pi hlive).2
    · intro hnone
      exact hinv.files.pipes.once i hi fun pi hlive hid => hnone ⟨pi, hlive, hid⟩

/-- Make calls one after the other, as long as each is enabled and returns. -/
def runCalls : List Call → Tables → Option Tables
  | [], s => some s
  | c :: l, s =>
    if c.Enabled s then
      match call s c with
      | .ok (_, t) => runCalls l t
      | .error _ => none
    else none

theorem Reach.of_runCalls {l : List Call} {t : Tables} (h : Reach s) (hrun : runCalls l s
      = some t) :
    Reach t := by
  induction l generalizing s with
  | nil =>
    cases hrun
    exact h
  | cons c l ih =>
    rw [runCalls] at hrun
    split_ifs at hrun with hc
    split at hrun
    · next ok u hcall => exact ih (h.call hc hcall) hrun
    · cases hrun

/-- The pipe of a descriptor. -/
def pipeOfFd (s : Tables) (q : ℕ) (fd : Fin nofile) : Option ℕ :=
  ((s.kernel.proc q).ofile fd).bind fun f => (s.pipeOf f).map fun e => (s.pipe e.1).id

theorem referenced_of_pipeOfFd {q i : ℕ} {fd : Fin nofile} (hq : q < nproc)
    (h : pipeOfFd s q fd = some i) : Referenced s i := by
  obtain ⟨f, hf, hmap⟩ := Option.bind_eq_some_iff.mp h
  obtain ⟨⟨pi, w⟩, he, hid⟩ := Option.map_eq_some_iff.mp hmap
  exact ⟨q, hq, fd, f, pi, w, hf, he, hid⟩

/-- After `pipe`, `fork` and `close` of both ends in the parent, the child still has the pipe and
its page has not been freed. -/
theorem file_references_exact_forked :
    ∃ s, Reach s ∧ 0 < s.born ∧ Referenced s 0 ∧ s.freed 0 = 0 := by
  have hrun : (bootRun.bind fun x => runCalls [.dispatch 0, .sysPipe 0 (tenPages 1) false,
      .fork 0 (tenPages 2), .sysClose 0 0, .sysClose 0 1] (start x.2)).any
      (fun s => decide (0 < s.born) && decide (pipeOfFd s 1 ⟨1, by decide⟩ = some 0)) = true := by
    decide +kernel
  obtain ⟨s, hs, hcheck⟩ := (Option.any_eq_true _ _).mp hrun
  obtain ⟨x, hx, hcalls⟩ := Option.bind_eq_some_iff.mp hs
  have hreach : Reach s := Reach.of_runCalls (Reach.start (bootRun_startedFrom hx)) hcalls
  rw [Bool.and_eq_true, decide_eq_true_iff, decide_eq_true_iff] at hcheck
  have href : Referenced s 0 := referenced_of_pipeOfFd (by decide) hcheck.2
  exact ⟨s, hreach, hcheck.1, href, ((file_references_exact hreach).2.2.2.2 0 hcheck.1).1 href⟩

end Xv6.Ftable
