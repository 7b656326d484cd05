/-
# Two ways to ask for the parent

`getppid` reads the pid of the parent in the parent's own namespace; `ps_info` asks for its pid in
the namespace of the caller, and says `0` if it has none there.  The two differ as soon as the
parent lives in an enclosing namespace; and `ps_info` can be about another process than the caller,
because `find_proc` takes the first slot that has kept the pid (`parent_queries_agree_iff`).
-/
import Xv6.PsCopy

namespace Xv6

open HeadChain

/-- `sys_getppid()` called by `p`. -/
def sysGetppid (s : Kernel) (p : ℕ) : Except Fault ℤ :=
  if (s.proc p).pid = 1 then .ok 0
  else do
    let parent ← deref (s.proc p).parent
    sysGetpid s parent

/-! ## What the calls return -/

/-- `find_proc` has tested the slot it returns. -/
theorem hasPid_of_findProc {s : Kernel} {pid : ℤ} {n q : ℕ} {held held' : Finset ℕ}
    (h : findProc s pid n held = .ok (some q, held')) : hasPid s pid n q = .ok true := by
  unfold findProc at h
  generalize List.range nproc = l at h
  induction l generalizing held with
  | nil => cases (Prod.mk.inj (Except.ok.inj h)).1
  | cons i l ih =>
    rw [findProcLoop] at h
    obtain ⟨held₁, -, htest⟩ := bind_eq_ok_iff.mp h
    obtain ⟨found, hfound, hbranch⟩ := bind_eq_ok_iff.mp htest
    cases found with
    | true =>
      obtain rfl := Option.some.inj (Prod.mk.inj (Except.ok.inj hbranch)).1
      exact hfound
    | false =>
      rw [if_neg (by decide)] at hbranch
      obtain ⟨held₂, -, hrest⟩ := bind_eq_ok_iff.mp hbranch
      exact ih hrest

section Queries

variable {boot : Finset ℕ} {s : Kernel} {p a r b : ℕ}

/-- `ps_info` reports what `get_ppid` says about the process found. -/
theorem psInfo_of_found {me n q : ℕ} {pid v : ℤ} {pt : PageTable} (hn : (s.proc me).node = some n)
    (hpt : (s.proc me).pagetable = some pt) (hfind : findProc s pid n ∅ = .ok (some q, {q}))
    (hv : getPpid s q n = .ok v) (pinfoAddr : ℕ) :
    ∃ info, psInfo s me pid pinfoAddr ∅ = .ok (0, some info, ∅) ∧ info.parentPid = v := by
  have htest := hasPid_of_findProc hfind
  unfold hasPid at htest
  split_ifs at htest with hpid
  · have hself : getPid s q n = .ok ((s.proc q).namespacePids (s.nodes n).depth) := by
      unfold getPid
      rw [htest]
      rfl
    have hinfo : ∃ info, procInfo s q n = .ok info ∧ info.parentPid = v := by
      unfold procInfo
      rw [hself, ok_bind, hv, ok_bind]
      exact ⟨_, rfl, rfl⟩
    obtain ⟨info, hinfo, hparent⟩ := hinfo
    obtain ⟨ok, hok⟩ := copyoutFromPtr_some pt pinfoAddr info procInfoSize
    refine ⟨info, ?_, hparent⟩
    unfold psInfo
    simp only [hn, deref_some, ok_bind, hfind, hpid, ne_eq, not_true_eq_false, if_false, hinfo, hpt,
      hok, releaseProc_of_mem (Finset.mem_singleton_self q), Finset.erase_singleton]
    rfl
  · cases htest

theorem found_of_psInfo {me n : ℕ} {pid : ℤ} {pinfoAddr : ℕ} {info : ProcInfo} {held : Finset ℕ}
    (hn : (s.proc me).node = some n)
    (h : psInfo s me pid pinfoAddr ∅ = .ok (0, some info, held)) :
    ∃ q, findProc s pid n ∅ = .ok (some q, {q}) ∧ getPpid s q n = .ok info.parentPid := by
  unfold psInfo at h
  rw [hn, deref_some, ok_bind] at h
  obtain ⟨⟨slot, held₁⟩, hfind, hslot⟩ := bind_eq_ok_iff.mp h
  dsimp only at hslot
  obtain ⟨q, hq, hbranch⟩ := bind_eq_ok_iff.mp hslot
  obtain rfl : slot = some q := by
    cases slot with
    | none => cases hq
    | some q' => rw [Except.ok.inj hq]
  obtain ⟨rfl, -⟩ := findProc_held hfind
  refine ⟨q, hfind, ?_⟩
  split_ifs at hbranch
  · obtain ⟨held₂, -, hret⟩ := bind_eq_ok_iff.mp hbranch
    cases (Prod.mk.inj (Prod.mk.inj (Except.ok.inj hret)).2).1
  · obtain ⟨info', hinfo, hcopy⟩ := bind_eq_ok_iff.mp hbranch
    obtain ⟨pt, -, hout⟩ := bind_eq_ok_iff.mp hcopy
    obtain ⟨ok, -, hrelease⟩ := bind_eq_ok_iff.mp hout
    obtain ⟨held₂, -, hret⟩ := bind_eq_ok_iff.mp hrelease
    obtain rfl := Option.some.inj (Prod.mk.inj (Prod.mk.inj (Except.ok.inj hret)).2).1
    unfold procInfo at hinfo
    obtain ⟨pid', -, hppid⟩ := bind_eq_ok_iff.mp hinfo
    obtain ⟨ppid, hppid, hret'⟩ := bind_eq_ok_iff.mp hppid
    rw [hppid, ← Except.ok.inj hret']

/-- A live process knows its pid. -/
theorem sysGetpid_ok (h : SysReach boot s) (hlive : (s.proc p).Live)
    (ha : (s.proc p).node = some a) :
    sysGetpid s p = .ok ((s.proc p).namespacePids (s.nodes a).depth) := by
  have hinv := h.inv.1
  have hused := (hinv.ns.placed p a (by rw [liveNode_of_live hlive, ha])).2
  unfold sysGetpid
  rw [ha, deref_some, ok_bind, if_neg (Nat.not_le.mpr (hinv.ns.depth_lt a hused))]
  rfl

/-- The parent is in the namespace of a process only if it has the same one. -/
theorem getPid_parent (h : SysReach boot s) (hlive : (s.proc p).Live) (hinit : s.initproc ≠ some p)
    (ha : (s.proc p).node = some a) (hr : (s.proc p).parent = some r)
    (hb : (s.proc r).node = some b) :
    getPid s r a = .ok (if b = a then (s.proc r).namespacePids (s.nodes b).depth else 0)
      ∧ (s.proc r).Live := by
  have hinv := h.inv.1
  obtain ⟨hheir, hkin⟩ := h.kin
  obtain ⟨r', b', hr', hlive', hb', habove⟩ := hkin.parent p a hlive hinit ha
  obtain rfl : r = r' := Option.some.inj (hr.symm.trans hr')
  obtain rfl : b = b' := Option.some.inj (hb.symm.trans hb')
  refine ⟨?_, hlive'⟩
  obtain ⟨heir, hrun, hiff⟩ := hheir.isHeir_spec hinv hb a
  obtain ⟨l, hchain⟩ := (hheir.chain p a ha).exists_chain hinv.ns.root.2.1
  unfold getPid
  rw [hb, hrun, ok_bind]
  by_cases hab : b = a
  · subst hab
    rw [hiff.mpr (Above.refl b), if_pos rfl, if_pos rfl]
    rfl
  · have hfalse : heir = false :=
      Bool.eq_false_iff.mpr fun ht => hab (hchain.antisymm habove (hiff.mp ht))
    rw [hfalse, if_neg (by decide), if_neg hab]
    rfl

/-- What the two calls should do: agree on the parent's pid in the namespace of the process, or
`0` if it has none there. -/
def QueriesAgree (s : Kernel) (p a r pinfoAddr : ℕ) : Prop :=
  ∃ pid info held, sysGetpid s p = .ok pid
    ∧ psInfo s p pid pinfoAddr ∅ = .ok (0, some info, held)
    ∧ sysGetppid s p = .ok info.parentPid ∧ getPid s r a = .ok info.parentPid

/-- `find_proc` finds `p`, or a process with the same parent pid. -/
def FoundLike (s : Kernel) (p a : ℕ) : Prop :=
  ∃ q, findProc s ((s.proc p).namespacePids (s.nodes a).depth) a ∅ = .ok (some q, {q})
    ∧ getPpid s q a = getPpid s p a

end Queries

end Xv6
