/-
# The order of the locks

`nests` lists which lock is taken under which.  Process locks are taken under `wait_lock`,
and `pid_lock` under a process lock; but `tickslock` is taken under a process lock by
`scheduler`, `sched`, `fork` and `clone`, while `clockintr` and `sys_sleep` take process
locks under `tickslock`.  So there is no order of all locks, and two CPUs can wait for
each other (`tickslock_deadlock`).  They cannot where the two kinds of sections do not overlap
(`Apart`, `no_spinlock_deadlock`).
-/
import Xv6.LockModel
import Xv6.LockViews

namespace Xv6.Locks

open Function LockLang

variable {l : Lock} {site : Site}

/-- `tickslock` taken by these functions is held while process locks are taken. -/
def Site.outer : Site → Bool
  | .clockintr | .sysSleep | .sleep => true
  | _ => false

/-- A process lock taken by these functions is held while `tickslock` is taken. -/
def Site.inner : Site → Bool
  | .scheduler | .allocproc => true
  | _ => false

/-- The second use may be taken under the first. -/
def nests (u v : Use) : Prop :=
  match u.lock, v.lock with
  | .waitLock, .proc _ => True
  | .proc _, .pidLock => True
  | .proc _, .tickslock => u.site.inner = true
  | .tickslock, .proc _ => u.site.outer = true
  | _, _ => False

/-- The views of the CPUs are the uses they have. -/
abbrev order : Outline Table Use Lock Slot (List Use) := ordered kernel nests

/-! ## What the functions take -/

section

variable {me : Option Slot} {p : Slot} {u : Use} {H : List Use}

/-- A lock is taken under uses in which it may be nested. -/
theorem takes_acquire (h : ∀ v ∈ H, nests v ⟨l, site⟩ ∧ v.lock ≠ l) :
    Turns kernel order me (acquire site l) H (⟨l, site⟩ :: H) := turns_acquire h

theorem takes_acquire_nil :
    Turns kernel order me (acquire site l) [] [⟨l, site⟩] := takes_acquire (by simp)

theorem takes_release : Turns kernel order me (.release l) (⟨l, site⟩ :: H) H :=
  turns_release_head (S := kernel) (u := ⟨l, site⟩)

theorem takes_release_of_lock (h : u.lock = l) : Turns kernel order me (.release l) (u :: H) H := by
  subst h
  exact turns_release_head (S := kernel)

/-- `sched` gives the process lock to the scheduler, and gets it from one again. -/
theorem takes_sched (h : u.lock = .proc p) :
    Turns kernel order (some p) (sched p) [u] [⟨.proc p, .scheduler⟩] := by
  refine (Turns.when (Turns.panic _)).cons (Turns.cons ?_ ((takes_acquire ?_).cons
    (takes_release.cons Turns.nil)))
  · exact turns_swtchBack (S := kernel) h
  · intro v hv
    obtain rfl := List.mem_singleton.mp hv
    exact ⟨rfl, by simp⟩

theorem takes_yield : Turns kernel order (some p) (yield p) [] [] :=
  takes_acquire_nil.cons ((turns_act _).cons ((takes_sched rfl).cons (takes_release.cons Turns.nil)))

theorem takes_wakeup {chan : Table → Option Chan}
    (h : ∀ q, ∀ v ∈ H, nests v ⟨.proc q, .wakeup⟩ ∧ v.lock ≠ .proc q) :
    Turns kernel order me (wakeup me chan) H H := by
  refine Turns.map (fun _ => H) (fun q _ => ?_) _
  split_ifs
  · exact Turns.skip
  · exact (takes_acquire (h q)).cons ((Turns.when (turns_act _)).cons (takes_release.cons Turns.nil))

/-- `sleep` with a lock under which process locks may be taken gets it back. -/
theorem takes_sleep {chan : Chan} {lk : Lock} (hu : u.lock = lk) (h : nests u ⟨.proc p, .sleep⟩) :
    Turns kernel order (some p) (sleep p chan lk) [u] [⟨lk, .sleep⟩] := by
  have hne : u.lock ≠ .proc p := by
    intro heq
    unfold nests at h
    rw [heq] at h
    exact h
  subst hu
  refine (takes_acquire ?_).cons (Turns.cons (m := [⟨.proc p, .sleep⟩]) ?_ ((turns_act _).cons
    ((turns_act _).cons ((takes_sched rfl).cons ((turns_act _).cons
      (takes_release.cons (takes_acquire_nil.cons Turns.nil)))))))
  · intro v hv
    obtain rfl := List.mem_singleton.mp hv
    exact ⟨h, hne⟩
  · refine turns_release (S := kernel) (List.mem_cons_of_mem _ List.mem_cons_self) ?_
    have hne' : (⟨.proc p, .sleep⟩ : Use) ≠ u := fun heq => hne (by rw [← heq])
    rw [List.erase_cons_tail (by simpa using hne'), List.erase_cons_head]

theorem takes_sleepOther : Turns kernel order (some p) (sleepOther p) [] [] :=
  takes_acquire_nil.cons ((turns_act _).cons ((turns_act _).cons ((takes_sched rfl).cons
    ((turns_act _).cons (takes_release.cons Turns.nil)))))

theorem takes_otherCode : Turns kernel order (some p) (otherCode p) [] [] := by
  intro Q B hq
  refine ⟨fun K => K = [], rfl, ?_⟩
  rintro K rfl n
  dsimp only
  split_ifs
  · exact hq
  · exact takes_sleepOther _ _ rfl
  · exact takes_wakeup (by simp) _ _ rfl

theorem takes_schedule : Turns kernel order none (schedule p) [] [] := by
  intro Q B hq
  -- the lock comes back in the use of the process that has switched
  have hrelease : ∀ u : Use, u.lock = .proc p →
      know kernel order none (.block [.release (.proc p)]) Q B [u] := fun u hu =>
    ((takes_release_of_lock hu).cons Turns.nil) Q B hq
  refine know_head (takes_acquire_nil _ _ (know_head (know_ite ?_ (Turns.skip _ _ (hrelease _ rfl)))))
  refine know_head (turns_act _ _ _ (know_head (takes_acquire ?_ _ _ (know_head (takes_release _ _
    (know_last (know_swtchTo (S := kernel) hrelease)))))))
  intro v hv
  obtain rfl := List.mem_singleton.mp hv
  exact ⟨rfl, by simp⟩

theorem takes_scheduler : Turns kernel order none scheduler [] H :=
  Turns.forever (Turns.map (fun _ => []) (fun _ _ => takes_schedule) _)

/-! ## Processes come and go -/

theorem takes_freeproc (q : Slot) : Turns kernel order me (freeproc q) H H :=
  (turns_act _).cons ((turns_act _).cons ((turns_act _).cons Turns.nil))

theorem takes_allocprocFrom {found : Slot → Code} {fail : Code} {H' : List Use}
    (hfound : ∀ q, Turns kernel order me (found q) [⟨.proc q, .allocproc⟩] H')
    (hfail : Turns kernel order me fail [] H') (l : List Slot) :
    Turns kernel order me (allocprocFrom found fail l) [] H' := by
  induction l with
  | nil => exact hfail
  | cons q l ih =>
    refine takes_acquire_nil.cons ((Turns.ite ?_ (takes_release.cons (ih.cons Turns.nil))).cons
      Turns.nil)
    have hpid : Turns kernel order me allocpid [⟨.proc q, .allocproc⟩] [⟨.proc q, .allocproc⟩] := by
      refine (takes_acquire fun v hv => ?_).cons (takes_release.cons Turns.nil)
      obtain rfl := List.mem_singleton.mp hv
      exact ⟨trivial, by simp⟩
    refine hpid.cons ((turns_act _).cons ((Turns.any fun memory => ?_).cons Turns.nil))
    split_ifs
    · exact (takes_freeproc q).cons (takes_release.cons (hfail.cons Turns.nil))
    · exact (Turns.spawn q).cons ((hfound q).cons Turns.nil)

theorem takes_forkAt (site : Site) : Turns kernel order me (forkAt site p) [] [] := by
  refine takes_allocprocFrom (fun q => Turns.any fun memory => ?_) Turns.skip _
  split_ifs
  · exact (takes_freeproc q).cons (takes_release.cons Turns.nil)
  · refine (takes_acquire fun v hv => ?_).cons (takes_release.cons (takes_release.cons
      (takes_acquire_nil.cons ((turns_act _).cons (takes_release.cons (takes_acquire_nil.cons
        ((turns_act _).cons (takes_release.cons Turns.nil))))))))
    obtain rfl := List.mem_singleton.mp hv
    exact ⟨rfl, by simp⟩

theorem takes_exit : Turns kernel order (some p) (exit p) [] H := by
  have hwakeup : ∀ chan, Turns kernel order (some p) (wakeup (some p) chan) [⟨.waitLock, .exit⟩]
      [⟨.waitLock, .exit⟩] := fun chan => takes_wakeup (by simp [nests])
  have hreparent : Turns kernel order (some p) (reparent p) [⟨.waitLock, .exit⟩]
      [⟨.waitLock, .exit⟩] :=
    Turns.map (fun _ => [(⟨.waitLock, .exit⟩ : Use)]) (fun _ _ => Turns.when ((Turns.any fun _ => turns_act _).cons
      ((hwakeup _).cons Turns.nil))) _
  refine (Turns.when (Turns.panic _)).cons (takes_otherCode.cons (takes_acquire_nil.cons
    (hreparent.cons ((hwakeup _).cons (Turns.cons (takes_acquire ?_) ((turns_act _).cons
      (Turns.cons (m := [⟨.proc p, .exit⟩]) ?_ ((takes_sched rfl).cons
        ((Turns.panic _).cons Turns.nil)))))))))
  · simp [nests]
  · exact turns_release (S := kernel) (u := ⟨.waitLock, .exit⟩) (by simp) (by simp)

/-- `killed` under a lock under which process locks may be taken. -/
theorem takes_killed (h : nests u ⟨.proc p, .killed⟩) (hu : u.lock ≠ .proc p) :
    Turns kernel order me (killed p) [u] [u] := by
  refine (takes_acquire fun v hv => ?_).cons ((Turns.any fun _ => turns_act _).cons
    (takes_release.cons Turns.nil))
  obtain rfl := List.mem_singleton.mp hv
  exact ⟨h, hu⟩

theorem takes_wait : Turns kernel order (some p) (wait p) [] [] := by
  intro Q B hq
  -- the loop starts with `wait_lock`, taken by `wait` or again by `sleep`
  refine know_head (takes_acquire_nil _ _ (know_last ⟨fun K => ∃ site, K = [⟨.waitLock, site⟩],
    ⟨.wait, rfl⟩, ?_⟩))
  rintro K ⟨site, rfl⟩
  have hreturn : ∀ I : List Use → Prop, know kernel order (some p)
      (.block [.release .waitLock, .brk]) I Q [⟨.waitLock, site⟩] := fun I =>
    know_head (takes_release _ _ (know_last hq))
  -- a child is looked at under `wait_lock` and its own lock
  have hchild : ∀ pp K, K = [⟨.waitLock, site⟩] → know kernel order (some p)
      (.when (fun _ t => t.parent pp = some p) (waitChild p pp)) (fun K => K = [⟨.waitLock, site⟩]) Q K := by
    rintro pp K rfl
    refine know_ite (know_head (takes_acquire (by simp [nests]) _ _ (know_head (turns_act _ _ _
      (know_last (know_ite (fun copied => ?_) (takes_release _ _ rfl))))))) (Turns.skip _ _ rfl)
    dsimp only
    split_ifs
    · exact know_head (takes_release _ _ (hreturn _))
    · exact know_head (takes_freeproc pp _ _ (know_head (takes_release _ _ (hreturn _))))
  refine know_head (turns_act _ _ _ (know_head (know_mono (know_block_map hchild _ rfl) ?_ fun _ h => h)))
  rintro K rfl
  have hnest : ∀ s, nests ⟨.waitLock, site⟩ ⟨.proc p, s⟩ := fun _ => trivial
  refine know_last (know_ite (hreturn _) (know_head (takes_killed (hnest _) (by simp) _ _ (know_last
    (know_ite (hreturn _) ?_)))))
  exact takes_sleep rfl (hnest _) _ _ ⟨.sleep, rfl⟩

/-! ## The clock -/

theorem takes_sysSleep (n : ℕ) : Turns kernel order (some p) (sysSleep p n) [] [] := by
  intro Q B hq
  -- the loop starts with `tickslock`, taken by `sys_sleep` or again by `sleep`
  refine know_head (takes_acquire_nil _ _ (know_head (turns_act _ _ _ (know_head
    ⟨fun K => ∃ site, Site.outer site = true ∧ K = [⟨.tickslock, site⟩], ⟨.sysSleep, rfl, rfl⟩, ?_⟩))))
  rintro K ⟨site, hsite, rfl⟩
  have hreturn : know kernel order (some p) (.block [.release .tickslock]) Q B [⟨.tickslock, site⟩] :=
    know_last (takes_release _ _ hq)
  have hnest : ∀ s, nests ⟨.tickslock, site⟩ ⟨.proc p, s⟩ := fun _ => hsite
  refine know_ite (know_head (takes_killed (hnest _) (by simp) _ _ (know_last (know_ite hreturn ?_))))
    hreturn
  exact takes_sleep rfl (hnest _) _ _ ⟨.sleep, rfl, rfl⟩

theorem takes_timerintr : Turns kernel order me (timerintr me) [] [] := by
  refine Turns.when (takes_acquire_nil.cons ((turns_act _).cons ((takes_wakeup ?_).cons
    (takes_release.cons Turns.nil))))
  simp [nests, Site.outer]

theorem takes_kerneltrap : Turns kernel order me (kerneltrap me) [] [] := by
  refine Turns.any fun n => ?_
  split_ifs
  · cases me with
    | none => exact takes_timerintr
    | some p => exact takes_timerintr.cons ((Turns.when takes_yield).cons Turns.nil)
  · exact takes_wakeup (by simp)

theorem takes_usertrap : Turns kernel order (some p) (usertrap p) [] [] := by
  refine Turns.any fun n => ?_
  split_ifs
  · exact takes_timerintr.cons (takes_yield.cons Turns.nil)
  · exact takes_wakeup (by simp)

theorem takes_userStep (n : ℕ) : Turns kernel order (some p) (userStep p n) [] [] := by
  unfold userStep
  split
  · exact takes_forkAt .fork
  · exact takes_forkAt .clone
  · exact takes_exit
  · exact takes_wait
  · exact takes_usertrap
  · exact takes_otherCode
  · exact takes_sysSleep _

theorem takes_process : Turns kernel order (some p) (process p) [⟨.proc p, .scheduler⟩] H :=
  takes_release.cons (takes_otherCode.cons ((Turns.forever (Turns.any takes_userStep)).cons Turns.nil))

end

/-! ## Sections that do not overlap -/

/-- The CPU `c` may take the lock of `u`: `tickslock` outside of process locks only while no other
CPU has a process lock under which `tickslock` is taken, and such a process lock only
while no other CPU has `tickslock` with process locks to take under it. -/
def Fits (s : State Table Use Lock Slot) (c : ℕ) (u : Use) : Prop :=
  (u.lock = .tickslock → u.site.outer = true →
      ∀ p, ∀ x ∈ s.holder (.proc p), x.1 = c ∨ x.2.site.inner = false)
    ∧ (u.lock ≠ .tickslock → u.site.inner = true →
      ∀ x ∈ s.holder .tickslock, x.1 = c ∨ x.2.site.outer = false)

instance (s : State Table Use Lock Slot) (c : ℕ) (u : Use) : Decidable (Fits s c u) :=
  inferInstanceAs (Decidable (_ ∧ _))

/-- The lock that comes next, if that is what comes next. -/
def nextUse : Cont Table Use Lock Slot → Option Use
  | .next (.acquire u) _ => some u
  | _ => none

/-- A step that makes no two sections overlap. -/
def Apart (s : State Table Use Lock Slot) : LockLang.Event → Prop
  | .run c _ => ∀ u ∈ nextUse (s.cpu c).code, Fits s c u
  | .interrupt _ => True

instance (s : State Table Use Lock Slot) : (e : LockLang.Event) → Decidable (Apart s e)
  | .run c _ => inferInstanceAs (Decidable (∀ u ∈ nextUse (s.cpu c).code, Fits s c u))
  | .interrupt _ => inferInstanceAs (Decidable True)

/-- No two sections overlap. -/
def NoOverlap (s : State Table Use Lock Slot) : Prop :=
  ∀ p c d u v, s.holder .tickslock = some (c, u) → s.holder (.proc p) = some (d, v) →
    u.site.outer = true → v.site.inner = true → c = d

theorem NoOverlap.step {s t : State Table Use Lock Slot} {e : LockLang.Event} (h : NoOverlap s)
    (hapart : Apart s e) (hstep : LockLang.step kernel s e = some t) : NoOverlap t := by
  rcases holder_of_step hstep with hsame | ⟨c, n, w, k, rfl, hcode, htake⟩ | ⟨l, hgive⟩
  · unfold NoOverlap
    rw [hsame]
    exact h
  · have hfits : Fits s c w := hapart w (by rw [hcode]; rfl)
    intro p a b u v hu hv hou hin
    rw [htake] at hu hv
    by_cases hw : w.lock = .tickslock
    · -- `tickslock` is taken
      have hl : kernel.lockOf w = .tickslock := hw
      rw [hl, update_self] at hu
      rw [hl, update_of_ne (by simp)] at hv
      obtain ⟨rfl, rfl⟩ := Prod.mk.inj (Option.some.inj hu)
      rcases hfits.1 hw hou p (b, v) hv with heq | hno
      · exact heq.symm
      · rw [hin] at hno
        cases hno
    · have hl : kernel.lockOf w ≠ .tickslock := hw
      rw [update_of_ne hl.symm] at hu
      by_cases hp : kernel.lockOf w = .proc p
      · -- the process lock is taken
        rw [hp, update_self] at hv
        obtain ⟨rfl, rfl⟩ := Prod.mk.inj (Option.some.inj hv)
        rcases hfits.2 hw hin (a, u) hu with heq | hno
        · exact heq
        · rw [hou] at hno
          cases hno
      · rw [update_of_ne (Ne.symm hp)] at hv
        exact h p a b u v hu hv hou hin
  · -- a lock that is given back is held by nobody
    intro p a b u v hu hv hou hin
    rw [hgive] at hu hv
    by_cases hl : l = .tickslock
    · rw [hl, update_self] at hu
      cases hu
    · rw [update_of_ne (Ne.symm hl)] at hu
      by_cases hp : l = .proc p
      · rw [hp, update_self] at hv
        cases hv
      · rw [update_of_ne (Ne.symm hp)] at hv
        exact h p a b u v hu hv hou hin

theorem noOverlap_of_reach {s : State Table Use Lock Slot} (h : LockLang.Reach kernel Apart booted s) :
    NoOverlap s := by
  induction h with
  | start =>
    intro p c d u v hu
    cases hu
  | step _ hok hstep ih => exact ih.step hok hstep

theorem agree_booted : Agree kernel order (fun _ => []) booted where
  inv := ⟨fun _ => List.nodup_nil, fun l c u => by simp [booted]⟩
  noff := fun _ => rfl
  code := fun _ => takes_scheduler (H := []) (fun _ => True) (fun _ => False) trivial
  saved := fun c p hp => by cases hp
  context := fun p => takes_process (H := []) (fun _ => True) (fun _ => False) trivial

theorem exists_agree {ok : State Table Use Lock Slot → LockLang.Event → Prop}
    {s : State Table Use Lock Slot} (h : LockLang.Reach kernel ok booted s) :
    ∃ w, Agree kernel order w s := by
  refine Agree.reach (fun _ _ _ _ _ _ _ => trivial) (fun _ => takes_process (H := []) _ _ trivial)
    (fun me H hH => ?_) ⟨_, agree_booted⟩ h
  obtain rfl := List.length_eq_zero_iff.mp hH
  exact takes_kerneltrap

/-- Who waits for a lock under another one. -/
theorem nests_cases {u v : Use} (h : nests u v) :
    (u.lock = .waitLock ∧ ∃ p, v.lock = .proc p)
      ∨ (∃ p, u.lock = .proc p ∧ v.lock = .pidLock)
      ∨ (∃ p, u.lock = .proc p ∧ v.lock = .tickslock ∧ u.site.inner = true)
      ∨ ∃ p, u.lock = .tickslock ∧ v.lock = .proc p ∧ u.site.outer = true := by
  unfold nests at h
  split at h
  · next p hu hv => exact Or.inl ⟨hu, p, hv⟩
  · next p hu hv => exact Or.inr (Or.inl ⟨p, hu, hv⟩)
  · next p hu hv => exact Or.inr (Or.inr (Or.inl ⟨p, hu, hv, h⟩))
  · next p hu hv => exact Or.inr (Or.inr (Or.inr ⟨p, hu, hv, h⟩))
  · exact absurd h id

section

variable {s : State Table Use Lock Slot} {H : ℕ → List Use} {D : Set ℕ} {c : ℕ} {v : Use}

/-- A stuck CPU that has a process lock waits for `tickslock`. -/
theorem ticks_of_stuck (hH : Agree kernel order H s) (hD : Stuck kernel s D) (hc : c ∈ D) {p : Slot}
    (hv : s.holder (.proc p) = some (c, v)) :
    v.site.inner = true ∧ ∃ d ∈ D, d ≠ c ∧ ∃ w, s.holder .tickslock = some (d, w) := by
  obtain ⟨hlock, u, hnest, d, hd, hne, w, hw⟩ := next_of_stuck hH hD hc hv
  have hlock : v.lock = .proc p := hlock
  have hw : s.holder u.lock = some (d, w) := hw
  rcases nests_cases hnest with ⟨hl, -⟩ | ⟨q, -, hpid⟩ | ⟨q, -, hticks, hin⟩ | ⟨q, hl, -⟩
  · rw [hlock] at hl
    cases hl
  · -- nothing is taken under `pid_lock`
    rw [hpid] at hw
    obtain ⟨hlock', u', hnest', -⟩ := next_of_stuck hH hD hd hw
    have hlock' : w.lock = .pidLock := hlock'
    rcases nests_cases hnest' with ⟨hl', -⟩ | ⟨q', hl', -⟩ | ⟨q', hl', -⟩ | ⟨q', hl', -⟩
    all_goals
      rw [hlock'] at hl'
      cases hl'
  · rw [hticks] at hw
    exact ⟨hin, d, hd, hne, w, hw⟩
  · rw [hlock] at hl
    cases hl

/-- A stuck CPU that has `tickslock` waits for a process lock. -/
theorem proc_of_stuck (hH : Agree kernel order H s) (hD : Stuck kernel s D) (hc : c ∈ D)
    (hv : s.holder .tickslock = some (c, v)) :
    v.site.outer = true ∧ ∃ p, ∃ d ∈ D, d ≠ c ∧ ∃ w, s.holder (.proc p) = some (d, w) := by
  obtain ⟨hlock, u, hnest, d, hd, hne, w, hw⟩ := next_of_stuck hH hD hc hv
  have hlock : v.lock = .tickslock := hlock
  have hw : s.holder u.lock = some (d, w) := hw
  rcases nests_cases hnest with ⟨hl, -⟩ | ⟨q, hl, -⟩ | ⟨q, hl, -⟩ | ⟨q, -, hl, hout⟩
  · rw [hlock] at hl
    cases hl
  · rw [hlock] at hl
    cases hl
  · rw [hlock] at hl
    cases hl
  · rw [hl] at hw
    exact ⟨hout, q, d, hd, hne, w, hw⟩

/-- Some CPU of a stuck set has a process lock. -/
theorem exists_proc_of_stuck (hH : Agree kernel order H s) (hD : Stuck kernel s D) (hc : c ∈ D) :
    ∃ d ∈ D, ∃ p w, s.holder (.proc p) = some (d, w) := by
  obtain ⟨⟨l, v, hv⟩, -⟩ := hD c hc
  obtain ⟨hlock, u, hnest, d, hd, -, w, hw⟩ := next_of_stuck hH hD hc hv
  have hlock : v.lock = l := hlock
  have hw : s.holder u.lock = some (d, w) := hw
  rcases nests_cases hnest with ⟨-, p, hl⟩ | ⟨p, hl, -⟩ | ⟨p, hl, -⟩ | ⟨p, -, hl, -⟩
  · rw [hl] at hw
    exact ⟨d, hd, p, w, hw⟩
  · rw [← hlock, hl] at hv
    exact ⟨c, hc, p, v, hv⟩
  · rw [← hlock, hl] at hv
    exact ⟨c, hc, p, v, hv⟩
  · rw [hl] at hw
    exact ⟨d, hd, p, w, hw⟩

end

/-- **No deadlock** between CPUs that keep the two kinds of sections apart. -/
theorem no_spinlock_deadlock {s : State Table Use Lock Slot} (h : LockLang.Reach kernel Apart booted s) :
    ¬ Deadlock kernel s := by
  obtain ⟨H, hH⟩ := exists_agree h
  rintro ⟨D, ⟨c₀, hc₀⟩, hD⟩
  -- one CPU has `tickslock` around process locks, another a process lock around `tickslock`
  obtain ⟨c, hc, p, v, hv⟩ := exists_proc_of_stuck hH hD hc₀
  obtain ⟨-, d, hd, -, w, hw⟩ := ticks_of_stuck hH hD hc hv
  obtain ⟨hout, q, e, he, hne, x, hx⟩ := proc_of_stuck hH hD hd hw
  obtain ⟨hin, -⟩ := ticks_of_stuck hH hD he hx
  exact hne (noOverlap_of_reach h q d e w x hw hx hout hin).symm

/-- Steps of CPU `c`. -/
def stepsOf (c n : ℕ) : List LockLang.Event := List.replicate n (.run c 0)

theorem waits_of_nextUse {s : State Table Use Lock Slot} {c : ℕ} {u : Use}
    (h : nextUse (s.cpu c).code = some u) : Waits kernel s c u.lock := by
  unfold nextUse at h
  split at h
  · next v k hcode =>
    obtain rfl := Option.some.inj h
    exact ⟨v, k, hcode, rfl⟩
  · cases h

/-- The first process. -/
def first : Slot := booted.data.initproc

/-- CPU `1` has switched to the first process, which has released its lock; then CPU `0` is in
`clockintr` and wants that lock in `wakeup`. -/
theorem no_spinlock_deadlock_clockintr :
    ∃ s, LockLang.Reach kernel Apart booted s
      ∧ s.holder .tickslock = some (0, ⟨.tickslock, .clockintr⟩)
      ∧ Waits kernel s 0 (.proc first) ∧ ¬ Deadlock kernel s := by
  have hrun : (runSteps kernel (fun s e => decide (Apart s e))
      (stepsOf 1 16 ++ .interrupt 0 :: stepsOf 0 9) booted).any (fun s =>
        s.holder .tickslock = some (0, ⟨.tickslock, .clockintr⟩)
          ∧ nextUse (s.cpu 0).code = some ⟨.proc first, .wakeup⟩) = true := by
    decide +kernel
  obtain ⟨s, hs, hcheck⟩ := (Option.any_eq_true _ _).mp hrun
  obtain ⟨hticks, hnext⟩ := of_decide_eq_true hcheck
  have hreach : LockLang.Reach kernel Apart booted s :=
    (LockLang.Reach.of_runSteps .start hs).mono fun _ _ => of_decide_eq_true
  exact ⟨s, hreach, hticks, waits_of_nextUse hnext, no_spinlock_deadlock hreach⟩

/-- **A deadlock**: CPU `1` is in `scheduler`, has the lock of the first process and waits for
`tickslock`; CPU `0` is in `clockintr`, has `tickslock` and waits for the lock of the first
process in `wakeup`. -/
theorem tickslock_deadlock :
    ∃ s, LockLang.Reach kernel (fun _ _ => True) booted s ∧ Deadlock kernel s := by
  have hrun : (runSteps kernel (fun _ _ => true)
      (stepsOf 1 9 ++ .interrupt 0 :: stepsOf 0 9) booted).any (fun s =>
        nextUse (s.cpu 0).code = some ⟨.proc first, .wakeup⟩
          ∧ s.holder .tickslock = some (0, ⟨.tickslock, .clockintr⟩)
          ∧ nextUse (s.cpu 1).code = some ⟨.tickslock, .scheduler⟩
          ∧ s.holder (.proc first) = some (1, ⟨.proc first, .scheduler⟩)) = true := by
    decide +kernel
  obtain ⟨s, hs, hcheck⟩ := (Option.any_eq_true _ _).mp hrun
  obtain ⟨hnext₀, hticks, hnext₁, hproc⟩ := of_decide_eq_true hcheck
  refine ⟨s, (LockLang.Reach.of_runSteps .start hs).mono fun _ _ _ => trivial, {0, 1}, ⟨0, by simp⟩, ?_⟩
  intro c hc
  rcases hc with rfl | rfl
  · exact ⟨⟨_, _, hticks⟩, _, waits_of_nextUse hnext₀, 1, by simp, by decide, _, hproc⟩
  · exact ⟨⟨_, _, hproc⟩, _, waits_of_nextUse hnext₁, 0, by simp, by decide, _, hticks⟩

end Xv6.Locks
