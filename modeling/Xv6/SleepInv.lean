/-
# Who knows what about sleeping processes

A CPU that has the lock `lk` has a *charge*: what it knows about what the processes share, and which
sleepers it still has to wake up.  A CPU that has the lock of a process has a *grip* on
it.  This module says how charges and grips fit the locks and the running processes, and
what taking a lock, giving it back, an assignment and a switch between a
scheduler and a process do to them.
-/
import Xv6.LockViews
import Xv6.SleepModel

namespace Xv6.Sleep

open Function LockLang

variable {N : ℕ} {C δ : Type}

/-- What a CPU knows about a process whose lock it has: facts about its slot, whether no CPU runs it,
and the channel it is about to sleep on. -/
structure Grip (N : ℕ) (C : Type) where
  proc : Fin N
  known : Slot C → Prop
  alone : Bool
  falls : Option C

/-- The sleepers that a CPU has to wake up, and what it knows about what the processes share. -/
structure Charge (N : ℕ) (C δ : Type) where
  debts : C → Fin N → Prop
  known : δ → Prop

/-- The process `q` sleeps on `k`, or is about to. -/
def Sleeper (slot : Fin N → Slot C) (R : ℕ → Option (Grip N C)) (q : Fin N) (k : C) : Prop :=
  ((slot q).state = .sleeping ∧ (slot q).chan = some k)
    ∨ ∃ c g, R c = some g ∧ g.proc = q ∧ g.falls = some k

/-! ## The lock of the processes that share something -/

/-- The CPU that has `lk` is the one that has a charge. -/
structure Guards (lk : Guard) (good : δ → Prop) (user : δ) (h : Holder (Use N) (Lock N))
    (G : ℕ → Option (Charge N C δ)) : Prop where
  good : good user
  holds : ∀ c, (G c).isSome ↔ ∃ u, h (.guard lk) = some (c, u)
  known : ∀ c x, G c = some x → x.known user

section

variable {lk : Guard} {good : δ → Prop} {user : δ} {h h' : Holder (Use N) (Lock N)}
  {G : ℕ → Option (Charge N C δ)} {c : ℕ} {x : Charge N C δ}

theorem Guards.congr (hG : Guards lk good user h G) (hh : h' (.guard lk) = h (.guard lk)) :
    Guards lk good user h' G :=
  ⟨hG.good, fun c => hh ▸ hG.holds c, hG.known⟩

theorem Guards.eq_none (hG : Guards lk good user h G) (hfree : h (.guard lk) = none) (e : ℕ) :
    G e = none := by
  have hiff := hG.holds e
  rw [hfree] at hiff
  simpa using hiff

theorem Guards.unique (hG : Guards lk good user h G) {y : Charge N C δ} {e : ℕ} (hc : G c = some x)
    (he : G e = some y) : e = c := by
  obtain ⟨u, hu⟩ := (hG.holds c).mp (Option.isSome_iff_exists.mpr ⟨x, hc⟩)
  obtain ⟨u', hu'⟩ := (hG.holds e).mp (Option.isSome_iff_exists.mpr ⟨y, he⟩)
  rw [hu] at hu'
  exact (Prod.mk.inj (Option.some.inj hu')).1.symm

theorem Guards.take (hG : Guards lk good user h G) (hfree : h (.guard lk) = none) (u : Use N)
    (hx : x.known user) :
    Guards lk good user (update h (.guard lk) (some (c, u))) (update G c (some x)) := by
  refine ⟨hG.good, fun e => ?_, fun e y hy => ?_⟩
  · rw [update_self]
    by_cases he : e = c
    · subst he
      simp
    · have hne : c ≠ e := fun h => he h.symm
      simp [he, hne, hG.eq_none hfree e]
  · rcases update_eq_some hy with ⟨-, ⟨⟩⟩ | ⟨-, hy⟩
    · exact hx
    · rw [hG.eq_none hfree e] at hy
      cases hy

theorem Guards.give (hG : Guards lk good user h G) (hc : G c = some x) :
    Guards lk good user (update h (.guard lk) none) (update G c none) := by
  have hnone : ∀ e, update G c none e = none := by
    intro e
    rw [Option.eq_none_iff_forall_ne_some]
    intro y hy
    obtain ⟨he, hy⟩ := update_none_eq_some hy
    exact he (hG.unique hc hy)
  refine ⟨hG.good, fun e => ?_, fun e y hy => ?_⟩
  · simp [hnone e]
  · rw [hnone e] at hy
    cases hy

/-- The CPU that has `lk` changes what the processes share. -/
theorem Guards.set (hG : Guards lk good user h G) (hc : G c = some x) {user' : δ} {x' : Charge N C δ}
    (hgood : good user') (hx : x'.known user') :
    Guards lk good user' h (update G c (some x')) := by
  refine ⟨hgood, fun e => ?_, fun e y hy => ?_⟩
  · rw [← hG.holds e]
    by_cases he : e = c
    · subst he
      simp [hc]
    · simp [he]
  · rcases update_eq_some hy with ⟨-, ⟨⟩⟩ | ⟨he, hy⟩
    · exact hx
    · exact absurd (hG.unique hc hy) he

end

/-! ## The locks of the processes -/

/-- The CPU that has the lock of a process is the one that has a grip on it.  A process that runs
on a CPU is `RUNNING`, unless it has its own lock. -/
structure Grips (slot : Fin N → Slot C) (h : Holder (Use N) (Lock N)) (r : ℕ → Option (Fin N))
    (R : ℕ → Option (Grip N C)) : Prop where
  holds : ∀ c q, (∃ g, R c = some g ∧ g.proc = q) ↔ ∃ u, h (.proc q) = some (c, u)
  known : ∀ c g, R c = some g → g.known (slot g.proc)
  alone : ∀ c g, R c = some g → g.alone = true → ∀ e, r e ≠ some g.proc
  falls : ∀ c g, R c = some g → g.falls ≠ none → r c = some g.proc
  run : ∀ c q, r c = some q → (∀ g, R c = some g → g.proc ≠ q) → (slot q).state = .running
  single : ∀ c e q, r c = some q → r e = some q → c = e

section

variable {slot : Fin N → Slot C} {h h' : Holder (Use N) (Lock N)} {r : ℕ → Option (Fin N)}
  {R : ℕ → Option (Grip N C)} {c : ℕ} {g g' : Grip N C} {q : Fin N}

theorem Grips.congr (hR : Grips slot h r R) (hh : ∀ q, h' (.proc q) = h (.proc q)) :
    Grips slot h' r R :=
  ⟨fun c q => by rw [hh q]; exact hR.holds c q, hR.known, hR.alone, hR.falls, hR.run, hR.single⟩

theorem Grips.unique (hR : Grips slot h r R) {e : ℕ} (hc : R c = some g) (he : R e = some g')
    (hq : g'.proc = g.proc) : e = c := by
  obtain ⟨u, hu⟩ := (hR.holds c g.proc).mp ⟨g, hc, rfl⟩
  obtain ⟨u', hu'⟩ := (hR.holds e g.proc).mp ⟨g', he, hq⟩
  rw [hu] at hu'
  exact (Prod.mk.inj (Option.some.inj hu')).1.symm

theorem Grips.ne_of_free (hR : Grips slot h r R) (hfree : h (.proc q) = none) {e : ℕ}
    (he : R e = some g) : g.proc ≠ q := by
  intro hq
  obtain ⟨u, hu⟩ := (hR.holds e q).mp ⟨g, he, hq⟩
  rw [hfree] at hu
  cases hu

/-- A process that runs while its lock is free is `RUNNING`. -/
theorem Grips.running_of_free (hR : Grips slot h r R) (hfree : h (.proc q) = none) (hc : r c = some q) :
    (slot q).state = .running :=
  hR.run c q hc fun _ hg => hR.ne_of_free hfree hg

/-- No CPU runs a process that is not `RUNNING` and that another one has a grip on. -/
theorem Grips.not_runs (hR : Grips slot h r R) (hc : R c = some g) (hme : r c ≠ some g.proc)
    (hstate : (slot g.proc).state ≠ .running) (e : ℕ) : r e ≠ some g.proc := by
  intro he
  refine hstate (hR.run e g.proc he fun g' hg' hq => hme ?_)
  rw [← hR.unique hc hg' hq]
  exact he

theorem Grips.take (hR : Grips slot h r R) (hfree : h (.proc q) = none) (hc : R c = none) (u : Use N)
    {K : Slot C → Prop} (hK : K (slot q)) :
    Grips slot (update h (.proc q) (some (c, u))) r
      (update R c (some ⟨q, K, false, none⟩)) := by
  constructor
  case holds =>
    intro e q'
    by_cases hq : q' = q
    · subst hq
      rw [update_self]
      by_cases he : e = c
      · subst he
        simp
      · have hne : c ≠ e := fun h => he h.symm
        have hno := hR.holds e q'
        rw [hfree] at hno
        simpa [he, hne] using hno
    · have hlock : Lock.proc q' ≠ Lock.proc q := fun h => hq (Lock.proc.inj h)
      rw [update_of_ne hlock, ← hR.holds e q']
      by_cases he : e = c
      · subst he
        have hne : q ≠ q' := fun h => hq h.symm
        simp [hc, hne]
      · simp [he]
  case known =>
    intro e g hg
    rcases update_eq_some hg with ⟨-, ⟨⟩⟩ | ⟨-, hg⟩
    · exact hK
    · exact hR.known e g hg
  case alone =>
    intro e g hg halone
    rcases update_eq_some hg with ⟨-, ⟨⟩⟩ | ⟨-, hg⟩
    · cases halone
    · exact hR.alone e g hg halone
  case falls =>
    intro e g hg hfalls
    rcases update_eq_some hg with ⟨-, ⟨⟩⟩ | ⟨-, hg⟩
    · exact absurd rfl hfalls
    · exact hR.falls e g hg hfalls
  case run =>
    intro e q' he hno
    refine hR.run e q' he fun g hg => ?_
    by_cases hec : e = c
    · rw [hec, hc] at hg
      cases hg
    · exact hno g (by rw [update_of_ne hec]; exact hg)
  case single => exact hR.single

theorem Grips.give (hR : Grips slot h r R) (hc : R c = some g)
    (hrun : r c = some g.proc → (slot g.proc).state = .running) :
    Grips slot (update h (.proc g.proc) none) r (update R c none) := by
  constructor
  case holds =>
    intro e q
    by_cases hq : q = g.proc
    · subst hq
      rw [update_self]
      by_cases he : e = c
      · subst he
        simp
      · simp only [update_of_ne he]
        constructor
        · rintro ⟨g', hg', hq'⟩
          exact absurd (hR.unique hc hg' hq') he
        · rintro ⟨u, hu⟩
          cases hu
    · have hlock : Lock.proc q ≠ Lock.proc g.proc := fun h => hq (Lock.proc.inj h)
      rw [update_of_ne hlock, ← hR.holds e q]
      by_cases he : e = c
      · subst he
        have hne : g.proc ≠ q := fun h => hq h.symm
        simp [hc, hne]
      · simp [he]
  case known => exact fun e g' hg' => hR.known e g' (update_none_eq_some hg').2
  case alone => exact fun e g' hg' => hR.alone e g' (update_none_eq_some hg').2
  case falls => exact fun e g' hg' => hR.falls e g' (update_none_eq_some hg').2
  case run =>
    intro e q he hno
    by_cases hec : e = c
    · subst hec
      by_cases hq : q = g.proc
      · subst hq
        exact hrun he
      · refine hR.run e q he fun g' hg' hq' => hq ?_
        rw [hc] at hg'
        rw [← hq', Option.some.inj hg']
    · refine hR.run e q he fun g' hg' => hno g' ?_
      rw [update_of_ne hec]
      exact hg'
  case single => exact hR.single

/-- The CPU that has the lock of a process changes its slot, begins or ceases to run it, and learns
or forgets something. -/
theorem Grips.change (hR : Grips slot h r R) (hc : R c = some g) (hproc : g'.proc = g.proc)
    {x : Slot C} {o : Option (Fin N)}
    (ho : ∀ q, o = some q → r c = some q ∨ q = g.proc ∧ ∀ e, r e ≠ some q)
    (hknown : g'.known x) (halone : g'.alone = true → ∀ e, update r c o e ≠ some g.proc)
    (hfalls : g'.falls ≠ none → o = some g.proc)
    (hrun : ∀ e, e ≠ c → r e = some g.proc → x.state = .running) :
    Grips (update slot g.proc x) h (update r c o) (update R c (some g')) := by
  have hother : ∀ e g₁, e ≠ c → R e = some g₁ → g₁.proc ≠ g.proc :=
    fun e g₁ he hg₁ hq => he (hR.unique hc hg₁ hq)
  constructor
  case holds =>
    intro e q
    rw [← hR.holds e q]
    by_cases he : e = c
    · subst he
      simp [hc, hproc]
    · simp [he]
  case known =>
    intro e g₁ hg₁
    rcases update_eq_some hg₁ with ⟨-, ⟨⟩⟩ | ⟨he, hg₁⟩
    · rw [hproc, update_self]
      exact hknown
    · rw [update_of_ne (hother e g₁ he hg₁)]
      exact hR.known e g₁ hg₁
  case alone =>
    intro e g₁ hg₁ ha f hf
    rcases update_eq_some hg₁ with ⟨-, ⟨⟩⟩ | ⟨he, hg₁⟩
    · exact halone ha f (hproc ▸ hf)
    · rcases update_eq_some hf with ⟨-, hf⟩ | ⟨-, hf⟩
      · rcases ho _ hf with hf | ⟨hq, -⟩
        · exact hR.alone e g₁ hg₁ ha c hf
        · exact hother e g₁ he hg₁ hq
      · exact hR.alone e g₁ hg₁ ha f hf
  case falls =>
    intro e g₁ hg₁ hf
    rcases update_eq_some hg₁ with ⟨rfl, ⟨⟩⟩ | ⟨he, hg₁⟩
    · rw [update_self, hproc]
      exact hfalls hf
    · rw [update_of_ne he]
      exact hR.falls e g₁ hg₁ hf
  case run =>
    intro e q he hno
    rcases update_eq_some he with ⟨rfl, hnew⟩ | ⟨hec, he⟩
    · have hq : q ≠ g.proc := fun hq => hno g' (update_self ..) (hproc.trans hq.symm)
      rw [update_of_ne hq]
      refine hR.run e q ((ho q hnew).resolve_right fun h => hq h.1) fun g₁ hg₁ hq₁ => hq ?_
      rw [hc] at hg₁
      rw [← hq₁, Option.some.inj hg₁]
    · by_cases hq : q = g.proc
      · subst hq
        rw [update_self]
        exact hrun e hec he
      · rw [update_of_ne hq]
        refine hR.run e q he fun g₁ hg₁ => hno g₁ ?_
        rw [update_of_ne hec]
        exact hg₁
  case single =>
    intro e f q he hf
    rcases update_eq_some he with ⟨hec, he⟩ | ⟨-, he⟩ <;>
      rcases update_eq_some hf with ⟨hfc, hf⟩ | ⟨-, hf⟩
    · rw [hec, hfc]
    · rcases ho q he with he | ⟨-, hnobody⟩
      · exact hec ▸ hR.single c f q he hf
      · exact absurd hf (hnobody f)
    · rcases ho q hf with hf | ⟨-, hnobody⟩
      · exact hfc ▸ hR.single e c q he hf
      · exact absurd he (hnobody e)
    · exact hR.single e f q he hf

/-- It changes the slot. -/
theorem Grips.set (hR : Grips slot h r R) (hc : R c = some g) (hproc : g'.proc = g.proc) {x : Slot C}
    (hknown : g'.known x) (halone : g'.alone = true → ∀ e, r e ≠ some g.proc)
    (hfalls : g'.falls ≠ none → r c = some g.proc)
    (hrun : ∀ e, e ≠ c → r e = some g.proc → x.state = .running) :
    Grips (update slot g.proc x) h r (update R c (some g')) := by
  have hchange := hR.change (o := r c) hc hproc (fun _ => Or.inl) hknown
    (by rwa [update_eq_self]) hfalls hrun
  rwa [update_eq_self] at hchange

theorem Grips.switchTo (hR : Grips slot h r R) (hc : R c = some g)
    (halone : g.alone = true) (hknown : g'.known (slot g.proc)) (hproc : g'.proc = g.proc)
    (halone' : g'.alone = false) :
    Grips slot h (update r c (some g.proc)) (update R c (some g')) := by
  have hnobody := hR.alone c g hc halone
  have hchange := hR.change (x := slot g.proc) (o := some g.proc) hc hproc
    (fun q hq => Or.inr ⟨(Option.some.inj hq).symm, Option.some.inj hq ▸ hnobody⟩) hknown
    (fun h => by simp [halone'] at h) (fun _ => rfl) fun e _ he => absurd he (hnobody e)
  rwa [update_eq_self] at hchange

theorem Grips.switchBack (hR : Grips slot h r R) (hc : R c = some g) (hcur : r c = some g.proc)
    (hknown : g'.known (slot g.proc)) (hproc : g'.proc = g.proc) (hfalls : g'.falls = none) :
    Grips slot h (update r c none) (update R c (some g')) := by
  have halone : ∀ e, e ≠ c → r e ≠ some g.proc :=
    fun e hec he => hec (hR.single e c g.proc he hcur)
  have hchange := hR.change (x := slot g.proc) (o := none) hc hproc (fun _ hq => by cases hq) hknown
    (fun _ e he => halone e (update_none_eq_some he).1 (update_none_eq_some he).2)
    (fun h => absurd hfalls h) fun e hec he => absurd he (halone e hec)
  rwa [update_eq_self] at hchange

/-- What a CPU does to its grip concerns no sleeper but the one it is about to make. -/
theorem Sleeper.of_update {o : Option (Grip N C)} {k : C} (hs : Sleeper slot (update R c o) q k) :
    Sleeper slot R q k ∨ ∃ g, o = some g ∧ g.proc = q ∧ g.falls = some k := by
  rcases hs with hs | ⟨e, g, hg, hq, hk⟩
  · exact Or.inl (Or.inl hs)
  · rcases update_eq_some hg with ⟨-, hg⟩ | ⟨-, hg⟩
    · exact Or.inr ⟨g, hg, hq, hk⟩
    · exact Or.inl (Or.inr ⟨e, g, hg, hq, hk⟩)

/-- The same, where the CPU also assigns to the slot. -/
theorem Sleeper.of_set {x : Slot C} {k : C} (hproc : g'.proc = g.proc)
    (hs : Sleeper (update slot g.proc x) (update R c (some g')) q k) :
    Sleeper slot R q k
      ∨ q = g.proc ∧ ((x.state = .sleeping ∧ x.chan = some k) ∨ g'.falls = some k) := by
  rcases Sleeper.of_update hs with (hs | hs) | ⟨g₁, hg₁, hq, hk⟩
  · by_cases hq : q = g.proc
    · subst hq
      rw [update_self] at hs
      exact Or.inr ⟨rfl, Or.inl hs⟩
    · rw [update_of_ne hq] at hs
      exact Or.inl (Or.inl hs)
  · exact Or.inl (Or.inr hs)
  · cases hg₁
    exact Or.inr ⟨hq.symm.trans hproc, Or.inr hk⟩

/-- A process is no sleeper if the CPU that has its lock knows that it is not. -/
theorem Grips.not_sleeper (hR : Grips slot h r R) (hc : R c = some g) (hfalls : g.falls = none) {k : C}
    (hslot : ¬ ((slot g.proc).state = .sleeping ∧ (slot g.proc).chan = some k)) :
    ¬ Sleeper slot R g.proc k := by
  rintro (hs | ⟨e, g₁, hg₁, hq, hk⟩)
  · exact hslot hs
  · obtain rfl := hR.unique hc hg₁ hq
    rw [hc] at hg₁
    rw [← Option.some.inj hg₁, hfalls] at hk
    cases hk

/-- A process that runs without its own lock is no sleeper. -/
theorem Grips.not_sleeper_of_run (hR : Grips slot h r R) (hc : r c = some q) (hgrip : R c = none) (k : C) :
    ¬ Sleeper slot R q k := by
  rintro (⟨hs, -⟩ | ⟨e, g, hg, rfl, hk⟩)
  · have hrun := hR.run c q hc fun g hg => by rw [hgrip] at hg; cases hg
    rw [hs] at hrun
    cases hrun
  · -- the process is about to sleep on the CPU that runs it
    have he := hR.single e c g.proc (hR.falls e g hg (by rw [hk]; exact Option.some_ne_none k)) hc
    rw [he, hgrip] at hg
    cases hg

end

end Xv6.Sleep
