/-
# No wakeup is lost

The outline for code that sleeps with the lock `lk`: a process that sleeps, or is about to, on a
channel whose condition is true is a debt of the CPU that has `lk`.  A process is about to
sleep from the moment at which it gives `lk` back in `sleep`; it has its own lock then, which
it hands to the scheduler, so a `wakeup` that comes meanwhile waits until the process is
`SLEEPING`.

The rules of this module say how `sched`, `yield`, `scheduler`, `sleep`, `wakeup`, `kill` and
`killed` turn views into views.
-/
import Xv6.SleepInv

namespace Xv6.Sleep

open Function LockLang

variable {N : ℕ} {C δ : Type}

/-- What a CPU knows: its charge with the lock `lk`, whether it has `tickslock` besides, and its grip on a
process. -/
structure View (N : ℕ) (C δ : Type) where
  charge : Option (Charge N C δ)
  ticks : Bool
  grip : Option (Grip N C)

/-- The number of locks. -/
def View.locks (v : View N C δ) : ℕ := v.charge.isSome.toNat + v.ticks.toNat + v.grip.isSome.toNat

/-- A view with a grip only. -/
def View.ofGrip (g : Grip N C) : View N C δ := { charge := none, ticks := false, grip := some g }

/-- Every process that sleeps on a true condition is somebody's debt. -/
structure Inv (lk : Guard) (cond : C → δ → Bool) (good : δ → Prop) (d : Table N C δ)
    (h : Holder (Use N) (Lock N)) (r : ℕ → Option (Fin N)) (w : ℕ → View N C δ) : Prop where
  guards : Guards lk good d.user h fun c => (w c).charge
  grips : Grips d.slot h r fun c => (w c).grip
  debt : ∀ q k, Sleeper d.slot (fun c => (w c).grip) q k → cond k d.user = true →
    ∃ c x, (w c).charge = some x ∧ x.debts k q

/-- The outline; a process goes on `RUNNING`, and a scheduler with a process that nobody runs. -/
def outline (lk : Guard) (cond : C → δ → Bool) (good : δ → Prop) (allow : Table N C δ → Use N → Prop) :
    Outline (Table N C δ) (Use N) (Lock N) (Fin N) (View N C δ) where
  allow := allow
  inv := Inv lk cond good
  locks := View.locks
  resume := fun p => .ofGrip ⟨p, fun x => x.state = .running, false, none⟩
  back := fun p v => v = .ofGrip ⟨p, fun _ => True, true, none⟩

section

variable {lk : Guard} {cond : C → δ → Bool} {good : δ → Prop} {d : Table N C δ}
  {h : Holder (Use N) (Lock N)} {r : ℕ → Option (Fin N)} {w : ℕ → View N C δ} {c : ℕ}

/-- With `lk` free, no condition is true that a process sleeps on. -/
theorem Inv.cond_false (hi : Inv lk cond good d h r w) (hfree : h (.guard lk) = none) {q : Fin N}
    {k : C} (hstate : (d.slot q).state = .sleeping) (hchan : (d.slot q).chan = some k) :
    cond k d.user = false := by
  by_contra hne
  obtain ⟨e, x, hx, -⟩ := hi.debt q k (Or.inl ⟨hstate, hchan⟩) (Bool.eq_true_of_not_eq_false hne)
  have hnone := hi.guards.eq_none hfree e
  simp only [hx] at hnone
  cases hnone

/-- One CPU changes its view: it keeps the debts of all that still sleep. -/
theorem Inv.step {d' : Table N C δ} {h' : Holder (Use N) (Lock N)} {r' : ℕ → Option (Fin N)}
    {v : View N C δ} (hi : Inv lk cond good d h r w)
    (hguards : Guards lk good d'.user h' (update (fun e => (w e).charge) c v.charge))
    (hgrips : Grips d'.slot h' r' (update (fun e => (w e).grip) c v.grip))
    (hdebt : ∀ q k, Sleeper d'.slot (update (fun e => (w e).grip) c v.grip) q k →
      cond k d'.user = true →
        (Sleeper d.slot (fun e => (w e).grip) q k ∧ cond k d.user = true
          ∧ ∀ x, (w c).charge = some x → x.debts k q → ∃ y, v.charge = some y ∧ y.debts k q)
        ∨ ∃ y, v.charge = some y ∧ y.debts k q) :
    Inv lk cond good d' h' r' (update w c v) := by
  refine ⟨?_, ?_, ?_⟩
  · rw [view_update View.charge]
    exact hguards
  · rw [view_update View.grip]
    exact hgrips
  · rw [view_update View.grip]
    intro q k hs hk
    rcases hdebt q k hs hk with ⟨hs', hk', hkeep⟩ | ⟨y, hy, hd⟩
    · obtain ⟨e, x, hx, hd⟩ := hi.debt q k hs' hk'
      by_cases he : e = c
      · subst he
        obtain ⟨y, hy, hd'⟩ := hkeep x hx hd
        exact ⟨e, y, by rw [update_self]; exact hy, hd'⟩
      · exact ⟨e, x, by rw [update_of_ne he]; exact hx, hd⟩
    · exact ⟨c, y, by rw [update_self]; exact hy, hd⟩

/-- One CPU changes its charge, and perhaps what the processes share. -/
theorem Inv.chargeStep {user : δ} {h' : Holder (Use N) (Lock N)} {v : View N C δ}
    (hi : Inv lk cond good d h r w) (hv : v.grip = (w c).grip)
    (hguards : Guards lk good user h' (update (fun e => (w e).charge) c v.charge))
    (hh : ∀ q, h' (.proc q) = h (.proc q))
    (hdebt : ∀ q k, Sleeper d.slot (fun e => (w e).grip) q k → cond k user = true →
      (cond k d.user = true
        ∧ ∀ x, (w c).charge = some x → x.debts k q → ∃ y, v.charge = some y ∧ y.debts k q)
      ∨ ∃ y, v.charge = some y ∧ y.debts k q) :
    Inv lk cond good { d with user := user } h' r (update w c v) := by
  have hsame : update (fun e => (w e).grip) c v.grip = fun e => (w e).grip := by
    rw [hv]
    exact update_eq_self c _
  refine hi.step hguards ?_ ?_
  · rw [hsame]
    exact hi.grips.congr hh
  · rw [hsame]
    intro q k hs hk
    rcases hdebt q k hs hk with ⟨hk', hkeep⟩ | hnew
    · exact Or.inl ⟨hs, hk', hkeep⟩
    · exact Or.inr hnew

/-- One CPU changes its grip, and perhaps the slot: it makes no new sleeper. -/
theorem Inv.gripStep (slot : Fin N → Slot C) {h' : Holder (Use N) (Lock N)} {r' : ℕ → Option (Fin N)}
    {v : View N C δ} (hi : Inv lk cond good d h r w) (hv : v.charge = (w c).charge)
    (hh : h' (.guard lk) = h (.guard lk))
    (hgrips : Grips slot h' r' (update (fun e => (w e).grip) c v.grip))
    (hsleeper : ∀ q k, Sleeper slot (update (fun e => (w e).grip) c v.grip) q k →
      Sleeper d.slot (fun e => (w e).grip) q k) :
    Inv lk cond good { d with slot := slot } h' r' (update w c v) := by
  have hsame : update (fun e => (w e).charge) c v.charge = fun e => (w e).charge := by
    rw [hv]
    exact update_eq_self c _
  refine hi.step ?_ hgrips ?_
  · rw [hsame]
    exact hi.guards.congr hh
  · intro q k hs hk
    refine Or.inl ⟨hsleeper q k hs, hk, fun x hx hd => ⟨x, ?_, hd⟩⟩
    rw [hv]
    exact hx

/-- One CPU learns or forgets something about a process. -/
theorem Inv.regrip {v : View N C δ} {g g' : Grip N C} (hi : Inv lk cond good d h r w)
    (hc : (w c).grip = some g) (hcharge : v.charge = (w c).charge) (hgrip : v.grip = some g')
    (hproc : g'.proc = g.proc) (hknown : g'.known (d.slot g.proc))
    (halone : g'.alone = true → ∀ e, r e ≠ some g.proc) (hfalls : g'.falls = g.falls) :
    Inv lk cond good d h r (update w c v) := by
  have hset := hi.grips.set (x := d.slot g.proc) hc hproc hknown halone
    (fun hf => hi.grips.falls c g hc (hfalls ▸ hf))
    fun e he hre => hi.grips.run e g.proc hre fun g₁ hg₁ hq₁ => he (hi.grips.unique hc hg₁ hq₁)
  rw [update_eq_self, ← hgrip] at hset
  refine hi.gripStep d.slot hcharge rfl hset ?_
  intro q k hs
  rcases hs.of_update with hs | ⟨g₁, hg₁, hq₁, hk⟩
  · exact hs
  · obtain rfl := Option.some.inj (hgrip.symm.trans hg₁)
    exact Or.inr ⟨c, g, hc, hproc.symm.trans hq₁, hfalls.symm.trans hk⟩

end

/-! ## Rules for single commands -/

section

variable {process : Fin N → Code N C δ} {trap : Option (Fin N) → Code N C δ} {lk : Guard}
  {cond : C → δ → Bool} {good : δ → Prop} {allow : Table N C δ → Use N → Prop} {me : Option (Fin N)}
  {v : View N C δ} {g g' : Grip N C} {x : Charge N C δ}

theorem turns_acquireGuard (site : Site) (hv : v.charge = none) :
    Turns (system process trap) (outline lk cond good allow) me (acquire site (.guard lk)) v
      { v with charge := some ⟨fun _ _ => False, good⟩ } := by
  refine fun Q B hq => ⟨trivial, fun d h r w c hat hfree _ => ?_⟩
  have hi : Inv lk cond good d h r w := hat.inv
  refine ⟨_, ?_, ?_, hq⟩
  · show View.locks _ = v.locks + 1
    simp only [View.locks, hv, Option.isSome_some, Option.isSome_none, Bool.toNat_true, Bool.toNat_false]
    omega
  · refine hi.chargeStep (by rw [hat.view]) (hi.guards.take hfree _ hi.guards.good) ?_ ?_
    · intro q
      exact update_of_ne (by simp [system]) _ _
    · -- nobody had a charge, so nobody sleeps on a true condition
      intro q k hs hk
      obtain ⟨e, y, hy, -⟩ := hi.debt q k hs hk
      have hnone := hi.guards.eq_none hfree e
      simp only [hy] at hnone
      cases hnone

/-- Without debts `lk` may be given back.  A process that has its own lock may be about to sleep then. -/
theorem turns_releaseGuard {falls : Option C} (hv : v.charge = some x)
    (hdebts : ∀ user, good user → x.known user → ∀ k q, cond k user = true → ¬ x.debts k q)
    (hfalls : ∀ k, falls = some k → ∀ g, v.grip = some g →
      me = some g.proc ∧ ∀ user, good user → x.known user → cond k user = false) :
    Turns (system process trap) (outline lk cond good allow) me (.release (.guard lk)) v
      { v with charge := none, grip := v.grip.map fun g => { g with falls := falls } } := by
  intro Q B hq
  have hlocks : v.locks = 1 + v.ticks.toNat + v.grip.isSome.toNat := by
    simp only [View.locks, hv, Option.isSome_some, Bool.toNat_true]
  refine ⟨show 0 < v.locks by omega, ?_⟩
  intro d h r w c hat
  have hi : Inv lk cond good d h r w := hat.inv
  have hx : (w c).charge = some x := by rw [hat.view, hv]
  refine ⟨_, ?_, ?_, hq⟩
  · show View.locks _ = v.locks - 1
    rw [hlocks]
    simp only [View.locks, Option.isSome_none, Bool.toNat_false, Option.isSome_map]
    omega
  · refine hi.step (hi.guards.give hx) ?_ ?_
    · have hgrips : Grips d.slot (update h (.guard lk) none) r fun e => (w e).grip :=
        hi.grips.congr fun q => update_of_ne (by simp) _ _
      cases hg : v.grip with
      | none =>
        have hc : (w c).grip = none := by rw [hat.view, hg]
        rw [Option.map_none, ← hc]
        simpa only [update_eq_self] using hgrips
      | some g =>
        have hc : (w c).grip = some g := by rw [hat.view, hg]
        have hslot : update d.slot g.proc (d.slot g.proc) = d.slot := update_eq_self _ _
        rw [Option.map_some, ← hslot]
        have hproc : Grip.proc { g with falls := falls } = g.proc := rfl
        refine hgrips.set hc hproc (hgrips.known c g hc) (hgrips.alone c g hc) ?_ ?_
        · intro hne
          obtain ⟨k, hk⟩ := Option.ne_none_iff_exists'.mp hne
          rw [hat.cur]
          exact (hfalls k hk g hg).1
        · intro e he hrun
          exact hgrips.run e g.proc hrun fun g₁ hg₁ hq₁ => he (hgrips.unique hc hg₁ hq₁)
    · intro q k hs hk
      rcases hs.of_update with hs | ⟨g₁, hg₁, -, hk₁⟩
      · -- a debt of nobody
        obtain ⟨e, y, hy, hd⟩ := hi.debt q k hs hk
        rw [hi.guards.unique hx hy, hx] at hy
        exact absurd (Option.some.inj hy ▸ hd)
          (hdebts d.user hi.guards.good (hi.guards.known c x hx) k q hk)
      · obtain ⟨g, hg, rfl⟩ := Option.map_eq_some_iff.mp hg₁
        have hfalse := (hfalls k hk₁ g hg).2 d.user hi.guards.good (hi.guards.known c x hx)
        exact absurd hk (by rw [hfalse]; exact Bool.false_ne_true)

/-- A CPU that has `tickslock`, which may be the lock that processes sleep with. -/
def View.withTicks (lk : Guard) (good : δ → Prop) (v : View N C δ) : View N C δ :=
  if lk = .tickslock then { v with charge := some ⟨fun _ _ => False, good⟩ } else { v with ticks := true }

theorem turns_acquireTicks (site : Site) (hv : v.charge = none) (ht : v.ticks = false) :
    Turns (system process trap) (outline lk cond good allow) me (acquire site (.guard .tickslock)) v
      (v.withTicks lk good) := by
  by_cases hlk : lk = .tickslock
  · subst hlk
    exact turns_acquireGuard site hv
  · refine fun Q B hq => ⟨trivial, fun d h r w c hat _ _ => ?_⟩
    have hi : Inv lk cond good d h r w := hat.inv
    have hother : Lock.guard (N := N) lk ≠ .guard .tickslock := fun h => hlk (Lock.guard.inj h)
    rw [View.withTicks, if_neg hlk] at hq
    refine ⟨_, ?_, ?_, hq⟩
    · show View.locks _ = v.locks + 1
      simp only [View.locks, ht, Bool.toNat_true, Bool.toNat_false]
      omega
    · refine hi.chargeStep (by rw [hat.view]) ?_ ?_ ?_
      · show Guards lk good d.user _ (update _ c v.charge)
        rw [← hat.view, update_eq_self]
        exact hi.guards.congr (update_of_ne hother _ _)
      · intro q
        exact update_of_ne (by simp [system]) _ _
      · intro q k _ hk
        exact Or.inl ⟨hk, fun y hy hd => ⟨y, by rw [← hy, hat.view], hd⟩⟩

theorem turns_releaseTicks (hv : v.charge = none) (ht : v.ticks = false)
    (hfalls : ∀ g, v.grip = some g → g.falls = none) :
    Turns (system process trap) (outline lk cond good allow) me (.release (.guard .tickslock))
      (v.withTicks lk good) v := by
  by_cases hlk : lk = .tickslock
  · subst hlk
    have hback : { v.withTicks .tickslock good with
        charge := none, grip := (v.withTicks .tickslock good).grip.map fun g => { g with falls := none } }
          = v := by
      obtain ⟨charge, ticks, grip⟩ := v
      subst hv
      cases grip with
      | none => rfl
      | some g =>
        obtain ⟨proc, known, alone, falls⟩ := g
        have hnone : falls = none := hfalls _ rfl
        subst hnone
        rfl
    have hrelease : Turns (system process trap) (outline .tickslock cond good allow) me
        (.release (.guard .tickslock)) (v.withTicks .tickslock good) _ :=
      turns_releaseGuard rfl (fun _ _ _ _ _ _ h => h) fun k (hk : none = some k) => by cases hk
    rw [hback] at hrelease
    exact hrelease
  · intro Q B hq
    have hother : Lock.guard (N := N) lk ≠ .guard .tickslock := fun h => hlk (Lock.guard.inj h)
    have hlocks : (v.withTicks lk good).locks = v.locks + 1 := by
      simp only [View.withTicks, if_neg hlk, View.locks, ht, Bool.toNat_true, Bool.toNat_false]
      omega
    refine ⟨show 0 < (v.withTicks lk good).locks by omega, ?_⟩
    intro d h r w c hat
    have hi : Inv lk cond good d h r w := hat.inv
    have hcharge : v.charge = (w c).charge := by rw [hat.view, View.withTicks, if_neg hlk]
    refine ⟨v, ?_, ?_, hq⟩
    · show v.locks = (v.withTicks lk good).locks - 1
      omega
    · refine hi.chargeStep (by rw [hat.view, View.withTicks, if_neg hlk]) ?_ ?_ ?_
      · rw [hcharge, update_eq_self]
        exact hi.guards.congr (update_of_ne hother _ _)
      · intro q
        exact update_of_ne (by simp) _ _
      · intro q k _ hk
        exact Or.inl ⟨hk, fun y hy hd => ⟨y, by rw [hcharge, hy], hd⟩⟩

/-- What is known about a process when its lock is taken. -/
theorem turns_acquireProc (site : Site) (q : Fin N) {K : Slot C → Prop} (hv : v.grip = none)
    (hK : ∀ d : Table N C δ, allow d ⟨.proc q, site⟩ → (∀ x, v.charge = some x → x.known d.user) →
      (me = some q → (d.slot q).state = .running) → K (d.slot q)) :
    Turns (system process trap) (outline lk cond good allow) me (acquire site (.proc q)) v
      { v with grip := some ⟨q, K, false, none⟩ } := by
  refine fun Q B hq => ⟨trivial, fun d h r w c hat hfree hallow => ?_⟩
  have hi : Inv lk cond good d h r w := hat.inv
  have hKd : K (d.slot q) := by
    refine hK d hallow (fun x hx => hi.guards.known c x (by rw [hat.view, hx])) fun hme => ?_
    exact hi.grips.running_of_free hfree (hat.cur.trans hme)
  refine ⟨_, ?_, ?_, hq⟩
  · show View.locks _ = v.locks + 1
    simp only [View.locks, hv, Option.isSome_some, Option.isSome_none, Bool.toNat_true, Bool.toNat_false]
  · refine hi.gripStep d.slot (by rw [hat.view]) ?_ (hi.grips.take hfree ?_ _ hKd) ?_
    · exact update_of_ne (by simp [system]) _ _
    · show (w c).grip = none
      rw [hat.view, hv]
    · intro q' k hs
      rcases hs.of_update with hs | ⟨g₁, hg₁, -, hk⟩
      · exact hs
      · rw [← Option.some.inj hg₁] at hk
        cases hk

/-- An assignment to the slot of a process whose lock the CPU has.  It makes nobody sleep, and it does not
stop a process that another CPU runs. -/
theorem turns_setSlot {f : Slot C → Slot C} (hv : v.grip = some g) (hproc : g'.proc = g.proc)
    (hknown : ∀ x, g.known x → g'.known (f x)) (halone : g'.alone = true → g.alone = true)
    (hfalls : ∀ k, g'.falls = some k → g.falls = some k)
    (hsleeper : ∀ x k, g.known x → (f x).state = .sleeping → (f x).chan = some k →
      (x.state = .sleeping ∧ x.chan = some k) ∨ g.falls = some k)
    (hrun : me = some g.proc ∨ g.alone = true ∨ (∀ x, g.known x → x.state ≠ .running)
      ∨ ∀ x, (f x).state = x.state) :
    Turns (system process trap) (outline lk cond good allow) me (setSlot g.proc f) v
      { v with grip := some g' } := by
  intro Q B hq d h r w c hat
  have hi : Inv lk cond good d h r w := hat.inv
  have hc : (w c).grip = some g := by rw [hat.view, hv]
  have hk := hi.grips.known c g hc
  refine ⟨_, ?_, ?_, hq⟩
  · show View.locks _ = v.locks
    simp only [View.locks, hv, Option.isSome_some]
  · refine hi.gripStep _ (by rw [hat.view]) rfl ?_ ?_
    · refine hi.grips.set hc hproc (hknown _ hk) ?_ ?_ ?_
      · exact fun ha => hi.grips.alone c g hc (halone ha)
      · intro hne
        obtain ⟨k, hk'⟩ := Option.ne_none_iff_exists'.mp hne
        exact hi.grips.falls c g hc (by rw [hfalls k hk']; exact Option.some_ne_none k)
      · intro e he hre
        rcases hrun with hme | ha | hstate | hsame
        · exact absurd (hi.grips.single e c g.proc hre (hat.cur.trans hme)) he
        · exact absurd hre (hi.grips.alone c g hc ha e)
        · exact absurd (hi.grips.run e g.proc hre fun g₁ hg₁ hq₁ => he (hi.grips.unique hc hg₁ hq₁))
            (hstate _ hk)
        · rw [hsame]
          exact hi.grips.run e g.proc hre fun g₁ hg₁ hq₁ => he (hi.grips.unique hc hg₁ hq₁)
    · intro q k hs
      rcases Sleeper.of_set hproc hs with hs | ⟨rfl, ⟨hst, hch⟩ | hf⟩
      · exact hs
      · rcases hsleeper _ k hk hst hch with hold | hf
        · exact Or.inl hold
        · exact Or.inr ⟨c, g, hc, rfl, hf⟩
      · exact Or.inr ⟨c, g, hc, rfl, hfalls k hf⟩

/-- An assignment to what the processes share, which may read the slot of the process whose lock the CPU
has: the sleepers on conditions that become true are new debts. -/
theorem know_assign {f : Table N C δ → δ} {Q B : View N C δ → Prop} (hv : v.charge = some x)
    (hf : ∀ d, (∀ g, v.grip = some g → g.known (d.slot g.proc)) → good d.user → x.known d.user →
      good (f d) ∧ ∃ y : Charge N C δ, y.known (f d) ∧ Q { v with charge := some y }
        ∧ ∀ k q, cond k (f d) = true →
          (cond k d.user = true → x.debts k q → y.debts k q) ∧ (cond k d.user = false → y.debts k q)) :
    know (system process trap) (outline lk cond good allow) me
      (.act fun t => { t with user := f t }) Q B v := by
  intro d h r w c hat
  have hi : Inv lk cond good d h r w := hat.inv
  have hx : (w c).charge = some x := by rw [hat.view, hv]
  obtain ⟨hgood, y, hknown, hq, hdebt⟩ := hf d (fun g hg => hi.grips.known c g (by rw [hat.view, hg]))
    hi.guards.good (hi.guards.known c x hx)
  refine ⟨_, ?_, ?_, hq⟩
  · show View.locks _ = v.locks
    simp only [View.locks, hv, Option.isSome_some]
  · refine hi.chargeStep (by rw [hat.view]) (hi.guards.set hx hgood hknown) (fun q => rfl) ?_
    intro q k _ hk
    cases hk' : cond k d.user with
    | true =>
      refine Or.inl ⟨rfl, fun x₁ hx₁ hd => ⟨y, rfl, (hdebt k q hk).1 hk' ?_⟩⟩
      rw [hx] at hx₁
      exact Option.some.inj hx₁ ▸ hd
    | false => exact Or.inr ⟨y, rfl, (hdebt k q hk).2 hk'⟩

/-- The debts that are left when a `wakeup` of `k` has yet to look at the processes of a list. -/
def View.owes (v : View N C δ) (k : C) (l : List (Fin N)) : View N C δ :=
  { v with charge := v.charge.map fun x => { x with debts := fun k' q => x.debts k' q ∧ (k' = k → q ∈ l) } }

/-- A `wakeup` may pass a process that does not sleep on its channel. -/
theorem owes_tail {l : List (Fin N)} {k k' : C} {p q : Fin N} (hv : v.charge = some x)
    (hd : x.debts k' q ∧ (k' = k → q ∈ p :: l)) (hne : ¬ (q = p ∧ k' = k)) :
    ∃ y, (v.owes k l).charge = some y ∧ y.debts k' q := by
  refine ⟨{ x with debts := fun k' q => x.debts k' q ∧ (k' = k → q ∈ l) }, ?_, hd.1, fun hk => ?_⟩
  · simp only [View.owes, hv, Option.map_some]
  · rcases List.mem_cons.mp (hd.2 hk) with hq | hq
    · exact absurd ⟨hq, hk⟩ hne
    · exact hq

/-- The lock of a process is given back. -/
theorem turns_releaseProc (hv : v.grip = some g)
    (hrun : me = some g.proc → ∀ x, g.known x → x.state = .running) :
    Turns (system process trap) (outline lk cond good allow) me (.release (.proc g.proc)) v
      { v with grip := none } := by
  intro Q B hq
  have hlocks : v.locks = v.charge.isSome.toNat + v.ticks.toNat + 1 := by
    simp only [View.locks, hv, Option.isSome_some, Bool.toNat_true]
  refine ⟨show 0 < v.locks by omega, ?_⟩
  intro d h r w c hat
  have hi : Inv lk cond good d h r w := hat.inv
  have hc : (w c).grip = some g := by rw [hat.view, hv]
  refine ⟨_, ?_, ?_, hq⟩
  · show View.locks _ = v.locks - 1
    rw [hlocks]
    simp only [View.locks, Option.isSome_none, Bool.toNat_false]
    omega
  · refine hi.gripStep d.slot (by rw [hat.view]) ?_ (hi.grips.give hc ?_) ?_
    · exact update_of_ne (by simp) _ _
    · intro hcur
      exact hrun (hat.cur.symm.trans hcur) _ (hi.grips.known c g hc)
    · intro q k hs
      rcases hs.of_update with hs | ⟨g₁, hg₁, -⟩
      · exact hs
      · cases hg₁

/-- Debts may be dropped, as far as `lk` is concerned. -/
theorem guards_owes {G : ℕ → Option (Charge N C δ)} {user : δ} {h : Holder (Use N) (Lock N)} {c : ℕ} {k : C}
    {l l' : List (Fin N)} (hG : Guards lk good user h G) (hc : G c = (v.owes k l).charge) :
    Guards lk good user h (update G c (v.owes k l').charge) := by
  cases hx : v.charge with
  | none =>
    have hsame : G c = (v.owes k l').charge := by
      rw [hc]
      simp only [View.owes, hx, Option.map_none]
    rw [← hsame, update_eq_self]
    exact hG
  | some x =>
    have hsome : G c = some { x with debts := fun k' q => x.debts k' q ∧ (k' = k → q ∈ l) } := by
      rw [hc]
      simp only [View.owes, hx, Option.map_some]
    have hknown := hG.known c _ hsome
    simp only [View.owes, hx, Option.map_some]
    exact hG.set hsome hG.good hknown

/-- The lock of a process is given back, which `wakeup` has looked at. -/
theorem turns_releaseWoken {k : C} {l : List (Fin N)} (hv : v.grip = none)
    (hknown : ∀ x, g.known x → ¬ (x.state = .sleeping ∧ x.chan = some k)) (hfalls : g.falls = none)
    (hme : me ≠ some g.proc) :
    Turns (system process trap) (outline lk cond good allow) me (.release (.proc g.proc))
      { v.owes k (g.proc :: l) with grip := some g } (v.owes k l) := by
  intro Q B hq
  have hlocks : View.locks { v.owes k (g.proc :: l) with grip := some g } = (v.owes k l).locks + 1 := by
    simp only [View.locks, View.owes, hv, Option.isSome_map, Option.isSome_some, Option.isSome_none,
      Bool.toNat_true, Bool.toNat_false]
  refine ⟨show 0 < View.locks _ by rw [hlocks]; omega, ?_⟩
  intro d h r w c hat
  have hi : Inv lk cond good d h r w := hat.inv
  have hc : (w c).grip = some g := by rw [hat.view]
  refine ⟨v.owes k l, ?_, ?_, hq⟩
  · show (v.owes k l).locks = View.locks _ - 1
    rw [hlocks]
    omega
  · refine hi.step ?_ ?_ ?_
    · refine guards_owes (l := g.proc :: l) (hi.guards.congr (update_of_ne (by simp) _ _)) ?_
      show (w c).charge = (v.owes k (g.proc :: l)).charge
      rw [hat.view]
    · have hgive := hi.grips.give hc fun hcur => absurd (hat.cur.symm.trans hcur) hme
      show Grips _ _ _ (update _ c v.grip)
      rw [hv]
      exact hgive
    · intro q k' hs hk
      have hs' : Sleeper d.slot (fun e => (w e).grip) q k' := by
        rcases hs.of_update with hs | ⟨g₁, hg₁, -⟩
        · exact hs
        · change v.grip = some g₁ at hg₁
          rw [hv] at hg₁
          cases hg₁
      refine Or.inl ⟨hs', hk, fun x hx hd => ?_⟩
      rw [hat.view] at hx
      obtain ⟨x₀, hx₀, rfl⟩ := Option.map_eq_some_iff.mp hx
      refine owes_tail hx₀ hd ?_
      rintro ⟨rfl, rfl⟩
      exact hi.grips.not_sleeper hc hfalls (hknown _ (hi.grips.known c g hc)) hs'

/-- `wakeup` passes the process that calls it. -/
theorem turns_skipWoken {k : C} {l : List (Fin N)} {p : Fin N} (hv : v.grip = none) (hme : me = some p) :
    Turns (system process trap) (outline lk cond good allow) me .skip (v.owes k (p :: l)) (v.owes k l) := by
  intro Q B hq d h r w c hat
  have hi : Inv lk cond good d h r w := hat.inv
  have hc : (w c).grip = none := by
    rw [hat.view]
    exact hv
  refine ⟨v.owes k l, ?_, ?_, hq⟩
  · show View.locks _ = View.locks _
    simp only [View.locks, View.owes, Option.isSome_map]
  · refine hi.chargeStep (by rw [hat.view]; rfl) ?_ (fun q => rfl) ?_
    · refine guards_owes (l := p :: l) hi.guards ?_
      show (w c).charge = (v.owes k (p :: l)).charge
      rw [hat.view]
    · intro q k' hs hk
      refine Or.inl ⟨hk, fun x hx hd => ?_⟩
      rw [hat.view] at hx
      obtain ⟨x₀, hx₀, rfl⟩ := Option.map_eq_some_iff.mp hx
      refine owes_tail hx₀ hd ?_
      rintro ⟨rfl, rfl⟩
      exact hi.grips.not_sleeper_of_run (hat.cur.trans hme) hc k' hs

/-- A CPU may forget what it knows about a process. -/
theorem turns_skipGrip (hv : v.grip = some g) (hproc : g'.proc = g.proc)
    (hknown : ∀ x, g.known x → g'.known x) (halone : g'.alone = true → g.alone = true)
    (hfalls : g'.falls = g.falls) :
    Turns (system process trap) (outline lk cond good allow) me .skip v { v with grip := some g' } := by
  intro Q B hq d h r w c hat
  have hi : Inv lk cond good d h r w := hat.inv
  have hc : (w c).grip = some g := by rw [hat.view, hv]
  refine ⟨_, ?_, ?_, hq⟩
  · show View.locks _ = v.locks
    simp only [View.locks, hv, Option.isSome_some]
  · exact hi.regrip hc (by rw [hat.view]) rfl hproc (hknown _ (hi.grips.known c g hc))
      (fun ha => hi.grips.alone c g hc (halone ha)) hfalls

/-- A test of the slot of a process whose lock the CPU has.  A process that another CPU finds not to be
`RUNNING` is run by nobody. -/
theorem know_ifSlot {t : Slot C → Bool} {a b : Code N C δ} {Q B : View N C δ → Prop} (alone : Bool)
    (hv : v.grip = some g)
    (halone : alone = true → g.alone = true
      ∨ me ≠ some g.proc ∧ ∀ x, g.known x → t x = true → x.state ≠ .running)
    (ha : know (system process trap) (outline lk cond good allow) me a Q B
      { v with grip := some ⟨g.proc, fun x => g.known x ∧ t x = true, alone, g.falls⟩ })
    (hb : know (system process trap) (outline lk cond good allow) me b Q B
      { v with grip := some ⟨g.proc, fun x => g.known x ∧ t x = false, g.alone, g.falls⟩ }) :
    know (system process trap) (outline lk cond good allow) me (ifSlot g.proc t a b) Q B v := by
  intro d h r w c hat
  have hi : Inv lk cond good d h r w := hat.inv
  have hc : (w c).grip = some g := by rw [hat.view, hv]
  have hk := hi.grips.known c g hc
  -- learning the outcome of the test changes the grip and nothing else
  have hlearn : ∀ (K : Slot C → Prop) (al : Bool), K (d.slot g.proc) →
      (al = true → ∀ e, r e ≠ some g.proc) →
      Inv lk cond good d h r (update w c { v with grip := some ⟨g.proc, K, al, g.falls⟩ }) := by
    intro K al hK hal
    exact hi.regrip hc (by rw [hat.view]) rfl rfl hK hal rfl
  have hlocks : ∀ g₁ : Grip N C, View.locks { v with grip := some g₁ } = v.locks := by
    intro g₁
    simp only [View.locks, hv, Option.isSome_some]
  cases ht : t (d.slot g.proc) with
  | true =>
    refine ⟨_, hlocks _, hlearn _ alone ⟨hk, ht⟩ ?_, fun _ => ha, fun hf => ?_⟩
    · intro hal
      rcases halone hal with hal | ⟨hme, hstate⟩
      · exact hi.grips.alone c g hc hal
      · exact hi.grips.not_runs hc (fun hcur => hme (hat.cur.symm.trans hcur)) (hstate _ hk ht)
    · cases ht.symm.trans hf
  | false =>
    refine ⟨_, hlocks _, hlearn _ g.alone ⟨hk, ht⟩ (hi.grips.alone c g hc), fun hf => ?_, fun _ => hb⟩
    cases ht.symm.trans hf

/-- A test of what the processes share. -/
theorem know_ifUser {t : δ → Bool} {a b : Code N C δ} {Q B : View N C δ → Prop} (hv : v.charge = some x)
    (ha : know (system process trap) (outline lk cond good allow) me a Q B
      { v with charge := some { x with known := fun user => x.known user ∧ t user = true } })
    (hb : know (system process trap) (outline lk cond good allow) me b Q B
      { v with charge := some { x with known := fun user => x.known user ∧ t user = false } }) :
    know (system process trap) (outline lk cond good allow) me (ifUser t a b) Q B v := by
  intro d h r w c hat
  have hi : Inv lk cond good d h r w := hat.inv
  have hx : (w c).charge = some x := by rw [hat.view, hv]
  have hlearn : ∀ K : δ → Prop, K d.user →
      Inv lk cond good d h r (update w c { v with charge := some { x with known := K } }) := by
    intro K hK
    refine hi.chargeStep (by rw [hat.view]) (hi.guards.set hx hi.guards.good hK) (fun q => rfl) ?_
    intro q k _ hk
    refine Or.inl ⟨hk, fun y hy hd => ⟨_, rfl, ?_⟩⟩
    rw [hx] at hy
    exact Option.some.inj hy ▸ hd
  have hlocks : ∀ y : Charge N C δ, View.locks { v with charge := some y } = v.locks := by
    intro y
    simp only [View.locks, hv, Option.isSome_some]
  have hk := hi.guards.known c x hx
  cases ht : t d.user with
  | true =>
    refine ⟨_, hlocks _, hlearn _ ⟨hk, ht⟩, fun _ => ha, fun hf => ?_⟩
    cases ht.symm.trans hf
  | false =>
    refine ⟨_, hlocks _, hlearn _ ⟨hk, ht⟩, fun hf => ?_, fun _ => hb⟩
    cases ht.symm.trans hf

/-- The scheduler switches to a process that nobody runs, and gets it back with that. -/
theorem turns_swtchTo (hme : me = none) (halone : g.alone = true)
    (hknown : ∀ x, g.known x → x.state = .running) :
    Turns (system process trap) (outline lk cond good allow) me (.swtchTo g.proc) (.ofGrip g)
      (.ofGrip ⟨g.proc, fun _ => True, true, none⟩) := by
  intro Q B hq
  refine ⟨hme, rfl, fun v hv => hv ▸ hq, ?_⟩
  intro d h r w c hat
  have hi : Inv lk cond good d h r w := hat.inv
  have hc : (w c).grip = some g := by rw [hat.view]; rfl
  refine hi.gripStep d.slot (by rw [hat.view]; rfl) rfl ?_ ?_
  · exact hi.grips.switchTo hc halone (hknown _ (hi.grips.known c g hc)) rfl rfl
  · intro q k hs
    rcases hs.of_update with hs | ⟨g₁, hg₁, -, hk⟩
    · exact hs
    · cases hg₁
      cases hk

/-- A process switches to the scheduler, asleep if it was about to, and goes on `RUNNING`. -/
theorem turns_swtchBack (hme : me = some g.proc) :
    Turns (system process trap) (outline lk cond good allow) me (.swtchBack g.proc) (.ofGrip g)
      (.ofGrip ⟨g.proc, fun x => x.state = .running, false, none⟩) := by
  intro Q B hq
  refine ⟨hme, hq, _, rfl, rfl, ?_⟩
  intro d h r w c hat
  have hi : Inv lk cond good d h r w := hat.inv
  have hc : (w c).grip = some g := by rw [hat.view]; rfl
  refine hi.gripStep d.slot (by rw [hat.view]; rfl) rfl ?_ ?_
  · exact hi.grips.switchBack hc (hat.cur.trans hme) trivial rfl rfl
  · intro q k hs
    rcases hs.of_update with hs | ⟨g₁, hg₁, -, hk⟩
    · exact hs
    · cases hg₁
      cases hk

end

end Xv6.Sleep
