/-
# What a thread knows while it has locks

A logic for the programs of `LockLang` whose data is shared.  Each CPU has a *view*: what the code
that runs on it knows, because it has the locks that protect it.  An `Outline` ties
the views of all CPUs to the data and the locks.  `know` computes which views a
command may start with, such that each of its steps keeps the outline, whatever the
other CPUs do; and `Agree` carries this over all interleavings and over the switches between
a scheduler and a process.

The simplest views are the uses that a CPU has (`ordered`): they are enough to show that every lock
is taken under uses in which it may be nested.
-/
import Xv6.LockLang
import Mathlib.Data.List.Nodup

namespace LockLang

variable {σ U L P V : Type}

/-- Who has which lock. -/
abbrev Holder (U L : Type) := L → Option (ℕ × U)

/-- How views fit the data: the uses that are allowed at some data, those that a view may wait for,
the invariant of data, locks, running processes and views, the number of locks of a view, and the
views with which a process and a scheduler go on after a switch. -/
structure Outline (σ U L P V : Type) where
  allow : σ → U → Prop
  may : V → U → Prop := fun _ _ => True
  inv : σ → Holder U L → (ℕ → Option P) → (ℕ → V) → Prop
  locks : V → ℕ
  resume : P → V
  back : P → V → Prop

/-- The CPU `c` runs `me` with the view `v`. -/
structure Outline.At (O : Outline σ U L P V) (me : Option P) (v : V) (d : σ) (h : Holder U L)
    (r : ℕ → Option P) (w : ℕ → V) (c : ℕ) : Prop where
  inv : O.inv d h r w
  view : w c = v
  cur : r c = me

/-- The CPU `c` may go on with a view that has `n` locks and meets `Q`. -/
def Outline.Goes (O : Outline σ U L P V) (n : ℕ) (d : σ) (h : Holder U L) (r : ℕ → Option P)
    (w : ℕ → V) (c : ℕ) (Q : V → Prop) : Prop :=
  ∃ v, O.locks v = n ∧ O.inv d h r (Function.update w c v) ∧ Q v

theorem Outline.Goes.mono {O : Outline σ U L P V} {n : ℕ} {d : σ} {h : Holder U L} {r : ℕ → Option P}
    {w : ℕ → V} {c : ℕ} {Q Q' : V → Prop} (hgo : O.Goes n d h r w c Q) (hQ : ∀ v, Q v → Q' v) :
    O.Goes n d h r w c Q' := by
  obtain ⟨v, hn, hinv, hq⟩ := hgo
  exact ⟨v, hn, hinv, hQ v hq⟩

theorem Outline.At.stay {O : Outline σ U L P V} {me : Option P} {v : V} {d : σ} {h : Holder U L}
    {r : ℕ → Option P} {w : ℕ → V} {c : ℕ} (hat : O.At me v d h r w c) {Q : V → Prop} (hq : Q v) :
    O.Goes (O.locks v) d h r w c Q := by
  refine ⟨v, rfl, ?_, hq⟩
  rw [← hat.view, Function.update_eq_self]
  exact hat.inv

/-! ## The logic -/

section

variable [DecidableEq L]

/-- The views with which the thread `me` may start a command, such that it ends with `Q`, or with
`B` where it leaves a loop. -/
def know (S : System σ U L P) (O : Outline σ U L P V) (me : Option P) :
    Cmd σ U L P → (V → Prop) → (V → Prop) → V → Prop
  | .skip, Q, _, v => ∀ d h r w c, O.At me v d h r w c → O.Goes (O.locks v) d h r w c Q
  | .spawn _, Q, _, v => Q v
  | .panic _, _, _, _ => True
  | .act f, Q, _, v => ∀ d h r w c, O.At me v d h r w c → O.Goes (O.locks v) (f d) h r w c Q
  | .acquire u, Q, _, v => O.may v u ∧ ∀ d h r w c, O.At me v d h r w c → h (S.lockOf u) = none →
      O.allow d u → O.Goes (O.locks v + 1) d (Function.update h (S.lockOf u) (some (c, u))) r w c Q
  | .release l, Q, _, v => 0 < O.locks v ∧ ∀ d h r w c, O.At me v d h r w c →
      O.Goes (O.locks v - 1) d (Function.update h l none) r w c Q
  | .seq a b, Q, B, v => know S O me a (know S O me b Q B) B v
  | .ite t a b, Q, B, v => ∀ d h r w c, O.At me v d h r w c →
      O.Goes (O.locks v) d h r w c fun v' =>
        (t c d = true → know S O me a Q B v') ∧ (t c d = false → know S O me b Q B v')
  | .any f, Q, B, v => ∀ n, know S O me (f n) Q B v
  | .loop a, Q, _, v => ∃ I : V → Prop, I v ∧ ∀ v', I v' → know S O me a I Q v'
  | .brk, _, B, v => B v
  | .swtchTo p, Q, _, v => me = none ∧ O.locks v = O.locks (O.resume p) ∧ (∀ v', O.back p v' → Q v')
      ∧ ∀ d h r w c, O.At me v d h r w c →
        O.inv d h (Function.update r c (some p)) (Function.update w c (O.resume p))
  | .swtchBack p, Q, _, v => me = some p ∧ Q (O.resume p)
      ∧ ∃ v', O.back p v' ∧ O.locks v = O.locks v' ∧ ∀ d h r w c, O.At me v d h r w c →
        O.inv d h (Function.update r c none) (Function.update w c v')

variable {S : System σ U L P} {O : Outline σ U L P V} {me : Option P}

/-- The rule of consequence. -/
theorem know_mono {a : Cmd σ U L P} {Q Q' B B' : V → Prop} {v : V} (h : know S O me a Q B v)
    (hQ : ∀ v, Q v → Q' v) (hB : ∀ v, B v → B' v) : know S O me a Q' B' v := by
  induction a generalizing Q Q' B B' v with
  | skip => exact fun d h' r w c hat => (h d h' r w c hat).mono hQ
  | spawn p => exact hQ v h
  | panic msg => trivial
  | act f => exact fun d h' r w c hat => (h d h' r w c hat).mono hQ
  | acquire u =>
    exact ⟨h.1, fun d h' r w c hat hfree hallow => (h.2 d h' r w c hat hfree hallow).mono hQ⟩
  | release l => exact ⟨h.1, fun d h' r w c hat => (h.2 d h' r w c hat).mono hQ⟩
  | seq a b iha ihb => exact iha h (fun v' h' => ihb h' hQ hB) hB
  | ite t a b iha ihb =>
    intro d h' r w c hat
    refine (h d h' r w c hat).mono ?_
    intro v' hv'
    exact ⟨fun ht => iha (hv'.1 ht) hQ hB, fun ht => ihb (hv'.2 ht) hQ hB⟩
  | any f ih => exact fun n => ih n (h n) hQ hB
  | loop a ih =>
    obtain ⟨I, hI, hbody⟩ := h
    exact ⟨I, hI, fun v' h' => ih (hbody v' h') (fun _ hi => hi) hQ⟩
  | brk => exact hB v h
  | swtchTo p => exact ⟨h.1, h.2.1, fun v' hv' => hQ v' (h.2.2.1 v' hv'), h.2.2.2⟩
  | swtchBack p => exact ⟨h.1, hQ _ h.2.1, h.2.2⟩

/-- A command that turns the view `v` into `v'`. -/
def Turns (S : System σ U L P) (O : Outline σ U L P V) (me : Option P) (a : Cmd σ U L P)
    (v v' : V) : Prop :=
  ∀ Q B : V → Prop, Q v' → know S O me a Q B v

section

variable {v m z : V} {a b : Cmd σ U L P}

theorem Turns.skip : Turns S O me .skip v v := fun _ _ hq _ _ _ _ _ hat => hat.stay hq

theorem Turns.panic (msg : String) : Turns S O me (.panic msg) v m := fun _ _ _ => trivial

theorem Turns.spawn (p : P) : Turns S O me (.spawn p) v v := fun _ _ hq => hq

theorem Turns.nil : Turns S O me (.block []) v v := Turns.skip

theorem Turns.cons {l : List (Cmd σ U L P)} (ha : Turns S O me a v m)
    (hl : Turns S O me (.block l) m z) : Turns S O me (.block (a :: l)) v z :=
  fun Q B hq => ha _ B (hl Q B hq)

theorem Turns.any {f : ℕ → Cmd σ U L P} (h : ∀ n, Turns S O me (f n) v m) :
    Turns S O me (.any f) v m := fun Q B hq n => h n Q B hq

/-- A loop that is never left. -/
theorem Turns.forever (h : Turns S O me a v v) : Turns S O me (.loop a) v m := by
  intro Q B _
  refine ⟨fun v' => v' = v, rfl, ?_⟩
  rintro _ rfl
  exact h _ _ rfl

/-- Commands for every element of a list: the view depends on the elements that are left. -/
theorem Turns.map {α : Type} {f : α → Cmd σ U L P} (view : List α → V)
    (h : ∀ x l, Turns S O me (f x) (view (x :: l)) (view l)) (l : List α) :
    Turns S O me (.block (l.map f)) (view l) (view []) := by
  induction l with
  | nil => exact Turns.nil
  | cons x l ih => exact (h x l).cons ih

end

theorem know_head {a : Cmd σ U L P} {l : List (Cmd σ U L P)} {Q B : V → Prop} {v : V}
    (h : know S O me a (know S O me (.block l) Q B) B v) : know S O me (.block (a :: l)) Q B v := h

theorem know_cons {a : Cmd σ U L P} {l : List (Cmd σ U L P)} {Q B : V → Prop} {v m : V}
    (ha : Turns S O me a v m) (hl : know S O me (.block l) Q B m) :
    know S O me (.block (a :: l)) Q B v :=
  ha _ B hl

/-- A test whose outcome does not matter. -/
theorem know_ite {t : ℕ → σ → Bool} {a b : Cmd σ U L P} {Q B : V → Prop} {v : V}
    (ha : know S O me a Q B v) (hb : know S O me b Q B v) : know S O me (.ite t a b) Q B v :=
  fun _ _ _ _ _ hat => hat.stay ⟨fun _ => ha, fun _ => hb⟩

theorem Turns.ite {t : ℕ → σ → Bool} {a b : Cmd σ U L P} {v m : V} (ha : Turns S O me a v m)
    (hb : Turns S O me b v m) : Turns S O me (.ite t a b) v m :=
  fun Q B hq => know_ite (ha Q B hq) (hb Q B hq)

theorem Turns.when {t : ℕ → σ → Bool} {a : Cmd σ U L P} {v : V} (ha : Turns S O me a v v) :
    Turns S O me (.when t a) v v := ha.ite Turns.skip

/-- A condition that commands for every element of a list keep, unless they leave the loop. -/
theorem know_block_map {α : Type} {f : α → Cmd σ U L P} {I B : V → Prop}
    (h : ∀ x v, I v → know S O me (f x) I B v) (l : List α) {v : V} (hI : I v) :
    know S O me (.block (l.map f)) I B v := by
  induction l generalizing v with
  | nil => exact Turns.nil I B hI
  | cons x l ih => exact know_head (know_mono (h x v hI) (fun _ hI' => ih hI') fun _ hB => hB)

theorem know_last {a : Cmd σ U L P} {Q B : V → Prop} {v : V} (h : know S O me a Q B v) :
    know S O me (.block [a]) Q B v := by
  have hskip : ∀ v', Q v' → know S O me (.block []) Q B v' := fun v' hq => Turns.nil Q B hq
  exact know_mono (a := a) h hskip fun _ hB => hB

/-! ## Threads -/

/-- The views with which a thread may go on, and those with which it may leave its innermost loop. -/
def Cont.knows (S : System σ U L P) (O : Outline σ U L P V) (me : Option P) :
    Cont σ U L P → (V → Prop) × (V → Prop)
  | .done => (fun _ => True, fun _ => False)
  | .next a k => (know S O me a (k.knows S O me).1 (k.knows S O me).2, (k.knows S O me).2)
  | .again a k =>
    (know S O me (.loop a) (k.knows S O me).1 (k.knows S O me).2, (k.knows S O me).1)

theorem Cont.knows_afterLoop (k : Cont σ U L P) {v : V} (h : (k.knows S O me).2 v) :
    (k.afterLoop.knows S O me).1 v := by
  induction k with
  | done => exact absurd h id
  | next a k ih => exact ih h
  | again a k ih => exact h

/-- A loop may start its body. -/
theorem Cont.knows_again {a : Cmd σ U L P} {k : Cont σ U L P} {v : V}
    (h : know S O me (.loop a) (k.knows S O me).1 (k.knows S O me).2 v) :
    ((Cont.next a (.again a k)).knows S O me).1 v := by
  obtain ⟨I, hI, hbody⟩ := h
  exact know_mono (hbody v hI) (fun v' hI' => ⟨I, hI', hbody⟩) fun _ hq => hq

/-- The process that runs on each CPU. -/
def State.cur (s : State σ U L P) : ℕ → Option P := fun c => (s.cpu c).cur

/-- The views `w` fit a state in which all threads may go on. -/
structure Agree (S : System σ U L P) (O : Outline σ U L P V) (w : ℕ → V) (s : State σ U L P) :
    Prop where
  inv : O.inv s.data s.holder s.cur w
  noff : ∀ c, (s.cpu c).noff = O.locks (w c)
  code : ∀ c, ((s.cpu c).code.knows S O (s.cpu c).cur).1 (w c)
  saved : ∀ c p, (s.cpu c).cur = some p → ∀ v, O.back p v → ((s.cpu c).saved.knows S O none).1 v
  context : ∀ p, ((s.context p).knows S O (some p)).1 (O.resume p)

theorem Agree.at {w : ℕ → V} {s : State σ U L P} (h : Agree S O w s) (c : ℕ) :
    O.At (s.cpu c).cur (w c) s.data s.holder s.cur w c := ⟨h.inv, rfl, rfl⟩

/-- One CPU goes on with another view. -/
theorem Agree.update {w : ℕ → V} {s t : State σ U L P} (h : Agree S O w s) {c : ℕ}
    {x : Cpu σ U L P} {v : V} (hcpu : t.cpu = Function.update s.cpu c x)
    (hinv : O.inv t.data t.holder (Function.update s.cur c x.cur) (Function.update w c v))
    (hnoff : x.noff = O.locks v) (hcode : (x.code.knows S O x.cur).1 v)
    (hsaved : ∀ p, x.cur = some p → ∀ v, O.back p v → (x.saved.knows S O none).1 v)
    (hcontext : ∀ p, ((t.context p).knows S O (some p)).1 (O.resume p)) :
    Agree S O (Function.update w c v) t := by
  have hcur : t.cur = Function.update s.cur c x.cur := by
    funext e
    by_cases he : e = c
    · subst he
      simp [State.cur, hcpu]
    · simp [State.cur, hcpu, he]
  refine ⟨hcur ▸ hinv, fun e => ?_, fun e => ?_, fun e => ?_, hcontext⟩
  all_goals
    by_cases he : e = c
    · subst he
      simp only [hcpu, Function.update_self]
      assumption
    · simp only [hcpu, Function.update_of_ne he]
      first
        | exact h.noff e
        | exact h.code e
        | exact h.saved e

/-- A CPU that runs the same process goes on as a command says it may. -/
theorem Agree.goes {w : ℕ → V} {s t : State σ U L P} (h : Agree S O w s) {c n : ℕ}
    {k : Cont σ U L P} {Q : V → Prop} (hgo : O.Goes n t.data t.holder s.cur w c Q)
    (hcpu : t.cpu = Function.update s.cpu c { s.cpu c with code := k, noff := n })
    (hcontext : t.context = s.context)
    (hQ : ∀ v, Q v → (k.knows S O (s.cpu c).cur).1 v) : ∃ w', Agree S O w' t := by
  obtain ⟨v, hn, hinv, hq⟩ := hgo
  have hcur : Function.update s.cur c (s.cpu c).cur = s.cur := Function.update_eq_self c s.cur
  refine ⟨_, h.update hcpu ?_ hn.symm (hQ v hq) (h.saved c) ?_⟩
  · exact hcur.symm ▸ hinv
  · exact hcontext ▸ h.context

theorem Agree.setCode {w : ℕ → V} {s : State σ U L P} (h : Agree S O w s) {c : ℕ}
    {k : Cont σ U L P} (hk : (k.knows S O (s.cpu c).cur).1 (w c)) :
    ∃ w', Agree S O w' (s.setCode c k) := by
  refine h.goes (t := s.setCode c k) (k := k) (Q := fun v => v = w c) ((h.at c).stay rfl) ?_ rfl ?_
  · show Function.update s.cpu c _ = _
    rw [← h.noff c]
  · rintro _ rfl
    exact hk

variable [DecidableEq P]

/-- **The step lemma**: a command keeps the views in agreement. -/
theorem Agree.exec {w : ℕ → V} {s t : State σ U L P} (h : Agree S O w s)
    (hstart : ∀ p, know S O (some p) (S.start p) (fun _ => True) (fun _ => False) (O.resume p))
    {c n : ℕ} {k : Cont σ U L P} {a : Cmd σ U L P}
    (hallow : ∀ u, a = .acquire u → O.allow s.data u)
    (hcode : know S O (s.cpu c).cur a (k.knows S O (s.cpu c).cur).1 (k.knows S O (s.cpu c).cur).2
      (w c))
    (hexec : LockLang.exec S s c n k a = some t) : ∃ w', Agree S O w' t := by
  have hnoff := h.noff c
  cases a with
  | skip =>
    cases hexec
    refine h.goes (hcode _ _ _ _ _ (h.at c)) ?_ rfl fun v hv => hv
    rw [← hnoff]
    rfl
  | panic msg => cases hexec
  | act f =>
    cases hexec
    refine h.goes (hcode _ _ _ _ _ (h.at c)) ?_ rfl fun v hv => hv
    rw [← hnoff]
    rfl
  | acquire u =>
    simp only [LockLang.exec] at hexec
    split_ifs at hexec with hfree
    cases hexec
    refine h.goes (hcode.2 _ _ _ _ _ (h.at c) (Option.isNone_iff_eq_none.mp hfree) (hallow u rfl)) ?_
      rfl fun v hv => hv
    rw [← hnoff]
    rfl
  | release l =>
    simp only [LockLang.exec] at hexec
    split_ifs at hexec
    cases hexec
    refine h.goes (hcode.2 _ _ _ _ _ (h.at c)) ?_ rfl fun v hv => hv
    rw [← hnoff]
    rfl
  | seq a b =>
    cases hexec
    exact h.setCode hcode
  | ite t a b =>
    cases hexec
    refine h.goes (k := .next (if t c s.data then a else b) k) (hcode _ _ _ _ _ (h.at c)) ?_ rfl ?_
    · rw [← hnoff]
      rfl
    · intro v hv
      cases ht : t c s.data with
      | true => exact hv.1 ht
      | false => exact hv.2 ht
  | any f =>
    cases hexec
    exact h.setCode (hcode n)
  | loop a =>
    cases hexec
    exact h.setCode (Cont.knows_again hcode)
  | brk =>
    cases hexec
    exact h.setCode (Cont.knows_afterLoop k hcode)
  | spawn p =>
    cases hexec
    have hinv := h.inv
    rw [← Function.update_eq_self c w, ← Function.update_eq_self c s.cur] at hinv
    refine ⟨_, h.update rfl hinv hnoff hcode (h.saved c) fun q => ?_⟩
    by_cases hq : q = p
    · subst hq
      simp only [Function.update_self]
      exact hstart q
    · simpa only [Function.update_of_ne hq] using h.context q
  | swtchTo p =>
    obtain ⟨hme, hlocks, hback, hinv⟩ := hcode
    rw [hme] at hback
    cases hexec
    -- the thread of the process has the view that the scheduler hands over
    refine ⟨_, h.update rfl (hinv _ _ _ _ _ (h.at c)) (hnoff.trans hlocks) (h.context p) ?_ h.context⟩
    intro q hq
    cases hq
    exact hback
  | swtchBack p =>
    obtain ⟨hme, hk, v, hv, hlocks, hinv⟩ := hcode
    cases hexec
    refine ⟨_, h.update rfl (hinv _ _ _ _ _ (h.at c)) (hnoff.trans hlocks) (h.saved c p hme v hv) ?_
      fun q => ?_⟩
    · intro q hq
      cases hq
    · by_cases hq : q = p
      · subst hq
        rw [hme] at hk
        simpa only [Function.update_self] using hk
      · simpa only [Function.update_of_ne hq] using h.context q

/-- **The run lemma**: threads that start in agreement stay in agreement, whatever the
interleaving. -/
theorem Agree.reach {ok : State σ U L P → Event → Prop} {s₀ s : State σ U L P}
    (hallow : ∀ s c n u k, ok s (.run c n) → (s.cpu c).code = .next (.acquire u) k → O.allow s.data u)
    (hstart : ∀ p, know S O (some p) (S.start p) (fun _ => True) (fun _ => False) (O.resume p))
    (hinterrupt : ∀ me v, O.locks v = 0 → Turns S O me (S.interrupt me) v v)
    (h₀ : ∃ w, Agree S O w s₀) (h : Reach S ok s₀ s) : ∃ w, Agree S O w s := by
  induction h with
  | start => exact h₀
  | @step s t e _ hok hstep ih =>
    obtain ⟨w, hw⟩ := ih
    cases e with
    | run c n =>
      have hcode := hw.code c
      unfold LockLang.step at hstep
      simp only at hstep
      split at hstep
      · cases hstep
      · next a k heq =>
        cases hstep
        rw [heq] at hcode
        exact hw.setCode (Cont.knows_again hcode)
      · next a k heq =>
        rw [heq] at hcode
        refine hw.exec hstart ?_ hcode hstep
        rintro u rfl
        exact hallow s c n u k hok heq
    | interrupt c =>
      unfold LockLang.step at hstep
      simp only at hstep
      split_ifs at hstep with hnoff
      cases hstep
      -- the CPU has no lock, so the code of the interrupt may start and give the view back
      exact hw.setCode (hinterrupt _ _ ((hw.noff c).symm.trans hnoff) _ _ (hw.code c))

end

/-! ## Locks in order -/

section

variable {nests : U → U → Prop}

/-- The uses of each CPU: a lock may be waited for under uses in which it may be nested.  A process
may switch back with another use of its lock than that with which it has got it. -/
def ordered (S : System σ U L P) (nests : U → U → Prop) : Outline σ U L P (List U) where
  allow := fun _ _ => True
  may := fun H u => ∀ h ∈ H, nests h u ∧ S.lockOf h ≠ S.lockOf u
  inv := fun _ h _ w => (∀ c, (w c).Nodup) ∧ ∀ l c u, h l = some (c, u) ↔ u ∈ w c ∧ S.lockOf u = l
  locks := List.length
  resume := fun p => [S.handOn p]
  back := fun p H => ∃ u, S.lockOf u = S.procLock p ∧ H = [u]

variable {S : System σ U L P} {me : Option P} {s : State σ U L P} {w : ℕ → List U}

/-- A CPU that waits for a lock may nest it in every use it has. -/
theorem nests_of_waits [DecidableEq L] (h : Agree S (ordered S nests) w s) {c : ℕ} {u v : U} {l : L}
    {k : Cont σ U L P} (hheld : s.holder l = some (c, v))
    (hwait : (s.cpu c).code = .next (.acquire u) k) : nests v u := by
  have hcode := h.code c
  rw [hwait] at hcode
  exact (hcode.1 v ((h.inv.2 l c v).mp hheld).1).1

/-- A CPU of a stuck set waits for a lock that it may nest in the one it has, and another CPU of the
set has. -/
theorem next_of_stuck [DecidableEq L] (h : Agree S (ordered S nests) w s) {D : Set ℕ}
    (hD : Stuck S s D) {c : ℕ} (hc : c ∈ D) {l : L} {v : U} (hv : s.holder l = some (c, v)) :
    S.lockOf v = l ∧ ∃ u, nests v u ∧ ∃ d ∈ D, d ≠ c ∧ ∃ x, s.holder (S.lockOf u) = some (d, x) := by
  obtain ⟨-, l', ⟨u, k, hcode, rfl⟩, d, hd, hne, x, hx⟩ := hD c hc
  exact ⟨((h.inv.2 l c v).mp hv).2, u, nests_of_waits h hv hcode, d, hd, hne, x, hx⟩

variable [DecidableEq L] {H K : List U}

theorem turns_act (f : σ → σ) : Turns S (ordered S nests) me (.act f) H H :=
  fun _ _ hq _ _ _ _ _ hat => hat.stay hq

/-- The scheduler hands a process its lock, and gets it back in some use. -/
theorem know_swtchTo {p : P} {Q B : List U → Prop}
    (h : ∀ u, S.lockOf u = S.procLock p → Q [u]) :
    know S (ordered S nests) none (.swtchTo p) Q B [S.handOn p] := by
  refine ⟨rfl, rfl, ?_, ?_⟩
  · rintro _ ⟨u, hu, rfl⟩
    exact h u hu
  · intro d hh r w c hat
    have hsame : Function.update w c [S.handOn p] = w := by
      rw [← hat.view, Function.update_eq_self]
    exact hsame.symm ▸ hat.inv

theorem turns_swtchBack {p : P} {u : U} (hu : S.lockOf u = S.procLock p) :
    Turns S (ordered S nests) (some p) (.swtchBack p) [u] [S.handOn p] := by
  refine fun Q B hq => ⟨rfl, hq, [u], ⟨u, hu, rfl⟩, rfl, fun d hh r w c hat => ?_⟩
  have hsame : Function.update w c [u] = w := by
    rw [← hat.view, Function.update_eq_self]
  exact hsame.symm ▸ hat.inv

theorem turns_acquire {u : U} (h : ∀ v ∈ H, nests v u ∧ S.lockOf v ≠ S.lockOf u) :
    Turns S (ordered S nests) me (.acquire u) H (u :: H) := by
  refine fun Q B hq => ⟨h, fun d hh r w c hat hfree _ => ⟨u :: H, rfl, ?_, hq⟩⟩
  obtain ⟨⟨hnodup, hholder⟩, rfl, -⟩ := hat
  -- nobody has a use of a free lock
  have hno : ∀ d v, v ∈ w d → S.lockOf v ≠ S.lockOf u := by
    intro d v hv hl
    have hheld := (hholder (S.lockOf u) d v).mpr ⟨hv, hl⟩
    rw [hfree] at hheld
    cases hheld
  constructor
  · exact (Function.forall_update_iff w fun _ => List.Nodup).mpr
      ⟨List.nodup_cons.mpr ⟨fun hu => hno c u hu rfl, hnodup c⟩, fun d _ => hnodup d⟩
  · intro l d v
    have hmem : v ∈ Function.update w c (u :: w c) d ↔ d = c ∧ v = u ∨ v ∈ w d := by
      by_cases hd : d = c
      · subst hd
        simp
      · simp [hd]
    rw [hmem]
    by_cases hl : l = S.lockOf u
    · subst hl
      rw [Function.update_self]
      constructor
      · intro heq
        obtain ⟨rfl, rfl⟩ := Prod.mk.inj (Option.some.inj heq)
        exact ⟨Or.inl ⟨rfl, rfl⟩, rfl⟩
      · rintro ⟨⟨rfl, rfl⟩ | hv, hlv⟩
        · rfl
        · exact absurd hlv (hno d v hv)
    · rw [Function.update_of_ne hl, hholder]
      constructor
      · rintro ⟨hv, hlv⟩
        exact ⟨Or.inr hv, hlv⟩
      · rintro ⟨⟨-, rfl⟩ | hv, hlv⟩
        · exact absurd hlv.symm hl
        · exact ⟨hv, hlv⟩

variable [DecidableEq U]

theorem turns_release {u : U} (hu : u ∈ H) (hK : H.erase u = K) :
    Turns S (ordered S nests) me (.release (S.lockOf u)) H K := by
  refine fun Q B hq => ⟨List.length_pos_of_mem hu, fun d hh r w c hat => ⟨K, ?_, ?_, hq⟩⟩
  · subst hK
    exact List.length_erase_of_mem hu
  obtain ⟨⟨hnodup, hholder⟩, rfl, -⟩ := hat
  subst hK
  -- the lock has one use, on one CPU
  have hone : ∀ d v, v ∈ w d → S.lockOf v = S.lockOf u → d = c ∧ v = u := by
    intro d v hv hl
    have hv' := (hholder (S.lockOf u) d v).mpr ⟨hv, hl⟩
    rw [(hholder (S.lockOf u) c u).mpr ⟨hu, rfl⟩] at hv'
    obtain ⟨hd, hvu⟩ := Prod.mk.inj (Option.some.inj hv')
    exact ⟨hd.symm, hvu.symm⟩
  constructor
  · exact (Function.forall_update_iff w fun _ => List.Nodup).mpr
      ⟨(hnodup c).erase u, fun d _ => hnodup d⟩
  · intro l d v
    have hmem : v ∈ Function.update w c ((w c).erase u) d ↔ v ∈ w d ∧ ¬ (d = c ∧ v = u) := by
      by_cases hd : d = c
      · subst hd
        rw [Function.update_self, (hnodup d).mem_erase_iff]
        simp [and_comm]
      · simp [hd]
    rw [hmem]
    by_cases hl : l = S.lockOf u
    · subst hl
      rw [Function.update_self]
      constructor
      · intro heq
        cases heq
      · rintro ⟨⟨hv, hne⟩, hlv⟩
        exact absurd (hone d v hv hlv) hne
    · rw [Function.update_of_ne hl, hholder]
      constructor
      · rintro ⟨hv, hlv⟩
        refine ⟨⟨hv, ?_⟩, hlv⟩
        rintro ⟨-, rfl⟩
        exact hl hlv.symm
      · rintro ⟨⟨hv, -⟩, hlv⟩
        exact ⟨hv, hlv⟩

/-- The lock taken last is released. -/
theorem turns_release_head {u : U} :
    Turns S (ordered S nests) me (.release (S.lockOf u)) (u :: H) H :=
  turns_release List.mem_cons_self (List.erase_cons_head u H)

end

end LockLang
