/-
# Whether the log has room

`begin_op` admits an operation when `MAXOPBLOCKS` blocks are left for it and for every
operation that is running, so the log has room for the blocks that the running operations
may still add (`RoomInv.room`).  But `log_write` tests for a full log before it looks for the
block, so a block that is already there can be one too many (`log_write_panics`).
`log_room` proves that nothing else goes wrong.
-/
import Xv6.Ledger
import Xv6.LogModel

namespace Xv6

open Function

/-- Where a process is between `begin_op` and the end of `commit`. -/
inductive LogPlace where
  | out
  /-- In an operation that has passed these blocks to `log_write`. -/
  | inOp (logged : Finset ℕ)
  | committing
  /-- In `commit`, after `log.lh.n = 0`. -/
  | cleared
  deriving DecidableEq

/-- The operation passes the block `b`. -/
def LogPlace.pass (b : ℕ) : LogPlace → LogPlace
  | .inOp logged => .inOp (insert b logged)
  | p => p

/-- The log, and where every process is. -/
structure LogState (T : Type) where
  log : Log
  place : T → LogPlace

/-- A step of a process. -/
inductive LogEvent (T : Type) where
  | beginOp (t : T)
  | logWrite (t : T) (b : ℕ)
  | endOp (t : T)
  | clear (t : T)
  | committed (t : T)

section

variable {T : Type} [DecidableEq T]

/-- A process can take the step now; an operation passes at most `MAXOPBLOCKS` different blocks. -/
def LogEvent.Enabled (s : LogState T) : LogEvent T → Prop
  | .beginOp t => s.place t = .out ∧ s.log.admits
  | .logWrite t b => ∃ logged, s.place t = .inOp logged ∧ (insert b logged).card ≤ maxOpBlocks
  | .endOp t => ∃ logged, s.place t = .inOp logged
  | .clear t => s.place t = .committing
  | .committed t => s.place t = .cleared

/-- One step, in a log of `size` blocks. -/
def logStep (size : ℕ) (s : LogState T) : LogEvent T → Except Fault (LogState T)
  | .beginOp t => .ok ⟨s.log.beginOp, update s.place t (.inOp ∅)⟩
  | .logWrite t b => do
    let (log, _) ← s.log.logWrite size b
    return ⟨log, update s.place t ((s.place t).pass b)⟩
  | .endOp t => do
    let (log, commit) ← s.log.endOp
    return ⟨log, update s.place t (if commit then .committing else .out)⟩
  | .clear t => .ok ⟨s.log.clear, update s.place t .cleared⟩
  | .committed t => .ok ⟨s.log.committed, update s.place t .out⟩

/-- After `initlog`. -/
def LogState.start : LogState T := ⟨Log.empty, fun _ => .out⟩

/-- The states that steps which meet a condition reach. -/
inductive LogReach (size : ℕ) (ok : LogState T → LogEvent T → Prop) : LogState T → Prop where
  | start : LogReach size ok .start
  | step {s t : LogState T} {e : LogEvent T} (hreach : LogReach size ok s) (he : e.Enabled s)
      (hok : ok s e) (hstep : logStep size s e = .ok t) : LogReach size ok t

/-- `log_write` finds the log with room, or without the block. -/
def RoomLeft (s : LogState T) : LogEvent T → Prop
  | .logWrite _ b => s.log.lh.length < logSize ∨ b ∉ s.log.lh
  | _ => True

/-- The blocks that a process may still add. -/
def LogPlace.room : LogPlace → ℕ
  | .inOp logged => maxOpBlocks - logged.card
  | _ => 0

/-- `1` for a process in an operation. -/
def LogPlace.active : LogPlace → ℕ
  | .inOp _ => 1
  | _ => 0

/-- `1` for a process in `commit`. -/
def LogPlace.commits : LogPlace → ℕ
  | .committing | .cleared => 1
  | _ => 0

end

section

variable (logged : Finset ℕ)

@[simp] theorem LogPlace.room_out : LogPlace.room .out = 0 := rfl
@[simp] theorem LogPlace.room_inOp : LogPlace.room (.inOp logged) = maxOpBlocks - logged.card := rfl
@[simp] theorem LogPlace.room_committing : LogPlace.room .committing = 0 := rfl
@[simp] theorem LogPlace.room_cleared : LogPlace.room .cleared = 0 := rfl
@[simp] theorem LogPlace.active_out : LogPlace.active .out = 0 := rfl
@[simp] theorem LogPlace.active_inOp : LogPlace.active (.inOp logged) = 1 := rfl
@[simp] theorem LogPlace.active_committing : LogPlace.active .committing = 0 := rfl
@[simp] theorem LogPlace.active_cleared : LogPlace.active .cleared = 0 := rfl
@[simp] theorem LogPlace.commits_out : LogPlace.commits .out = 0 := rfl
@[simp] theorem LogPlace.commits_inOp : LogPlace.commits (.inOp logged) = 0 := rfl
@[simp] theorem LogPlace.commits_committing : LogPlace.commits .committing = 1 := rfl
@[simp] theorem LogPlace.commits_cleared : LogPlace.commits .cleared = 1 := rfl

end

section

variable {T : Type} [Fintype T] {s : LogState T}

/-- The invariant: operations are counted, at most one process commits and then no operation
runs, and the running operations have room. -/
structure RoomInv (s : LogState T) : Prop where
  active : s.log.outstanding = ∑ t, (s.place t).active
  commits : s.log.committing.toNat = ∑ t, (s.place t).commits
  alone : s.log.committing = true → s.log.outstanding = 0
  sub : ∀ t logged, s.place t = .inOp logged → logged.card ≤ maxOpBlocks ∧ ∀ b ∈ logged, b ∈ s.log.lh
  room : s.log.lh.length + ∑ t, (s.place t).room ≤ logSize

/-- The share of one process. -/
theorem le_sum_place (s : LogState T) (f : LogPlace → ℕ) (t : T) :
    f (s.place t) ≤ ∑ u, f (s.place u) :=
  Finset.single_le_sum (f := fun u => f (s.place u)) (fun _ _ => Nat.zero_le _) (Finset.mem_univ t)

theorem roomInv_start : RoomInv (LogState.start (T := T)) := by
  refine ⟨?_, ?_, fun h => ?_, fun t logged h => ?_, ?_⟩
  · simp [LogState.start, Log.empty]
  · simp [LogState.start, Log.empty]
  · cases h
  · cases h
  · simp [LogState.start, Log.empty]

/-- An operation can only run while nobody commits. -/
theorem RoomInv.not_committing (h : RoomInv s) {t : T} {logged : Finset ℕ}
    (ht : s.place t = .inOp logged) : s.log.committing = false ∧ 1 ≤ s.log.outstanding := by
  have hshare := le_sum_place s LogPlace.active t
  rw [ht, LogPlace.active_inOp] at hshare
  have hout : 1 ≤ s.log.outstanding := by
    rw [h.active]
    exact_mod_cast hshare
  refine ⟨?_, hout⟩
  by_contra hc
  have := h.alone (by simpa using hc)
  omega

/-- The running operations have at most `MAXOPBLOCKS` blocks each to add. -/
theorem room_le_active (s : LogState T) :
    ∑ t, (s.place t).room ≤ (∑ t, (s.place t).active) * maxOpBlocks := by
  rw [Finset.sum_mul]
  refine Finset.sum_le_sum fun t _ => ?_
  cases s.place t <;> simp

/-- A block that is not in the log finds room: its operation has not passed it yet. -/
theorem RoomInv.lt_of_new (h : RoomInv s) {t : T} {logged : Finset ℕ} (ht : s.place t = .inOp logged)
    {b : ℕ} (hcard : (insert b logged).card ≤ maxOpBlocks) (hb : b ∉ s.log.lh) :
    s.log.lh.length < logSize := by
  have hnot : b ∉ logged := fun hmem => hb ((h.sub t logged ht).2 b hmem)
  rw [Finset.card_insert_of_notMem hnot] at hcard
  have hshare := le_sum_place s LogPlace.room t
  rw [ht, LogPlace.room_inOp] at hshare
  have := h.room
  omega

variable [DecidableEq T]

/-- One process moves: what is summed over all processes changes by its share. -/
theorem sum_place_update (f : LogPlace → ℕ) {t : T} {p q : LogPlace} (ht : s.place t = p) :
    ∑ u, f (update s.place t q u) + f p = ∑ u, f (s.place u) + f q := by
  rw [← ht]
  exact Ledger.sum_update (Finset.mem_univ t) s.place f q

/-- The process `t` goes from `p` to `q`: the parts of the invariant that are sums. -/
theorem RoomInv.move {log : Log} {t : T} {p q : LogPlace} (ht : s.place t = p)
    (hactive : log.outstanding + p.active = ∑ u, (s.place u).active + q.active)
    (hcommits : log.committing.toNat + p.commits = ∑ u, (s.place u).commits + q.commits)
    (halone : log.committing = true → log.outstanding = 0)
    (hsub : ∀ u logged, update s.place t q u = .inOp logged →
      logged.card ≤ maxOpBlocks ∧ ∀ b ∈ logged, b ∈ log.lh)
    (hroom : log.lh.length + ∑ u, (s.place u).room + q.room ≤ logSize + p.room) :
    RoomInv ⟨log, update s.place t q⟩ := by
  have h₁ := sum_place_update LogPlace.active (q := q) ht
  have h₂ := sum_place_update LogPlace.commits (q := q) ht
  have h₃ := sum_place_update LogPlace.room (q := q) ht
  refine ⟨?_, ?_, halone, hsub, ?_⟩
  · show log.outstanding = ((∑ u, (update s.place t q u).active : ℕ) : ℤ)
    omega
  · show log.committing.toNat = ∑ u, (update s.place t q u).commits
    omega
  · show log.lh.length + ∑ u, (update s.place t q u).room ≤ logSize
    omega

/-- A process that leaves the log alone keeps what the others have passed. -/
theorem RoomInv.sub_update (h : RoomInv s) {log : Log} {t : T} {q : LogPlace}
    (hlh : ∀ b ∈ s.log.lh, b ∈ log.lh)
    (hq : ∀ logged, q = .inOp logged → logged.card ≤ maxOpBlocks ∧ ∀ b ∈ logged, b ∈ log.lh) :
    ∀ u logged, update s.place t q u = .inOp logged →
      logged.card ≤ maxOpBlocks ∧ ∀ b ∈ logged, b ∈ log.lh := by
  intro u logged hu
  by_cases hut : u = t
  · subst hut
    rw [update_self] at hu
    exact hq logged hu
  · rw [update_of_ne hut] at hu
    obtain ⟨hcard, hsub⟩ := h.sub u logged hu
    exact ⟨hcard, fun b hb => hlh b (hsub b hb)⟩

/-- **The step lemma**: with room for what is logged again, every step returns and keeps the
invariant. -/
theorem logStep_spec (hsize : logSize < size) (h : RoomInv s) {e : LogEvent T} (he : e.Enabled s)
    (hok : RoomLeft s e) : ∃ t, logStep size s e = .ok t ∧ RoomInv t := by
  have hactive := h.active
  have hcommits := h.commits
  have hroom := h.room
  cases e with
  | beginOp t =>
    obtain ⟨ht, hno, hfits⟩ := he
    refine ⟨_, rfl, RoomInv.move ht ?_ ?_ ?_ (h.sub_update (fun _ hb => hb) ?_) ?_⟩
    · simp [Log.beginOp, hactive]
    · simp only [Log.beginOp, LogPlace.commits_out, LogPlace.commits_inOp]
      omega
    · intro hc
      rw [show (Log.beginOp s.log).committing = s.log.committing from rfl, hno] at hc
      cases hc
    · intro logged hq
      obtain rfl := LogPlace.inOp.inj hq
      simp
    · -- what was admitted covers the room of all operations
      have hle := room_le_active s
      rw [hactive] at hfits
      norm_cast at hfits
      rw [Nat.add_mul] at hfits
      simp only [Log.beginOp, LogPlace.room_out, LogPlace.room_inOp, Finset.card_empty]
      omega
  | logWrite t b =>
    obtain ⟨logged, ht, hcard⟩ := he
    obtain ⟨hno, hout⟩ := h.not_committing ht
    have hlt : s.log.lh.length < logSize := by
      rcases hok with hlt | hb
      · exact hlt
      · exact h.lt_of_new ht hcard hb
    have hwrite := Log.logWrite_ok (b := b) hlt (show s.log.lh.length < size - 1 by omega) hout
    refine ⟨_, by rw [logStep, hwrite]; rfl, ?_⟩
    rw [ht]
    refine RoomInv.move ht ?_ ?_ ?_ (h.sub_update ?_ ?_) ?_
    · simp [LogPlace.pass, hactive]
    · simp only [LogPlace.pass, LogPlace.commits_inOp]
      omega
    · intro hc
      rw [hno] at hc
      cases hc
    · intro c hc
      dsimp only
      split_ifs
      · exact hc
      · exact List.mem_append_left _ hc
    · intro logged' hq
      obtain rfl := LogPlace.inOp.inj hq
      refine ⟨hcard, fun c hc => ?_⟩
      have hmem : ∀ c ∈ logged, c ∈ s.log.lh := (h.sub t logged ht).2
      dsimp only
      rcases Finset.mem_insert.mp hc with rfl | hc
      · split_ifs with hb
        · exact hb
        · exact List.mem_append_right _ List.mem_cons_self
      · split_ifs
        · exact hmem c hc
        · exact List.mem_append_left _ (hmem c hc)
    · -- a block that is new to the log is new to its operation
      have hle : logged.card ≤ (insert b logged).card := Finset.card_le_card (Finset.subset_insert b logged)
      dsimp only [LogPlace.pass]
      simp only [LogPlace.room_inOp]
      split_ifs with hb
      · omega
      · have hnot : b ∉ logged := fun hmem => hb ((h.sub t logged ht).2 b hmem)
        rw [Finset.card_insert_of_notMem hnot] at hcard ⊢
        rw [List.length_append, List.length_singleton]
        omega
  | endOp t =>
    obtain ⟨logged, ht⟩ := he
    obtain ⟨hno, hout⟩ := h.not_committing ht
    have hcommit : ∑ u, (s.place u).commits = 0 := by
      rw [← hcommits, hno]
      rfl
    by_cases hlast : s.log.outstanding - 1 = 0
    · refine ⟨⟨{ s.log with outstanding := s.log.outstanding - 1, committing := true },
        update s.place t .committing⟩, ?_, RoomInv.move ht ?_ ?_ ?_ (h.sub_update ?_ ?_) ?_⟩
      · simp [logStep, Log.endOp, hno, hlast]
      · simp [hactive]
      · simp [hcommit]
      · exact fun _ => hlast
      · exact fun _ hb => hb
      · intro logged' hq
        cases hq
      · simp only [LogPlace.room_committing]
        omega
    · refine ⟨⟨{ s.log with outstanding := s.log.outstanding - 1 }, update s.place t .out⟩, ?_,
        RoomInv.move ht ?_ ?_ ?_ (h.sub_update ?_ ?_) ?_⟩
      · simp [logStep, Log.endOp, hno, hlast]
      · simp [hactive]
      · simp [hcommit, hno]
      · intro hc
        rw [hno] at hc
        cases hc
      · exact fun _ hb => hb
      · intro logged' hq
        cases hq
      · simp only [LogPlace.room_out]
        omega
  | clear t =>
    -- nobody is in an operation, so there is nothing to keep in the log
    have hshare := le_sum_place s LogPlace.commits t
    rw [he, LogPlace.commits_committing, ← hcommits] at hshare
    have hc : s.log.committing = true := by
      by_contra hc
      rw [Bool.not_eq_true] at hc
      rw [hc, Bool.toNat_false] at hshare
      omega
    have hout := h.alone hc
    have hzero : ∑ u, (s.place u).active = 0 := by omega
    refine ⟨_, rfl, RoomInv.move he ?_ ?_ ?_ ?_ ?_⟩
    · simp [Log.clear, hactive]
    · simp only [Log.clear, LogPlace.commits_committing, LogPlace.commits_cleared]
      omega
    · exact fun _ => hout
    · intro u logged hu
      by_cases hut : u = t
      · subst hut
        rw [update_self] at hu
        cases hu
      · rw [update_of_ne hut] at hu
        have hu' := le_sum_place s LogPlace.active u
        rw [hu, LogPlace.active_inOp] at hu'
        omega
    · simp only [Log.clear, LogPlace.room_committing, LogPlace.room_cleared, List.length_nil]
      omega
  | committed t =>
    have hshare := le_sum_place s LogPlace.commits t
    rw [he, LogPlace.commits_cleared, ← hcommits] at hshare
    have hc : s.log.committing = true := by
      by_contra hc
      rw [Bool.not_eq_true] at hc
      rw [hc, Bool.toNat_false] at hshare
      omega
    refine ⟨_, rfl, RoomInv.move he ?_ ?_ ?_ (h.sub_update (fun _ hb => hb) ?_) ?_⟩
    · simp [Log.committed, hactive]
    · rw [← hcommits, hc]
      simp [Log.committed]
    · intro hc'
      cases hc'
    · intro logged hq
      cases hq
    · simp only [Log.committed, LogPlace.room_cleared, LogPlace.room_out]
      omega

theorem LogReach.roomInv (hsize : logSize < size) (h : LogReach size RoomLeft s) : RoomInv s := by
  induction h with
  | start => exact roomInv_start
  | @step s t e _ he hok hstep ih =>
    obtain ⟨t', hstep', ht'⟩ := logStep_spec hsize ih he hok
    rw [hstep] at hstep'
    cases hstep'
    exact ht'

/-- **The reservation suffices** in runs in which a block is logged again only while the log is not
full: no step panics or leaves the array of the header, and nothing is logged during a
commit. -/
theorem log_room (hsize : logSize < size) (h : LogReach size RoomLeft s) {e : LogEvent T}
    (he : e.Enabled s) (hok : RoomLeft s e) :
    (∃ t, logStep size s e = .ok t) ∧ ∀ t b, e = .logWrite t b → s.log.committing = false := by
  have hinv := h.roomInv hsize
  obtain ⟨t, hstep, -⟩ := logStep_spec hsize hinv he hok
  refine ⟨⟨t, hstep⟩, ?_⟩
  rintro t b rfl
  obtain ⟨logged, ht, -⟩ := he
  exact (hinv.not_committing ht).1

end

section

variable {T : Type} [DecidableEq T]

instance LogEvent.decidableEnabled (s : LogState T) : (e : LogEvent T) → Decidable (e.Enabled s)
  | .beginOp t => inferInstanceAs (Decidable (s.place t = .out ∧ s.log.admits))
  | .logWrite t b =>
    match hp : s.place t with
    | .inOp logged =>
      decidable_of_iff ((insert b logged).card ≤ maxOpBlocks)
        ⟨fun h => ⟨logged, hp, h⟩, fun ⟨_, hp', h⟩ => by
          obtain rfl := LogPlace.inOp.inj (hp.symm.trans hp')
          exact h⟩
    | .out | .committing | .cleared =>
      isFalse fun ⟨_, hp', _⟩ => by
        rw [hp] at hp'
        cases hp'
  | .endOp t =>
    match hp : s.place t with
    | .inOp logged => isTrue ⟨logged, hp⟩
    | .out | .committing | .cleared =>
      isFalse fun ⟨_, hp'⟩ => by
        rw [hp] at hp'
        cases hp'
  | .clear t => inferInstanceAs (Decidable (s.place t = .committing))
  | .committed t => inferInstanceAs (Decidable (s.place t = .cleared))

instance (s : LogState T) : (e : LogEvent T) → Decidable (RoomLeft s e)
  | .logWrite _ b => inferInstanceAs (Decidable (s.log.lh.length < logSize ∨ b ∉ s.log.lh))
  | .beginOp _ | .endOp _ | .clear _ | .committed _ => inferInstanceAs (Decidable True)

/-- Steps one after the other, as long as each can be taken and meets `RoomLeft`. -/
def runLog (size : ℕ) : List (LogEvent T) → LogState T → Option (LogState T)
  | [], s => some s
  | e :: l, s =>
    if e.Enabled s ∧ RoomLeft s e then (logStep size s e).toOption.bind (runLog size l) else none

theorem LogReach.of_runLog {size : ℕ} {l : List (LogEvent T)} {s t : LogState T}
    (h : LogReach size RoomLeft s) (hrun : runLog size l s = some t) : LogReach size RoomLeft t := by
  induction l generalizing s with
  | nil =>
    cases hrun
    exact h
  | cons e l ih =>
    unfold runLog at hrun
    split_ifs at hrun with hok
    cases hstep : logStep size s e with
    | error f =>
      rw [hstep] at hrun
      cases hrun
    | ok u =>
      rw [hstep] at hrun
      exact ih (h.step hok.1 hok.2 hstep) hrun

theorem LogReach.mono {size : ℕ} {ok ok' : LogState T → LogEvent T → Prop} {s : LogState T}
    (h : LogReach size ok s) (hok : ∀ s e, ok s e → ok' s e) : LogReach size ok' s := by
  induction h with
  | start => exact .start
  | step _ he hok' hstep ih => exact ih.step he (hok _ _ hok') hstep

end

/-- Three operations log ten blocks each. -/
def threeOps : List (LogEvent (Fin 3)) :=
  ((List.finRange 3).map .beginOp)
    ++ ((List.finRange 3).map fun t => (List.range 10).map fun b => .logWrite t (10 * t.val + b)).flatten

/-- With two blocks in the log, the first of them can be logged again. -/
theorem log_room_again :
    ∃ s : LogState (Fin 3), LogReach 31 RoomLeft s ∧ s.log.lh = [7, 8]
      ∧ ∃ t, logStep 31 s (.logWrite 0 7) = .ok t := by
  have hrun : (runLog 31 [.beginOp 0, .logWrite 0 7, .logWrite 0 8] (LogState.start (T := Fin 3))).any (fun s =>
      s.log.lh = [7, 8] ∧ (LogEvent.logWrite 0 7).Enabled s ∧ RoomLeft s (.logWrite 0 7)) = true := by
    decide +kernel
  obtain ⟨s, hs, hcheck⟩ := (Option.any_eq_true _ _).mp hrun
  obtain ⟨hlh, he, hok⟩ := of_decide_eq_true hcheck
  have hreach := LogReach.start.of_runLog hs
  exact ⟨s, hreach, hlh, (log_room (by decide) hreach he hok).1⟩

/-- **One too many**: three operations have filled the log with ten blocks each, and the first one
logs its first block again, which needs no room. -/
theorem log_write_panics :
    ∃ s : LogState (Fin 3), LogReach 31 (fun _ _ => True) s
      ∧ (LogEvent.logWrite 0 0).Enabled s ∧ 0 ∈ s.log.lh
      ∧ s.log.logWrite 31 0 = .error (.panic "too big a transaction") := by
  have hrun : (runLog 31 threeOps LogState.start).any (fun s =>
      (LogEvent.logWrite 0 0).Enabled s ∧ 0 ∈ s.log.lh
        ∧ s.log.logWrite 31 0 = .error (.panic "too big a transaction")) = true := by
    decide +kernel
  obtain ⟨s, hs, hcheck⟩ := (Option.any_eq_true _ _).mp hrun
  exact ⟨s, (LogReach.start.of_runLog hs).mono fun _ _ _ => trivial, of_decide_eq_true hcheck⟩

end Xv6
