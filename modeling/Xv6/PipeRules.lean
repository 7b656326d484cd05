/-
# What the code of a pipe keeps to

A pipe is a ring: `Pipe.buffered` lists the bytes in it in the order in which they are read.  The
rules for `pipewrite`, `piperead` and `pipeclose` are proved once, for two purposes:
without conditions on the channels they say that no byte is lost (`watch = false`), and with
them that no wakeup is (`watch = true`).  For the latter, `killed` may not find a writer
marked that has put in bytes and has not woken up the readers.
-/
import Xv6.PipeModel
import Xv6.SleepCalls

namespace Xv6.Sleep

open Function LockLang

/-! ## The ring -/

/-- `nwrite - nread`, in 32 bits. -/
def Pipe.count (pi : Pipe) : ℕ := (pi.nwrite + 2 ^ 32 - pi.nread) % 2 ^ 32

/-- The bytes in the pipe, in the order in which they are read. -/
def Pipe.buffered (pi : Pipe) : List UInt8 :=
  (List.range pi.count).map fun j => pi.data ((pi.nread + j) % 2 ^ 32 % pipeSize)

/-- The counters have 32 bits, and are not further apart than the ring is long. -/
structure Pipe.Wf (pi : Pipe) : Prop where
  nread_lt : pi.nread < 2 ^ 32
  nwrite_lt : pi.nwrite < 2 ^ 32
  count_le : pi.count ≤ pipeSize

theorem Pipe.Wf.isEmpty_iff {pi : Pipe} (h : pi.Wf) : pi.isEmpty = true ↔ pi.count = 0 := by
  have hr := h.nread_lt
  have hw := h.nwrite_lt
  simp only [Pipe.isEmpty, Pipe.count, decide_eq_true_eq]
  omega

theorem Pipe.Wf.isFull_iff {pi : Pipe} (h : pi.Wf) : pi.isFull = true ↔ pi.count = pipeSize := by
  have hr := h.nread_lt
  have hw := h.nwrite_lt
  rw [Pipe.isFull, decide_eq_true_iff]
  simp only [Pipe.count, pipeSize]
  omega

section

variable {pi : Pipe} {ch : UInt8}

theorem Pipe.Wf.count_put (h : pi.Wf) (hfull : pi.isFull = false) (ch : UInt8) :
    pi.count < pipeSize ∧ (pi.put ch).count = pi.count + 1 := by
  have hr := h.nread_lt
  have hw := h.nwrite_lt
  have hc := h.count_le
  have hne : pi.count ≠ pipeSize := fun heq => by simp [h.isFull_iff.mpr heq] at hfull
  simp only [Pipe.put, Pipe.count, pipeSize] at hc hne ⊢
  omega

theorem Pipe.Wf.put (h : pi.Wf) (hfull : pi.isFull = false) : (pi.put ch).Wf := by
  obtain ⟨hlt, hcount⟩ := h.count_put hfull ch
  refine ⟨h.nread_lt, Nat.mod_lt _ (by decide), ?_⟩
  omega

/-- A byte that is put in comes last. -/
theorem Pipe.Wf.buffered_put (h : pi.Wf) (hfull : pi.isFull = false) :
    (pi.put ch).buffered = pi.buffered ++ [ch] := by
  have hr := h.nread_lt
  have hw := h.nwrite_lt
  obtain ⟨hlt, hcount⟩ := h.count_put hfull ch
  simp only [Pipe.buffered, hcount, List.range_succ, List.map_append, List.map_cons, List.map_nil]
  congr 1
  · -- the bytes already there are at other places
    refine List.map_congr_left fun j hj => ?_
    rw [List.mem_range] at hj
    refine update_of_ne ?_ _ _
    simp only [Pipe.put, Pipe.count, pipeSize] at hj hlt ⊢
    omega
  · have hplace : ((pi.put ch).nread + pi.count) % 2 ^ 32 % pipeSize = pi.nwrite % pipeSize := by
      simp only [Pipe.put, Pipe.count, pipeSize]
      omega
    rw [hplace]
    simp only [Pipe.put, update_self]

theorem Pipe.Wf.count_next (h : pi.Wf) (hempty : pi.isEmpty = false) : pi.count = pi.next.count + 1 := by
  have hr := h.nread_lt
  have hw := h.nwrite_lt
  have hne : pi.count ≠ 0 := fun heq => by simp [h.isEmpty_iff.mpr heq] at hempty
  simp only [Pipe.next, Pipe.count] at hne ⊢
  omega

theorem Pipe.Wf.next (h : pi.Wf) (hempty : pi.isEmpty = false) : pi.next.Wf := by
  have hcount := h.count_next hempty
  have hc := h.count_le
  refine ⟨Nat.mod_lt _ (by decide), h.nwrite_lt, ?_⟩
  omega

/-- The byte that is read is the first one. -/
theorem Pipe.Wf.buffered_next (h : pi.Wf) (hempty : pi.isEmpty = false) :
    pi.buffered = pi.head :: pi.next.buffered := by
  have hr := h.nread_lt
  simp only [Pipe.buffered, h.count_next hempty, List.range_succ_eq_map, List.map_cons, List.map_map]
  congr 1
  · simp only [Pipe.head, Nat.add_zero, Nat.mod_eq_of_lt hr]
  · refine List.map_congr_left fun j _ => ?_
    simp only [comp_apply, Pipe.next]
    congr 1
    simp only [pipeSize]
    omega

end

variable {N : ℕ}

/-- What always holds: if the user buffers are valid, the pipe is a queue. -/
structure PipeUse.Good (faults : Bool) (u : PipeUse N) : Prop where
  wf : u.pipe.Wf
  fifo : faults = false → u.accepted = u.delivered ++ u.pipe.buffered

section

variable {faults : Bool} {u : PipeUse N} {p : Fin N}

theorem PipeUse.Good.put (h : u.Good faults) (hfull : u.pipe.isFull = false) (ch : UInt8) :
    (u.put p ch).Good faults := by
  refine ⟨h.wf.put hfull, fun hf => ?_⟩
  simp only [PipeUse.put, h.wf.buffered_put hfull, h.fifo hf, List.append_assoc]

theorem PipeUse.Good.get (h : u.Good faults) (hempty : u.pipe.isEmpty = false) :
    (u.get p).Good faults := by
  refine ⟨h.wf.next hempty, fun hf => ?_⟩
  simp only [PipeUse.get, h.fifo hf, h.wf.buffered_next hempty, List.append_assoc, List.singleton_append]

theorem PipeUse.Good.lose (h : u.Good faults) (hempty : u.pipe.isEmpty = false)
    (hfaults : faults = true) : u.lose.Good faults := by
  refine ⟨h.wf.next hempty, fun hf => ?_⟩
  rw [hf] at hfaults
  cases hfaults

end

theorem good_pipeUse₀ (faults : Bool) (data : ℕ → UInt8) : (pipeUse₀ N data).Good faults := by
  refine ⟨⟨?_, ?_, ?_⟩, fun _ => ?_⟩
  all_goals simp [pipeUse₀, newPipe, Pipe.buffered, Pipe.count]

/-! ## The outline -/

/-- What is waited for: readers wait for a byte or the end of writing, writers for space or the end of
reading. -/
def pipeCond (watch : Bool) : PipeChan → PipeUse N → Bool
  | .nread, u => watch && (!u.pipe.isEmpty || !u.pipe.writeopen)
  | .nwrite, u => watch && (!u.pipe.isFull || !u.pipe.readopen)
  | .other, _ => false

/-- `killed` does not find a process marked while bytes have been put in that the readers have not been
woken up for. -/
def TimelyUse (watch : Bool) (d : Table N PipeChan (PipeUse N)) (use : Use N) : Prop :=
  watch = true → ∀ p, use = ⟨.proc p, .killed⟩ → (d.slot p).killed = true → d.user.fresh = false

abbrev pipeOutline (N : ℕ) (faults watch : Bool) :
    Outline (Table N PipeChan (PipeUse N)) (Use N) (Lock N) (Fin N) (View N PipeChan (PipeUse N)) :=
  outline .other (pipeCond watch) (PipeUse.Good faults) (TimelyUse watch)

/-- With `pi->lock`, and debts on one channel at most. -/
def OwesOnly (k : PipeChan) (v : View N PipeChan (PipeUse N)) : Prop :=
  ∃ x, v = .inside x ∧ ∀ u, x.known u → ∀ k' q, x.debts k' q → k' = k

/-- With `pi->lock`, and no debts. -/
def OwesNone (v : View N PipeChan (PipeUse N)) : Prop :=
  ∃ x, v = .inside x ∧ ∀ u, x.known u → ∀ k q, ¬ x.debts k q

/-- In the loop of `pipewrite`: debts are readers that wait for bytes put in since; the read end is open
then. -/
def Writing (v : View N PipeChan (PipeUse N)) : Prop :=
  ∃ x, v = .inside x ∧ ∀ u, x.known u →
    (∀ k q, x.debts k q → k = .nread ∧ u.fresh = true) ∧ (u.fresh = true → u.pipe.readopen = true)

theorem owesNone_start (good : PipeUse N → Prop) :
    OwesNone (.inside ⟨fun _ _ => False, good⟩ : View N PipeChan (PipeUse N)) :=
  ⟨_, rfl, fun _ _ _ _ h => h⟩

/-- A `wakeup` of the only channel with debts leaves none. -/
theorem OwesOnly.owes {k : PipeChan} {v : View N PipeChan (PipeUse N)} (h : OwesOnly k v) :
    OwesNone (v.owes k []) := by
  obtain ⟨x, rfl, hx⟩ := h
  refine ⟨_, rfl, fun u hu k' q hd => ?_⟩
  exact absurd (hd.2 (hx u hu k' q hd.1)) List.not_mem_nil

section

variable {faults watch : Bool} {p : Fin N} {me : Option (Fin N)} {x : Charge N PipeChan (PipeUse N)}
  {Q B : View N PipeChan (PipeUse N) → Prop} {v : View N PipeChan (PipeUse N)}

theorem know_returnPipe
    (hdebts : ∀ u, u.Good faults → x.known u → ∀ k q, pipeCond watch k u = true → ¬ x.debts k q)
    (hB : B .out) :
    know (pipeSystem N faults) (pipeOutline N faults watch) me returnPipe Q B (.inside x) := by
  refine know_cons (m := .out) ?_ (know_last hB)
  exact turns_releaseGuard rfl hdebts fun k (hk : none = some k) => by cases hk

/-- An assignment to local variables and history. -/
theorem know_setLocal {f : PipeUse N → PipeUse N} {y : Charge N PipeChan (PipeUse N)}
    (hgood : ∀ u : PipeUse N, u.Good faults → (f u).Good faults) (hpipe : ∀ u, (f u).pipe = u.pipe)
    (hdebts : ∀ k q, x.debts k q → y.debts k q) (hknown : ∀ u, x.known u → y.known (f u))
    (hQ : Q (.inside y)) :
    know (pipeSystem N faults) (pipeOutline N faults watch) me (setUser f) Q B (.inside x) := by
  have hcond : ∀ k (u : PipeUse N), pipeCond watch k (f u) = pipeCond watch k u := by
    intro k u
    cases k <;> simp only [pipeCond, hpipe]
  refine know_assign rfl fun d _ hd hx => ⟨hgood _ hd, y, hknown _ hx, hQ, fun k q hk => ?_⟩
  refine ⟨fun _ hdebt => hdebts k q hdebt, fun hfalse => ?_⟩
  rw [hcond, hfalse] at hk
  cases hk

theorem know_writeDone (hv : OwesOnly .nread v) (hB : B .out) :
    know (pipeSystem N faults) (pipeOutline N faults watch) (some p) (writeDone p) Q B v := by
  obtain ⟨y, hy, hnone⟩ := hv.owes
  obtain ⟨x, rfl, -⟩ := hv
  refine know_cons (turns_wakeup PipeChan.nread rfl) ?_
  rw [hy]
  refine know_head (know_setLocal (y := ⟨y.debts, fun u => ∃ u₀, y.known u₀⟩) ?_ ?_ ?_ ?_ ?_)
  · exact fun u hu => ⟨hu.wf, hu.fifo⟩
  · exact fun u => rfl
  · exact fun _ _ h => h
  · exact fun u hu => ⟨u, hu⟩
  · refine know_last (know_returnPipe ?_ hB)
    rintro u - ⟨u₀, hu₀⟩ k q -
    exact hnone u₀ hu₀ k q

theorem know_writeByte (hdebts : ∀ u, x.known u → ∀ k q, x.debts k q → k = .nread)
    (hopen : ∀ u, x.known u → u.pipe.readopen = true) (hB : B .out) :
    know (pipeSystem N faults) (pipeOutline N faults watch) (some p) (writeByte faults p) Writing B
      (.inside x) := by
  refine know_ifUser rfl ?_ fun b => ?_
  · -- the pipe is full, and stays so until the writer sleeps
    refine know_cons (turns_wakeup PipeChan.nread rfl) ?_
    refine know_head (know_setLocal
      (y := ⟨fun k q => x.debts k q ∧ (k = .nread → q ∈ []),
        fun u => ∃ u₀, (x.known u₀ ∧ u₀.pipe.isFull = true) ∧ u.pipe = u₀.pipe⟩) ?_ ?_ ?_ ?_ ?_)
    · exact fun u hu => ⟨hu.wf, hu.fifo⟩
    · exact fun u => rfl
    · exact fun _ _ h => h
    · exact fun u hu => ⟨u, hu, rfl⟩
    refine know_cons (turns_sleep p PipeChan.nwrite ?_ ?_) ?_
    · rintro u - ⟨u₀, ⟨hu₀, -⟩, -⟩ k q - hd
      exact absurd (hd.2 (hdebts u₀ hu₀ k q hd.1)) List.not_mem_nil
    · rintro u - ⟨u₀, ⟨hu₀, hfull⟩, hpipe⟩
      simp [pipeCond, hpipe, hfull, hopen u₀ hu₀]
    · refine know_last (know_setLocal (y := ⟨fun _ _ => False, fun u => u.fresh = false⟩) ?_ ?_ ?_ ?_ ?_)
      · exact fun u hu => ⟨hu.wf, hu.fifo⟩
      · exact fun u => rfl
      · exact fun _ _ h => h
      · exact fun u _ => rfl
      · refine ⟨_, rfl, fun u hu => ⟨fun _ _ h => h.elim, fun hfresh => ?_⟩⟩
        rw [hu] at hfresh
        cases hfresh
  · beta_reduce
    split_ifs
    · exact know_writeDone ⟨_, rfl, fun u hu k q hd => hdebts u hu.1 k q hd⟩ hB
    · refine know_assign rfl ?_
      rintro d - hgood ⟨hd, hfull⟩
      have hread : d.user.pipe.readopen = true := hopen _ hd
      refine ⟨hgood.put hfull _,
        ⟨fun k _ => k = .nread, fun u => u.fresh = true ∧ u.pipe.readopen = true⟩, ⟨rfl, hread⟩, ?_, ?_⟩
      · exact ⟨_, rfl, fun u hu => ⟨fun k _ hk => ⟨hk, hu.1⟩, fun _ => hu.2⟩⟩
      · intro k q hk
        refine ⟨fun _ hdebt => hdebts _ hd k q hdebt, fun hfalse => ?_⟩
        -- the pipe was not full, so writers did not wait before either
        cases k with
        | nread => rfl
        | nwrite =>
          simp only [pipeCond, hfull, Bool.not_false, Bool.true_or, Bool.and_true] at hfalse
          simp [pipeCond, hfalse] at hk
        | other => cases hk

theorem turns_pipewrite (n : ℕ) :
    Turns (pipeSystem N faults) (pipeOutline N faults watch) (some p) (pipewrite faults p n) .out .out := by
  intro Q B hq
  refine know_cons (m := .inside ⟨fun _ _ => False, PipeUse.Good faults⟩) (turns_acquireGuard .caller rfl) ?_
  refine know_head (know_setLocal (y := ⟨fun _ _ => False, fun u => u.fresh = false⟩) ?_ ?_ ?_ ?_ ?_)
  · exact fun u hu => ⟨hu.wf, hu.fifo⟩
  · exact fun u => rfl
  · exact fun _ _ h => h
  · exact fun u _ => rfl
  refine know_last ⟨Writing, ?_, ?_⟩
  · refine ⟨_, rfl, fun u hu => ⟨fun _ _ h => h.elim, fun hfresh => ?_⟩⟩
    rw [hu] at hfresh
    cases hfresh
  rintro _ ⟨x, rfl, hx⟩
  refine know_ifUser rfl (know_ifUser rfl ?_ (know_head (know_killed p ?_))) ?_
  · -- the read end is closed, so no byte has been put in since
    refine know_returnPipe ?_ hq
    rintro u - ⟨⟨hu, -⟩, hclosed⟩ k q - hd
    have hopen := (hx u hu).2 ((hx u hu).1 k q hd).2
    simp [hopen] at hclosed
  · rintro d htimely hgood ⟨⟨hd, -⟩, hopen⟩
    refine ⟨⟨hgood.wf, hgood.fifo⟩, fun k hk => by cases k <;> exact hk, ?_⟩
    refine know_last (know_ifUser rfl (know_returnPipe ?_ hq) (know_writeByte ?_ ?_ hq))
    · -- killed: no byte has been put in since either
      rintro u - ⟨rfl, hk⟩ k q hcond hdebt
      have hwatch : watch = true := by
        cases k <;> simp [pipeCond] at hcond <;> exact hcond.1
      have hkilled : (d.slot p).killed = true := by
        simpa [PipeUse.setKilled] using hk
      have hfresh := htimely hwatch p rfl hkilled
      rw [((hx _ hd).1 k q hdebt).2] at hfresh
      cases hfresh
    · rintro u ⟨rfl, -⟩ k q hdebt
      exact ((hx _ hd).1 k q hdebt).1
    · rintro u ⟨rfl, -⟩
      show d.user.pipe.readopen = true
      simpa using hopen
  · exact know_writeDone ⟨_, rfl, fun u hu k q hd => ((hx u hu.1).1 k q hd).1⟩ hq

/-- While there are bytes in the pipe, only writers wait. -/
theorem eq_nwrite_of_cond {u u' : PipeUse N} (hempty : u.pipe.isEmpty = false) {k : PipeChan}
    (hk : pipeCond watch k u' = true) (hfalse : pipeCond watch k u = false) : k = .nwrite := by
  cases k with
  | nread =>
    simp only [pipeCond, hempty, Bool.not_false, Bool.true_or, Bool.and_true] at hfalse
    simp [pipeCond, hfalse] at hk
  | nwrite => rfl
  | other => cases hk

theorem know_readBytes (n : ℕ) (hv : OwesOnly .nwrite v) (hQ : ∀ v, OwesOnly .nwrite v → Q v) :
    know (pipeSystem N faults) (pipeOutline N faults watch) (some p) (readBytes faults p n) Q B v := by
  refine ⟨OwesOnly .nwrite, hv, ?_⟩
  rintro _ ⟨x, rfl, hx⟩
  have hmore : ∀ K : PipeUse N → Prop, (∀ u, K u → x.known u) →
      OwesOnly .nwrite (.inside { x with known := K } : View N PipeChan (PipeUse N)) :=
    fun K hK => ⟨_, rfl, fun u hu => hx u (hK u hu)⟩
  have hnwrite : OwesOnly .nwrite
      (.inside ⟨fun k _ => k = .nwrite, fun _ => True⟩ : View N PipeChan (PipeUse N)) :=
    ⟨_, rfl, fun _ _ _ _ hk => hk⟩
  refine know_ifUser rfl (know_ifUser rfl ?_ fun b => ?_) ?_
  · exact hQ _ (hmore _ fun u hu => hu.1.1)
  · beta_reduce
    split_ifs with hb
    · refine know_head (know_assign rfl ?_)
      rintro d - hgood ⟨⟨hd, -⟩, hempty⟩
      have hfaults : faults = true := by
        simp only [Bool.and_eq_true] at hb
        exact hb.1
      refine ⟨hgood.lose hempty hfaults, ⟨fun k _ => k = .nwrite, fun _ => True⟩, trivial,
        know_last (hQ _ hnwrite), fun k q hk => ⟨fun _ hdebt => hx _ hd k q hdebt, fun hfalse => ?_⟩⟩
      exact eq_nwrite_of_cond hempty hk hfalse
    · refine know_assign rfl ?_
      rintro d - hgood ⟨⟨hd, -⟩, hempty⟩
      refine ⟨hgood.get hempty, ⟨fun k _ => k = .nwrite, fun _ => True⟩, trivial, hnwrite,
        fun k q hk => ⟨fun _ hdebt => hx _ hd k q hdebt, fun hfalse => ?_⟩⟩
      exact eq_nwrite_of_cond hempty hk hfalse
  · exact hQ _ (hmore _ fun u hu => hu.1)

theorem turns_piperead (n : ℕ) :
    Turns (pipeSystem N faults) (pipeOutline N faults watch) (some p) (piperead faults p n) .out .out := by
  intro Q B hq
  refine know_cons (m := .inside ⟨fun _ _ => False, PipeUse.Good faults⟩) (turns_acquireGuard .caller rfl) ?_
  refine know_last ⟨OwesNone, owesNone_start _, ?_⟩
  rintro _ ⟨x, rfl, hx⟩
  refine know_ifUser rfl (know_head (know_killed p ?_)) ?_
  · rintro d - hgood ⟨hd, hempty⟩
    refine ⟨⟨hgood.wf, hgood.fifo⟩, fun k hk => by cases k <;> exact hk, ?_⟩
    refine know_last (know_ifUser rfl (know_returnPipe ?_ hq) ?_)
    · rintro u - ⟨rfl, -⟩ k q -
      exact hx _ hd k q
    · refine turns_sleep p PipeChan.nread ?_ ?_ _ _ (owesNone_start _)
      · rintro u - ⟨rfl, -⟩ k q -
        exact hx _ hd k q
      · rintro u - ⟨rfl, -⟩
        simp only [Bool.and_eq_true] at hempty
        simp [pipeCond, PipeUse.setKilled, hempty.1, hempty.2]
  · refine know_head (know_setLocal (y := ⟨x.debts, fun u => ∃ u₀, x.known u₀⟩) ?_ ?_ ?_ ?_ ?_)
    · exact fun u hu => ⟨hu.wf, hu.fifo⟩
    · exact fun u => rfl
    · exact fun _ _ h => h
    · exact fun u hu => ⟨u, hu.1⟩
    · refine know_head (know_readBytes n ?_ ?_)
      · refine ⟨_, rfl, ?_⟩
        rintro u ⟨u₀, hu₀⟩ k q hd
        exact absurd hd (hx u₀ hu₀ k q)
      · intro v hv
        obtain ⟨y, hy, hnone⟩ := hv.owes
        obtain ⟨z, rfl, -⟩ := hv
        refine know_cons (turns_wakeup PipeChan.nwrite rfl) ?_
        rw [hy]
        exact know_last (know_returnPipe (fun u _ hu k q _ => hnone u hu k q) hq)

/-- An end of the pipe is closed, and the other side is woken up. -/
theorem turns_closeEnd {f : PipeUse N → PipeUse N} {k : PipeChan}
    (hgood : ∀ u : PipeUse N, u.Good faults → (f u).Good faults)
    (hcond : ∀ k' u, k' ≠ k → pipeCond watch k' (f u) = pipeCond watch k' u) :
    Turns (pipeSystem N faults) (pipeOutline N faults watch) (some p)
      (.block [setUser f, wakeup (some p) k]) (.inside ⟨fun _ _ => False, PipeUse.Good faults⟩)
      (View.owes (.inside ⟨fun k' _ => k' = k, fun _ => True⟩) k []) := by
  have hset : Turns (pipeSystem N faults) (pipeOutline N faults watch) (some p) (setUser f)
      (.inside ⟨fun _ _ => False, PipeUse.Good faults⟩) (.inside ⟨fun k' _ => k' = k, fun _ => True⟩) := by
    intro Q B hq
    refine know_assign rfl fun d _ hd _ => ⟨hgood _ hd, _, trivial, hq, fun k' q hk => ?_⟩
    refine ⟨fun _ h => h.elim, fun hfalse => ?_⟩
    by_contra hne
    rw [hcond k' d.user hne, hfalse] at hk
    cases hk
  exact hset.cons ((turns_wakeup k rfl).cons Turns.nil)

theorem turns_pipeclose (writable : Bool) :
    Turns (pipeSystem N faults) (pipeOutline N faults watch) (some p) (pipeclose p writable) .out .out := by
  have hlock : Turns (pipeSystem N faults) (pipeOutline N faults watch) (some p) lockPipe .out
      (.inside ⟨fun _ _ => False, PipeUse.Good faults⟩) := turns_acquireGuard .caller rfl
  have hrelease : ∀ k : PipeChan, Turns (pipeSystem N faults) (pipeOutline N faults watch) (some p)
      (.release (.guard .other)) (View.owes (.inside ⟨fun k' _ => k' = k, fun _ => True⟩) k []) .out := by
    intro k
    refine turns_releaseGuard rfl ?_ fun k (hk : none = some k) => by cases hk
    rintro u - - k' q - ⟨hk', hleft⟩
    exact absurd (hleft hk') List.not_mem_nil
  cases writable with
  | true =>
    refine hlock.cons ((turns_closeEnd (f := .closeWrite) (k := .nread)
      (fun u hu => ⟨⟨hu.wf.1, hu.wf.2, hu.wf.3⟩, hu.fifo⟩) ?_).cons ((hrelease .nread).cons Turns.nil))
    intro k u hk
    cases k with
    | nread => exact absurd rfl hk
    | nwrite => rfl
    | other => rfl
  | false =>
    refine hlock.cons ((turns_closeEnd (f := .closeRead) (k := .nwrite)
      (fun u hu => ⟨⟨hu.wf.1, hu.wf.2, hu.wf.3⟩, hu.fifo⟩) ?_).cons ((hrelease .nwrite).cons Turns.nil))
    intro k u hk
    cases k with
    | nread => rfl
    | nwrite => exact absurd rfl hk
    | other => rfl

/-! ## Processes -/

theorem turns_pipeCall (m n : ℕ) :
    Turns (pipeSystem N faults) (pipeOutline N faults watch) (some p) (pipeCall faults p m n) .out .out := by
  match n with
  | 0 => exact turns_pipewrite m
  | 1 => exact turns_piperead m
  | 2 => exact turns_pipeclose true
  | 3 => exact turns_pipeclose false
  | 4 =>
    simp only [pipeCall]
    split_ifs
    · exact turns_kill _ rfl
    · exact Turns.skip
  | 5 => exact turns_yield p
  | n + 6 => exact turns_wakeup PipeChan.other rfl

theorem know_pipeProcess (p : Fin N) :
    know (pipeSystem N faults) (pipeOutline N faults watch) (some p) (pipeProcess faults p) (fun _ => True)
      (fun _ => False) (.ofGrip ⟨p, fun x => x.state = .running, false, none⟩) := by
  refine know_cons (m := .out) (turns_releaseProc (g := ⟨p, _, false, none⟩) rfl fun _ _ h => h) ?_
  refine know_last ?_
  exact Turns.forever (m := .out) (Turns.any fun n => turns_pipeCall (n / 7) (n % 7)) _ _ trivial

theorem turns_pipeTrap :
    Turns (pipeSystem N faults) (pipeOutline N faults watch) me (pipeTrap me) .out .out := by
  refine Turns.any fun n => ?_
  split_ifs
  · cases me with
    | none => exact Turns.skip
    | some p => exact fun Q B hq => know_ite (turns_yield p Q B hq) (Turns.skip Q B hq)
  · exact turns_wakeup PipeChan.other rfl

end

end Xv6.Sleep
