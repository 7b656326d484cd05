/-
# The log on the disk: commits and crashes (`commit`, `recover_from_log`)

Blocks are written whole and in order, so a crash leaves the effect of the first writes.  Block
`tail` of the log is the one at `log.start + tail + 1`; the blocks that a header names are outside
of the log.
-/
import Mathlib

namespace Xv6.LogDisk

open Function

variable {β : Type}

/-- The header of the log, its other blocks, and the blocks of the file system. -/
structure Disk (β : Type) where
  head : List ℕ
  log : ℕ → β
  home : ℕ → β

/-- `bwrite` of one block. -/
inductive Write (β : Type) where
  | head (lh : List ℕ)
  | log (tail : ℕ) (data : β)
  | home (b : ℕ) (data : β)

def Disk.write (d : Disk β) : Write β → Disk β
  | .head lh => { d with head := lh }
  | .log tail data => { d with log := update d.log tail data }
  | .home b data => { d with home := update d.home b data }

def Disk.run (d : Disk β) (ws : List (Write β)) : Disk β := ws.foldl Disk.write d

def writeLog (cache : ℕ → β) (lh : List ℕ) : List (Write β) :=
  lh.mapIdx fun tail b => .log tail (cache b)

def installTrans (log : ℕ → β) (lh : List ℕ) : List (Write β) :=
  lh.mapIdx fun tail b => .home b (log tail)

/-- The writes of `commit()`. -/
def commit (d : Disk β) (cache : ℕ → β) (lh : List ℕ) : List (Write β) :=
  if lh = [] then []
  else writeLog cache lh ++ .head lh ::
    (installTrans (d.run (writeLog cache lh)).log lh ++ [.head []])

/-- The writes of `recover_from_log()`. -/
def recover (d : Disk β) : List (Write β) := installTrans d.log d.head ++ [.head []]

/-- A transaction commits, or the machine crashes after `k` writes of `commit`, and again in each of
the recoveries `ks`, until one is complete. -/
inductive Event (β : Type) where
  | commit (cache : ℕ → β) (lh : List ℕ)
  | crash (cache : ℕ → β) (lh : List ℕ) (k : ℕ) (ks : List ℕ)

def Disk.step (d : Disk β) : Event β → Disk β
  | .commit cache lh => d.run (commit d cache lh)
  | .crash cache lh k ks =>
    let d' := ks.foldl (fun d k => d.run ((recover d).take k)) (d.run ((commit d cache lh).take k))
    d'.run (recover d')

def install (cache : ℕ → β) (lh : List ℕ) (home : ℕ → β) : ℕ → β :=
  fun b => if b ∈ lh then cache b else home b

/-- What the log is for: all of a transaction, or nothing of it if its header is not written. -/
def atomicStep (home : ℕ → β) : Event β → ℕ → β
  | .commit cache lh => install cache lh home
  | .crash cache lh k _ => if lh.length < k then install cache lh home else home

/-- A recovery would make the file system `target`. -/
def Recovers (target : ℕ → β) (d : Disk β) : Prop :=
  ∃ cache, (∀ t b, d.head[t]? = some b → d.log t = cache b) ∧ install cache d.head d.home = target

variable {d : Disk β} {target : ℕ → β} (cache : ℕ → β) (lh : List ℕ)

@[simp] theorem install_nil (home : ℕ → β) : install cache [] home = home :=
  funext fun b => if_neg (List.not_mem_nil (a := b))

theorem run_append (d : Disk β) (ws ws' : List (Write β)) :
    d.run (ws ++ ws') = (d.run ws).run ws' :=
  List.foldl_append

theorem run_writeLog (d : Disk β) :
    d.run (writeLog cache lh) = { d with log := fun t => (lh[t]?.map cache).getD (d.log t) } := by
  induction lh using List.reverseRecOn with
  | nil => rfl
  | append_singleton lh b ih =>
    unfold writeLog at ih ⊢
    rw [List.mapIdx_append, run_append, ih]
    refine congrArg (Disk.mk _ · _) (funext fun t => ?_)
    simp only [List.getElem?_append, update_apply]
    grind

/-- Installing a list of blocks of which the log has the contents. -/
theorem run_home (d : Disk β) :
    d.run (lh.map fun b => .home b (cache b)) = { d with home := install cache lh d.home } := by
  induction lh generalizing d with
  | nil => rw [install_nil]; rfl
  | cons b lh ih =>
    refine (ih _).trans (congrArg (Disk.mk _ _) (funext fun c => ?_))
    by_cases hc : c = b <;> simp [install, Disk.write, hc]

theorem recover_eq {cache : ℕ → β} (hlog : ∀ t b, d.head[t]? = some b → d.log t = cache b) :
    recover d = (d.head.map fun b => .home b (cache b)) ++ [.head []] := by
  refine congrArg (· ++ [Write.head []]) (List.ext_getElem? fun t => ?_)
  cases ht : d.head[t]? with
  | none => simp [installTrans, ht]
  | some b => simp [installTrans, ht, hlog t b ht]

theorem recovers_clear (h : d.head = []) : Recovers d.home d :=
  ⟨d.home, by simp [h], by rw [h, install_nil]⟩

theorem Recovers.run (h : Recovers target d) :
    (d.run (recover d)).head = [] ∧ (d.run (recover d)).home = target := by
  obtain ⟨cache, hlog, htarget⟩ := h
  rw [recover_eq hlog, run_append, run_home]
  exact ⟨rfl, htarget⟩

/-- A recovery that is cut off is one that can be made again. -/
theorem Recovers.take (h : Recovers target d) (k : ℕ) :
    Recovers target (d.run ((recover d).take k)) := by
  by_cases hk : k < (recover d).length
  · obtain ⟨cache, hlog, htarget⟩ := h
    rw [recover_eq hlog, List.length_append, List.length_map, List.length_singleton] at hk
    rw [recover_eq hlog, List.take_append_of_le_length (by simp; omega), ← List.map_take, run_home]
    refine ⟨cache, hlog, htarget ▸ funext fun b => ?_⟩
    have := List.mem_of_mem_take (a := b) (i := k) (l := d.head)
    simp only [install]
    split_ifs <;> tauto
  · rw [List.take_of_length_le (not_lt.mp hk)]
    exact h.run.2 ▸ recovers_clear h.run.1

theorem recovers_written (d : Disk β) :
    Recovers (install cache lh d.home) ((d.run (writeLog cache lh)).write (.head lh)) := by
  rw [run_writeLog]
  exact ⟨cache, fun t b hb => by simp only [Disk.write] at hb ⊢; simp [hb], rfl⟩

/-- After any number of writes of `commit` it is decided what a recovery gives. -/
theorem commit_take (h : d.head = []) (k : ℕ) :
    Recovers (if lh.length < k then install cache lh d.home else d.home)
      (d.run ((commit d cache lh).take k)) := by
  by_cases hlh : lh = []
  · subst hlh
    simpa [commit, Disk.run] using recovers_clear h
  rw [commit, if_neg hlh]
  split_ifs with hk
  · -- the rest of `commit` is what a recovery does
    have hlen : (writeLog cache lh).length = lh.length := List.length_mapIdx
    obtain ⟨m, rfl⟩ : ∃ m, k = lh.length + (m + 1) := ⟨k - lh.length - 1, by omega⟩
    rw [← hlen, List.take_length_add_append, List.take_succ_cons, run_append]
    exact (recovers_written cache lh d).take m
  · have htake : (writeLog cache lh).take k = writeLog cache (lh.take k) := by
      apply List.ext_getElem?
      intro t
      simp only [writeLog, List.getElem?_take, List.getElem?_mapIdx]
      split_ifs <;> rfl
    rw [List.take_append_of_le_length (by simpa [writeLog] using hk), htake, run_writeLog]
    exact recovers_clear (d := { d with log := _ }) h

theorem step_atomic (h : d.head = []) (e : Event β) :
    (d.step e).head = [] ∧ (d.step e).home = atomicStep d.home e := by
  cases e with
  | commit cache lh =>
    by_cases hlh : lh = []
    · subst hlh
      exact ⟨h, by simp [Disk.step, commit, Disk.run, atomicStep]⟩
    · simp only [Disk.step, commit, if_neg hlh, run_append]
      exact (recovers_written cache lh d).run
  | crash cache lh k ks =>
    refine Recovers.run (List.foldlRecOn ks _ (commit_take cache lh h k) ?_)
    exact fun d hd k _ => hd.take k

/-- However commits and crashes follow each other, the file system has gone through whole
transactions only: those whose header was written. -/
theorem log_runs_atomic (log home : ℕ → β) (events : List (Event β)) :
    (events.foldl Disk.step ⟨[], log, home⟩).head = []
      ∧ (events.foldl Disk.step ⟨[], log, home⟩).home = events.foldl atomicStep home := by
  induction events using List.reverseRecOn with
  | nil => exact ⟨rfl, rfl⟩
  | append_singleton events e ih =>
    simp only [List.foldl_append, List.foldl_cons, List.foldl_nil]
    rw [← ih.2]
    exact step_atomic ih.1 e

end Xv6.LogDisk
