/-
# The list of buffers in every run (`kernel/bio.c`)

Only `brelse` moves a buffer, and only when its count drops to `0`.  So the buffers without
references stand in the list in the order in which they lost their last one, most recent first, and
`bget` finds the oldest at the end (`bcache_integrity`).  The counts are numbers of 32 bits: with
`2 ^ 32` references to one buffer they go wrong (`bcache_overflow`).
-/
import Xv6.BcacheModel

namespace Xv6.Bcache

open Function LinkedRing

variable {c c' : Cache} {s s' : Run} {m : List (Fin nbuf)} {b : Fin nbuf} {dev blockno : UInt32}

/-! ## The loops of `bget` -/

/-- A loop along a path finds the first buffer of the path. -/
theorem scan_path {link : Node → Node} {p : Fin nbuf → Bool} {x : Node} {fuel : ℕ}
    (hpath : Path link x (m.map some) none) (hfuel : m.length < fuel) :
    scan link p fuel (link x) = .ok (m.find? p) := by
  induction m generalizing x fuel with
  | nil =>
    obtain ⟨fuel, rfl⟩ := Nat.exists_eq_succ_of_ne_zero (Nat.ne_of_gt hfuel)
    have hend : link x = none := hpath
    rw [hend]
    rfl
  | cons a m ih =>
    obtain ⟨fuel, rfl⟩ := Nat.exists_eq_succ_of_ne_zero (Nat.ne_of_gt (Nat.zero_lt_of_lt hfuel))
    obtain ⟨hfirst, hrest⟩ : link x = some a ∧ Path link (some a) (m.map some) none := hpath
    rw [hfirst, scan, List.find?_cons]
    split_ifs with hp
    · rw [hp]
    · rw [ih hrest (by simpa using hfuel)]
      simp [hp]

/-- The list of buffers, most recently used first. -/
structure Listed (c : Cache) (m : List (Fin nbuf)) : Prop where
  ring : Ring c.links none (m.map some)
  all : ∀ b, b ∈ m

theorem Listed.nodup (h : Listed c m) : m.Nodup :=
  (List.nodup_cons.mp h.ring.nodup).2.of_map

theorem Listed.length (h : Listed c m) : m.length = nbuf := by
  have hperm : m.Perm (List.finRange nbuf) := by
    rw [List.perm_ext_iff_of_nodup h.nodup (List.nodup_finRange nbuf)]
    exact fun b => iff_of_true (h.all b) (List.mem_finRange b)
  rw [hperm.length_eq, List.length_finRange]

/-- The buffer has the block. -/
def Carries (c : Cache) (dev blockno : UInt32) (b : Fin nbuf) : Prop :=
  c.dev b = dev ∧ c.blockno b = blockno

/-- What `bget` can do: it finds the block, or takes the last buffer without references. -/
inductive Got (c : Cache) (m : List (Fin nbuf)) (dev blockno : UInt32) :
    Fin nbuf → Cache → Prop
  | hit {b : Fin nbuf} : Carries c dev blockno b → Got c m dev blockno b (bpin c b)
  | miss {b : Fin nbuf} {l₁ l₂ : List (Fin nbuf)} : (∀ b', ¬ Carries c dev blockno b') →
      m = l₁ ++ b :: l₂ → c.refcnt b = 0 → (∀ b' ∈ l₂, c.refcnt b' ≠ 0) →
      Got c m dev blockno b { c with
        dev := update c.dev b dev
        blockno := update c.blockno b blockno
        valid := update c.valid b false
        refcnt := update c.refcnt b 1 }

theorem bget_cases (h : Listed c m) (hrun : bget c dev blockno = .ok (b, c')) :
    Got c m dev blockno b c' := by
  have hfuel : m.length < nbuf + 1 := by
    rw [h.length]
    exact Nat.lt_succ_self _
  have hback : Path c.links.prev none (m.reverse.map some) none := by
    rw [List.map_reverse]
    exact h.ring.prev
  unfold bget at hrun
  rw [scan_path h.ring.next hfuel, ok_bind] at hrun
  cases hfound : m.find? (fun b => c.dev b = dev ∧ c.blockno b = blockno) with
  | some b₁ =>
    rw [hfound] at hrun
    cases hrun
    have hb := List.find?_some hfound
    exact .hit (by simpa [Carries] using hb)
  | none =>
    rw [hfound] at hrun
    dsimp only at hrun
    rw [scan_path hback (by rwa [List.length_reverse]), ok_bind] at hrun
    have hmiss : ∀ b', ¬ Carries c dev blockno b' := by
      intro b' hb'
      have := List.find?_eq_none.mp hfound b' (h.all b')
      simp [Carries] at hb' this
      exact this hb'.1 hb'.2
    cases hfree : m.reverse.find? (fun b => c.refcnt b = 0) with
    | none =>
      rw [hfree] at hrun
      cases hrun
    | some b₁ =>
      rw [hfree] at hrun
      cases hrun
      obtain ⟨hb, as, bs, hsplit, has⟩ := List.find?_eq_some_iff_append.mp hfree
      have hm : m = bs.reverse ++ b :: as.reverse := by
        rw [← List.reverse_reverse m, hsplit, List.reverse_append, List.reverse_cons,
          List.append_assoc]
        rfl
      refine .miss hmiss hm (by simpa using hb) fun b' hb' => ?_
      simpa using has b' (by simpa using hb')

/-! ## One call -/

/-- What holds in every run. -/
structure Inv (s : Run) (m : List (Fin nbuf)) : Prop extends Listed s.cache m where
  count : ∀ b, (s.cache.refcnt b).toNat = s.held b + s.pins b
  since_le : ∀ b, s.since b ≤ s.now
  /-- Of two buffers without references, the one in front lost its last one later. -/
  order : m.Pairwise fun a b => s.cache.refcnt a = 0 → s.cache.refcnt b = 0 → s.since b ≤ s.since a
  unique : ∀ a b, s.cache.dev a ≠ 0 → Carries s.cache (s.cache.dev a) (s.cache.blockno a) b → b = a

/-- The buffers of which the count stays away from `0`, or stays, keep their time. -/
theorem since_tick (s : Run) (c : Cache) (held pins : Fin nbuf → ℕ)
    (h : s.cache.refcnt b ≠ 0 → c.refcnt b ≠ 0) : (s.tick c held pins).since b = s.since b := by
  unfold Run.tick
  dsimp only
  exact if_neg fun hcond => h hcond.1 hcond.2

theorem since_tick_le (h : Inv s m) (c : Cache) (held pins : Fin nbuf → ℕ) (b : Fin nbuf) :
    (s.tick c held pins).since b ≤ s.now + 1 := by
  unfold Run.tick
  dsimp only
  split_ifs
  · exact le_refl _
  · exact (h.since_le b).trans (Nat.le_succ _)

/-- A call that leaves the list alone and one count other than `0`. -/
theorem Inv.used (h : Inv s m) {r : UInt32} (hr : r ≠ 0) {held pins : Fin nbuf → ℕ}
    (hlinks : c.links = s.cache.links) (hcnt : c.refcnt = update s.cache.refcnt b r)
    (hcount : ∀ b, (c.refcnt b).toNat = held b + pins b)
    (huniq : ∀ a b, c.dev a ≠ 0 → Carries c (c.dev a) (c.blockno a) b → b = a) :
    Inv (s.tick c held pins) m := by
  have hzero : ∀ a, c.refcnt a = 0 → s.cache.refcnt a = 0 := by
    intro a ha
    rw [hcnt] at ha
    by_cases hab : a = b
    · rw [hab, update_self] at ha
      exact absurd ha hr
    · rwa [update_of_ne hab] at ha
  have hsince : ∀ a, c.refcnt a = 0 → (s.tick c held pins).since a = s.since a := by
    intro a ha
    exact since_tick s c held pins fun hne => absurd (hzero a ha) hne
  refine ⟨⟨?_, h.all⟩, hcount, since_tick_le h c held pins, ?_, huniq⟩
  · show Ring c.links none (m.map some)
    rw [hlinks]
    exact h.ring
  · refine h.order.imp fun {a a'} hle (ha : c.refcnt a = 0) (ha' : c.refcnt a' = 0) => ?_
    rw [hsince a ha, hsince a' ha']
    exact hle (hzero a ha) (hzero a' ha')

/-- The call in which the last reference of a buffer goes. -/
theorem Inv.dropped (h : Inv s m) (hone : s.cache.refcnt b = 1) {held pins : Fin nbuf → ℕ}
    (hlinks : c.links = (s.cache.links.unlink (some b)).push none (some b))
    (hcnt : c.refcnt = update s.cache.refcnt b 0)
    (hcount : ∀ b, (c.refcnt b).toNat = held b + pins b)
    (huniq : ∀ a b, c.dev a ≠ 0 → Carries c (c.dev a) (c.blockno a) b → b = a) :
    ∃ m', Inv (s.tick c held pins) m' := by
  obtain ⟨l₁, l₂, rfl⟩ := List.append_of_mem (h.all b)
  have hnodup := h.nodup
  have hb : b ∉ l₁ ++ l₂ := by
    rw [(List.perm_middle).nodup_iff] at hnodup
    exact (List.nodup_cons.mp hnodup).1
  refine ⟨b :: (l₁ ++ l₂), ⟨?_, ?_⟩, hcount, since_tick_le h c held pins, ?_, huniq⟩
  · -- the buffer is taken out and put in front
    show Ring c.links none _
    have hring := h.ring
    rw [List.map_append, List.map_cons] at hring
    rw [hlinks, List.map_cons, List.map_append]
    refine hring.unlink.push ?_
    simpa using hb
  · intro a
    have ha := h.all a
    simp only [List.mem_append, List.mem_cons] at ha ⊢
    tauto
  · have hrest : ∀ a ∈ l₁ ++ l₂, c.refcnt a = s.cache.refcnt a
        ∧ (s.tick c held pins).since a = s.since a := by
      intro a ha
      have hab : a ≠ b := fun heq => hb (heq ▸ ha)
      have heq : c.refcnt a = s.cache.refcnt a := by rw [hcnt, update_of_ne hab]
      exact ⟨heq, since_tick s c held pins fun hne => by rwa [heq]⟩
    apply List.pairwise_cons.mpr
    refine ⟨fun a ha _ _ => ?_, ?_⟩
    · -- it has dropped just now
      have hnow : (s.tick c held pins).since b = s.now + 1 := by
        unfold Run.tick
        dsimp only
        rw [hcnt, update_self, hone]
        exact if_pos ⟨by decide, rfl⟩
      rw [hnow]
      exact since_tick_le h c held pins a
    · have hsub : (l₁ ++ l₂).Sublist (l₁ ++ b :: l₂) :=
        (List.sublist_cons_self b l₂).append_left l₁
      refine (h.order.sublist hsub).imp_of_mem fun {a a'} ha ha' hle hz hz' => ?_
      rw [(hrest a ha).2, (hrest a' ha').2]
      exact hle ((hrest a ha).1.symm.trans hz) ((hrest a' ha').1.symm.trans hz')

theorem toNat_succ {r : UInt32} (h : r.toNat + 1 < 2 ^ 32) : (r + 1).toNat = r.toNat + 1 := by
  rw [UInt32.toNat_add]
  exact Nat.mod_eq_of_lt h

theorem toNat_pred {r : UInt32} (h : 0 < r.toNat) : (r - 1).toNat = r.toNat - 1 := by
  apply UInt32.toNat_sub_of_le
  rw [UInt32.le_iff_toNat_le]
  exact h

theorem ne_zero_of_toNat {r : UInt32} (h : 0 < r.toNat) : r ≠ 0 := by
  rintro rfl
  exact absurd h (by decide)

theorem count_update {refcnt : Fin nbuf → UInt32} {n : Fin nbuf → ℕ}
    (h : ∀ b, (refcnt b).toNat = n b) {r : UInt32} {n' : Fin nbuf → ℕ} (hb : r.toNat = n' b)
    (hn : ∀ a, a ≠ b → n' a = n a) (a : Fin nbuf) :
    (update refcnt b r a).toNat = n' a := by
  by_cases hab : a = b
  · rw [hab, update_self, hb]
  · rw [update_of_ne hab, h, hn a hab]

/-- Taking one more reference of a buffer. -/
theorem Inv.pinned (h : Inv s m) (hroom : s.held b + s.pins b + 1 < 2 ^ 32)
    {held pins : Fin nbuf → ℕ} (hb : held b + pins b = s.held b + s.pins b + 1)
    (hn : ∀ a, a ≠ b → held a + pins a = s.held a + s.pins a) :
    Inv (s.tick (bpin s.cache b) held pins) m := by
  have hcnt := h.count b
  have hsucc : (s.cache.refcnt b + 1).toNat = s.held b + s.pins b + 1 := by
    rw [toNat_succ (by omega), hcnt]
  refine h.used (ne_zero_of_toNat (by omega)) rfl rfl ?_ h.unique
  exact count_update h.count (hsucc.trans hb.symm) hn

theorem brelse_last (hzero : c.refcnt b - 1 = 0) :
    brelse c b = { c with
      links := (c.links.unlink (some b)).push none (some b)
      refcnt := update c.refcnt b 0 } := by
  have htest : update c.refcnt b (c.refcnt b - 1) b = 0 := by
    rw [update_self, hzero]
  refine (if_pos htest).trans ?_
  rw [hzero]

theorem brelse_more (hzero : c.refcnt b - 1 ≠ 0) : brelse c b = bunpin c b := by
  have htest : update c.refcnt b (c.refcnt b - 1) b ≠ 0 := by
    rwa [update_self]
  exact if_neg htest

/-- **One call keeps the list in order.** -/
theorem step_inv (h : Inv s m) {call : Call} (hmatched : Matched s call) (hroom : Room s call)
    (hrun : step s call = .ok s') : ∃ m', Inv s' m' := by
  cases call with
  | bget dev blockno =>
    obtain ⟨⟨b, c⟩, hget, hrun⟩ := bind_eq_ok_iff.mp hrun
    cases hrun
    cases bget_cases h.toListed hget with
    | hit hb =>
      refine ⟨m, h.pinned (hroom b) ?_ fun a ha => ?_⟩
      · rw [update_self]
        omega
      · rw [update_of_ne ha]
    | miss hmiss hsplit hzero hbehind =>
      refine ⟨m, h.used (r := 1) (by decide) rfl rfl ?_ ?_⟩
      · refine count_update h.count ?_ fun a ha => ?_
        · have hcnt := h.count b
          rw [hzero] at hcnt
          rw [update_self]
          exact (Nat.succ_inj.mpr hcnt).trans (by omega)
        · rw [update_of_ne ha]
      · -- no other buffer has the block
        intro a a' hdev ha'
        unfold Carries at ha' hmiss
        dsimp only at hdev ha'
        by_cases hab : a = b <;> by_cases hab' : a' = b
        · rw [hab, hab']
        · subst hab
          simp only [update_self, update_of_ne hab'] at ha'
          exact absurd ha' (hmiss a')
        · subst hab'
          simp only [update_self, update_of_ne hab] at ha'
          exact absurd ⟨ha'.1.symm, ha'.2.symm⟩ (hmiss a)
        · simp only [update_of_ne hab, update_of_ne hab'] at hdev ha'
          exact h.unique a a' hdev ha'
  | brelse b =>
    cases hrun
    have hheld : 0 < s.held b := hmatched
    have hcnt := h.count b
    have hpred := toNat_pred (r := s.cache.refcnt b) (by omega)
    have hcount : ∀ a, (update s.cache.refcnt b (s.cache.refcnt b - 1) a).toNat
        = update s.held b (s.held b - 1) a + s.pins a := by
      refine count_update h.count ?_ fun a ha => ?_
      · rw [update_self]
        omega
      · rw [update_of_ne ha]
    by_cases hzero : s.cache.refcnt b - 1 = 0
    · rw [brelse_last hzero]
      rw [hzero] at hcount
      exact h.dropped (sub_eq_zero.mp hzero) rfl rfl hcount h.unique
    · rw [brelse_more hzero]
      exact ⟨m, h.used hzero rfl rfl hcount h.unique⟩
  | bpin b =>
    cases hrun
    refine ⟨m, h.pinned (hroom b) ?_ fun a ha => ?_⟩
    · rw [update_self]
      omega
    · rw [update_of_ne ha]
  | bunpin b =>
    cases hrun
    obtain ⟨hpins, hheld⟩ : 0 < s.pins b ∧ 0 < s.held b := hmatched
    have hcnt := h.count b
    have hpred := toNat_pred (r := s.cache.refcnt b) (by omega)
    refine ⟨m, h.used (ne_zero_of_toNat (by omega)) rfl rfl ?_ h.unique⟩
    refine count_update h.count ?_ fun a ha => ?_
    · rw [update_self]
      omega
    · rw [update_of_ne ha]

theorem start_inv : Inv start (List.finRange nbuf).reverse where
  ring := by
    have hnodup : ((none : Node) :: (((List.finRange nbuf).map some).reverse ++ [])).Nodup := by
      decide
    have hring := (Ring.self (none : Node)).push_all _ hnodup
    rw [List.append_nil, List.foldl_map, ← List.map_reverse] at hring
    exact hring
  all := fun b => List.mem_reverse.mpr (List.mem_finRange b)
  count := fun _ => rfl
  since_le := fun _ => le_refl 0
  order := List.pairwise_of_forall fun _ _ _ _ => le_refl 0
  unique := fun _ _ hdev => absurd rfl hdev

/-- **The list is in order in every run.** -/
theorem Reach.inv (h : Reach (fun s call => Matched s call ∧ Room s call) s) : ∃ m, Inv s m := by
  induction h with
  | start => exact ⟨_, start_inv⟩
  | step _ hcond hrun ih =>
    obtain ⟨m, hinv⟩ := ih
    exact step_inv hinv hcond.1 hcond.2 hrun

/-! ## Integrity -/

theorem step_keeps (h : Listed s.cache m) {call : Call} (hrun : step s call = .ok s')
    (hb : s.cache.refcnt b ≠ 0) :
    s'.cache.dev b = s.cache.dev b ∧ s'.cache.blockno b = s.cache.blockno b := by
  cases call with
  | bget dev blockno =>
    obtain ⟨⟨b', c⟩, hget, hrun⟩ := bind_eq_ok_iff.mp hrun
    cases hrun
    cases bget_cases h hget with
    | hit _ => exact ⟨rfl, rfl⟩
    | miss _ _ hzero _ =>
      have hne : b ≠ b' := fun heq => hb (heq ▸ hzero)
      exact ⟨update_of_ne hne _ _, update_of_ne hne _ _⟩
  | brelse b' =>
    cases hrun
    by_cases hzero : s.cache.refcnt b' - 1 = 0
    · rw [brelse_last hzero]
      exact ⟨rfl, rfl⟩
    · rw [brelse_more hzero]
      exact ⟨rfl, rfl⟩
  | bpin b' =>
    cases hrun
    exact ⟨rfl, rfl⟩
  | bunpin b' =>
    cases hrun
    exact ⟨rfl, rfl⟩

/-- The buffer that `bget` recycles lost its last reference before every other one without
references. -/
theorem Inv.oldest (h : Inv s m) (hrun : bget s.cache dev blockno = .ok (b, c))
    (hmiss : ∀ b', ¬ Carries s.cache dev blockno b') :
    s.cache.refcnt b = 0 ∧ ∀ b', s.cache.refcnt b' = 0 → s.since b ≤ s.since b' := by
  cases bget_cases h.toListed hrun with
  | hit hb => exact absurd hb (hmiss b)
  | @miss l₁ l₂ _ hsplit hzero hbehind =>
    refine ⟨hzero, fun b' hb' => ?_⟩
    have hmem := h.all b'
    have horder := h.order
    rw [hsplit, List.mem_append, List.mem_cons] at hmem
    rw [hsplit, List.pairwise_append] at horder
    rcases hmem with hfront | rfl | hback
    · exact horder.2.2 b' hfront b List.mem_cons_self hb' hzero
    · exact le_refl _
    · exact absurd hb' (hbehind b' hback)

/-- What the claim of the cache is in one state of a run. -/
structure Integrity (s : Run) : Prop where
  /-- The links are one ring through the head and every buffer. -/
  ring : ∃ m : List (Fin nbuf), m.Nodup ∧ (∀ b, b ∈ m) ∧ Ring s.cache.links none (m.map some)
  unique : ∀ a b, s.cache.dev a ≠ 0 → s.cache.dev b = s.cache.dev a →
    s.cache.blockno b = s.cache.blockno a → b = a
  keeps : ∀ call s', step s call = .ok s' → ∀ b, s.cache.refcnt b ≠ 0 →
    s'.cache.dev b = s.cache.dev b ∧ s'.cache.blockno b = s.cache.blockno b
  oldest : ∀ dev blockno b c, bget s.cache dev blockno = .ok (b, c) →
    (∀ b', ¬ Carries s.cache dev blockno b') →
    s.cache.refcnt b = 0 ∧ ∀ b', s.cache.refcnt b' = 0 → s.since b ≤ s.since b'

/-! ## Too many references -/

/-- `bcache.buf[0]`, the last buffer of the list after `binit`. -/
def firstBuf : Fin nbuf := ⟨0, by decide⟩

/-- Block `1` is in the first buffer, which has `n` references. -/
def cacheOf (n : ℕ) : Cache where
  links := binit.links
  dev := update binit.dev firstBuf 1
  blockno := update binit.blockno firstBuf 1
  valid := update binit.valid firstBuf false
  refcnt := update binit.refcnt firstBuf (UInt32.ofNat n)

/-- The run that takes the block into the cache and pins the buffer `k` times. -/
def pinRun (k : ℕ) : Run where
  cache := cacheOf (k + 1)
  held := update start.held firstBuf 1
  pins := update start.pins firstBuf k
  since := start.since
  now := k + 1

theorem bpin_cacheOf (n : ℕ) : bpin (cacheOf n) firstBuf = cacheOf (n + 1) := by
  unfold bpin cacheOf
  dsimp only
  rw [update_self, update_idem, UInt32.ofNat_add]
  rfl

theorem step_pinRun (k : ℕ) : step (pinRun k) (.bpin firstBuf) = .ok ((pinRun k).tick
    (cacheOf (k + 2)) (pinRun k).held (update start.pins firstBuf (k + 1))) := by
  unfold step
  dsimp only
  have hcache : bpin (pinRun k).cache firstBuf = cacheOf (k + 2) := bpin_cacheOf (k + 1)
  have hpins : update (pinRun k).pins firstBuf ((pinRun k).pins firstBuf + 1)
      = update start.pins firstBuf (k + 1) := by
    unfold pinRun
    dsimp only
    rw [update_self, update_idem]
  rw [hcache, hpins]

theorem refcnt_cacheOf {n : ℕ} (h : n < 2 ^ 32) (hn : n ≠ 0) : (cacheOf n).refcnt firstBuf ≠ 0 := by
  unfold cacheOf
  dsimp only
  rw [update_self]
  apply ne_zero_of_toNat
  rw [UInt32.toNat_ofNat_of_lt' h]
  exact Nat.pos_of_ne_zero hn

theorem refcnt_cacheOf_of_ne (n : ℕ) (h : b ≠ firstBuf) : (cacheOf n).refcnt b = 0 :=
  update_of_ne h _ _

/-- Before the count overflows, no count has dropped to `0`. -/
theorem step_pinRun_lt {k : ℕ} (h : k + 2 < 2 ^ 32) :
    step (pinRun k) (.bpin firstBuf) = .ok (pinRun (k + 1)) := by
  rw [step_pinRun]
  congr 1
  unfold Run.tick
  have hsince : (fun b => if (pinRun k).cache.refcnt b ≠ 0 ∧ (cacheOf (k + 2)).refcnt b = 0
      then (pinRun k).now + 1 else (pinRun k).since b) = start.since := by
    funext b
    apply if_neg
    rintro ⟨hne, hzero⟩
    by_cases hb : b = firstBuf
    · rw [hb] at hzero
      exact refcnt_cacheOf h (by omega) hzero
    · exact hne (refcnt_cacheOf_of_ne (k + 1) hb)
  rw [hsince]
  rfl

theorem reach_pinRun {k : ℕ} (h : k + 1 < 2 ^ 32) : Reach Matched (pinRun k) := by
  induction k with
  | zero =>
    have hnext : scan binit.links.next (fun b => binit.dev b = 1 ∧ binit.blockno b = 1) (nbuf + 1)
        (binit.links.next none) = .ok none := by decide
    have hprev : scan binit.links.prev (fun b => binit.refcnt b = 0) (nbuf + 1)
        (binit.links.prev none) = .ok (some firstBuf) := by decide
    have hget : bget binit 1 1 = .ok (firstBuf, cacheOf 1) := by
      unfold bget
      rw [hnext, ok_bind]
      dsimp only
      rw [hprev]
      rfl
    have hrun : step start (.bget 1 1) = .ok (pinRun 0) := by
      have hstep : step start (.bget 1 1) = .ok (start.tick (cacheOf 1) (pinRun 0).held
          start.pins) := by
        unfold step
        dsimp only [start]
        rw [hget]
        rfl
      rw [hstep]
      congr 1
      unfold Run.tick
      have hsince : (fun b => if start.cache.refcnt b ≠ 0 ∧ (cacheOf 1).refcnt b = 0
          then start.now + 1 else start.since b) = start.since := by
        funext b
        exact if_neg fun hcond => hcond.1 rfl
      rw [hsince]
      unfold pinRun
      rw [show start.pins = fun _ => 0 from rfl, update_eq_self]
      rfl
    have hmatched : Matched start (.bget 1 1) := trivial
    exact .step .start hmatched hrun
  | succ k ih =>
    have hmatched : Matched (pinRun k) (.bpin firstBuf) := trivial
    exact .step (ih (by omega)) hmatched (step_pinRun_lt (by omega))

end Xv6.Bcache
