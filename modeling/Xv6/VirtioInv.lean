/-
# Invariants of the virtio driver

Each invariant speaks of a few parts of the state only and of the processes through what they
hold: the descriptors of a call (`Point.chain?`), a formatted request (`Point.req?`) that is not yet
published (`Point.begun?`) or is (`Point.wait?`).  For each of them there is a rule for every way in
which a step changes those parts.
-/
import Xv6.VirtioModel

namespace Xv6.Virtio

open Function

variable {ch : Chain} {todo' : List Slot}

variable {P B : Type}

/-! ## What a process holds -/

/-- The arguments of the call a process is in. -/
def Point.call? : Point B → Option (Call B)
  | .user => none
  | .alloc c | .format c _ => some c
  | .ring q | .bump q | .wait q => some q.call

/-- The request of a process, once it is formatted. -/
def Point.req? : Point B → Option (Req B)
  | .ring q | .bump q | .wait q => some q
  | _ => none

/-- The request of a process that is not yet published. -/
def Point.begun? : Point B → Option (Req B)
  | .ring q | .bump q => some q
  | _ => none

/-- The request of a process that is on the available ring, but for the index. -/
def Point.bump? : Point B → Option (Req B)
  | .bump q => some q
  | _ => none

/-- The request a process waits for. -/
def Point.wait? : Point B → Option (Req B)
  | .wait q => some q
  | _ => none

/-- The points that are passed without giving up `vdisk_lock`. -/
def Point.inside : Point B → Bool
  | .format _ _ | .ring _ | .bump _ => true
  | _ => false

theorem Point.req?_of_begun? {pt : Point B} {q : Req B} (h : pt.begun? = some q) :
    pt.req? = some q := by
  cases pt <;> first | exact h | cases h

theorem Point.req?_of_wait? {pt : Point B} {q : Req B} (h : pt.wait? = some q) :
    pt.req? = some q := by
  cases pt <;> first | exact h | cases h

theorem Point.chain?_of_req? {pt : Point B} {q : Req B} (h : pt.req? = some q) :
    pt.chain? = some q.chain := by
  cases pt <;> first | exact congrArg (Option.map Req.chain) h | cases h

theorem Point.call?_of_req? {pt : Point B} {q : Req B} (h : pt.req? = some q) :
    pt.call? = some q.call := by
  cases pt <;> first | exact congrArg (Option.map Req.call) h | cases h

theorem Point.begun?_or_wait? {pt : Point B} {q : Req B} (h : pt.req? = some q) :
    pt.begun? = some q ∨ pt.wait? = some q := by
  cases pt <;> first | exact Or.inl h | exact Or.inr h

theorem Point.wait?_of_begun? {pt : Point B} {q : Req B} (h : pt.begun? = some q) :
    pt.wait? = none := by
  cases pt <;> first | rfl | cases h

theorem Point.inside_of_bump? {pt : Point B} {q : Req B} (h : pt.bump? = some q) :
    pt.inside = true := by
  cases pt <;> first | rfl | cases h

variable [DecidableEq P]

/-! ## Locks -/

/-- `vdisk_lock` and `b->lock` are held by the ones who think they hold them. -/
structure LockInv (lock : Option (Holder P)) (mode : P → Mode B) (inside : P → Bool)
    (intr : Intr) : Prop where
  proc : ∀ p, mode p = .holds ↔ lock = some (.proc p)
  intr : intr ≠ .idle ↔ lock = some .intr
  inside : ∀ p, inside p = true → mode p = .holds

/-- A buffer belongs to the process whose call is about it. -/
def OwnerInv (call : P → Option (Call B)) (owner : B → Option P) : Prop :=
  ∀ p c, call p = some c → owner c.b = some p

namespace LockInv

variable {lock : Option (Holder P)} {mode : P → Mode B} {inside : P → Bool} {intr : Intr}

omit [DecidableEq P] in
/-- What processes do that do not hold the lock. -/
theorem congr_mode (h : LockInv lock mode inside intr) {mode' : P → Mode B}
    (hm : ∀ p, mode' p = .holds ↔ mode p = .holds) : LockInv lock mode' inside intr where
  proc := fun p => (hm p).trans (h.proc p)
  intr := h.intr
  inside := fun p hp => (hm p).mpr (h.inside p hp)

omit [DecidableEq P] in
/-- The interrupt handler gets on. -/
theorem of_running (h : LockInv lock mode inside intr) (hi : intr ≠ .idle) {intr' : Intr}
    (hi' : intr' ≠ .idle) : LockInv lock mode inside intr' :=
  ⟨h.proc, ⟨fun _ => h.intr.mp hi, fun _ => hi'⟩, h.inside⟩

theorem acquire (h : LockInv none mode inside intr) (p : P) :
    LockInv (some (.proc p)) (update mode p .holds) inside intr := by
  have hfree : ∀ p', mode p' ≠ .holds := fun p' hp' => by cases (h.proc p').mp hp'
  constructor
  · intro p'
    by_cases he : p' = p
    · subst he
      simp
    · rw [update_of_ne he]
      simp [hfree p', Ne.symm he]
  · constructor
    · intro hi
      cases h.intr.mp hi
    · rintro ⟨⟩
  · intro p' hp'
    exact absurd (h.inside p' hp') (hfree p')

omit [DecidableEq P] in
/-- Two processes do not hold the lock. -/
theorem eq_of_holds (h : LockInv lock mode inside intr) {p p' : P} (hp : mode p = .holds)
    (hp' : mode p' = .holds) : p = p' := by
  have hl := (h.proc p).mp hp
  rw [(h.proc p').mp hp'] at hl
  cases hl
  rfl

theorem giveUp (h : LockInv lock mode inside intr) {p : P} (hp : mode p = .holds)
    (hin : inside p = false) {m : Mode B} (hm : m ≠ .holds) :
    LockInv none (update mode p m) inside intr := by
  have honly : ∀ p', mode p' = .holds → p' = p := fun p' hp' => h.eq_of_holds hp' hp
  constructor
  · intro p'
    by_cases he : p' = p
    · subst he
      simp [hm]
    · rw [update_of_ne he]
      simp only [reduceCtorEq, iff_false]
      exact fun hp' => he (honly p' hp')
  · rw [h.intr, (h.proc p).mp hp]
    simp
  · intro p' hp'
    obtain rfl := honly p' (h.inside p' hp')
    rw [hin] at hp'
    cases hp'

/-- The holder of the lock moves on. -/
theorem move (h : LockInv lock mode inside intr) {p : P} (hp : mode p = .holds) (b : Bool) :
    LockInv lock mode (update inside p b) intr := by
  refine ⟨h.proc, h.intr, fun p' hp' => ?_⟩
  by_cases he : p' = p
  · rw [he]
    exact hp
  · rw [update_of_ne he] at hp'
    exact h.inside p' hp'

end LockInv

omit [DecidableEq P] in
/-- Two calls are about different buffers. -/
theorem OwnerInv.eq_of_buf {call : P → Option (Call B)} {owner : B → Option P}
    (h : OwnerInv call owner) {p p' : P} {c c' : Call B} (hp : call p = some c)
    (hp' : call p' = some c') (hb : c.b = c'.b) : p = p' := by
  have ho := h p c hp
  rw [hb, h p' c' hp'] at ho
  exact (Option.some.inj ho).symm

theorem OwnerInv.update {call : P → Option (Call B)} {owner : B → Option P}
    (h : OwnerInv call owner) {p : P} {x : Option (Call B)}
    (hx : ∀ c, x = some c → owner c.b = some p) : OwnerInv (update call p x) owner := by
  intro p' c hc
  rcases update_eq_some hc with ⟨rfl, hnew⟩ | ⟨-, hc⟩
  · exact hx c hnew
  · exact h p' c hc

/-! ## Chains -/

/-- The descriptors of a call are three different ones in use, and no two calls share one. -/
structure ChainInv (chain : P → Option Chain) (free : ℕ → Bool) : Prop where
  nodup : ∀ p ch, chain p = some ch → ch.toList.Nodup
  busy : ∀ p ch, chain p = some ch → ∀ i ∈ ch.toList, i < numDesc ∧ free i = false
  apart : ∀ p p' ch ch' i, chain p = some ch → chain p' = some ch' → i ∈ ch.toList →
    i ∈ ch'.toList → p = p'

namespace ChainInv

variable {chain : P → Option Chain} {free : ℕ → Bool}

theorem alloc (h : ChainInv chain free) {p : P} {free' : ℕ → Bool} (hnd : ch.toList.Nodup)
    (hch : ∀ i ∈ ch.toList, i < numDesc ∧ free i = true)
    (hfree' : ∀ i, free' i = (free i && !decide (i ∈ ch.toList))) :
    ChainInv (update chain p (some ch)) free' := by
  -- a descriptor of another call is not free
  have hother : ∀ p' ch' i, chain p' = some ch' → i ∈ ch'.toList → i ∉ ch.toList := by
    intro p' ch' i hp' hi hmem
    have hb := (h.busy p' ch' hp' i hi).2
    rw [(hch i hmem).2] at hb
    cases hb
  constructor
  · intro p' ch' hp'
    rcases update_eq_some hp' with ⟨-, ⟨⟩⟩ | ⟨-, hp'⟩
    · exact hnd
    · exact h.nodup p' ch' hp'
  · intro p' ch' hp' i hi
    rw [hfree']
    rcases update_eq_some hp' with ⟨-, ⟨⟩⟩ | ⟨-, hp'⟩
    · exact ⟨(hch i hi).1, by simp [hi]⟩
    · obtain ⟨hlt, hbusy⟩ := h.busy p' ch' hp' i hi
      exact ⟨hlt, by simp [hbusy]⟩
  · intro p₁ p₂ ch₁ ch₂ i h₁ h₂ hi₁ hi₂
    rcases update_eq_some h₁ with ⟨he₁, ⟨⟩⟩ | ⟨-, h₁⟩ <;>
      rcases update_eq_some h₂ with ⟨he₂, ⟨⟩⟩ | ⟨-, h₂⟩
    · rw [he₁, he₂]
    · exact absurd hi₁ (hother p₂ ch₂ i h₂ hi₂)
    · exact absurd hi₂ (hother p₁ ch₁ i h₁ hi₁)
    · exact h.apart p₁ p₂ ch₁ ch₂ i h₁ h₂ hi₁ hi₂

theorem giveBack (h : ChainInv chain free) {p : P} {free' : ℕ → Bool} (hp : chain p = some ch)
    (hfree' : ∀ i, i ∉ ch.toList → free' i = free i) : ChainInv (update chain p none) free' := by
  constructor
  · intro p' ch' hp'
    exact h.nodup p' ch' (update_none_eq_some hp').2
  · intro p' ch' hp' i hi
    obtain ⟨he, hp'⟩ := update_none_eq_some hp'
    rw [hfree' i fun hmem => he (h.apart p' p ch' ch i hp' hp hi hmem)]
    exact h.busy p' ch' hp' i hi
  · intro p₁ p₂ ch₁ ch₂ i h₁ h₂
    exact h.apart p₁ p₂ ch₁ ch₂ i (update_none_eq_some h₁).2 (update_none_eq_some h₂).2

end ChainInv

/-! ## Formatted requests -/

/-- The descriptors of a request are as `virtio_disk_rw` has formatted them. -/
structure Formatted (desc : ℕ → Desc B) (ops : ℕ → BlkReq) (info : ℕ → Info B) (q : Req B) :
    Prop where
  desc0 : desc q.chain.idx0 = desc0 q.chain
  desc1 : desc q.chain.idx1 = desc1 q.call q.chain
  desc2 : desc q.chain.idx2 = desc2 q.chain
  op : ops q.chain.idx0 = q.call.op
  buf : (info q.chain.idx0).b = some q.call.b

/-- Only what stands in the descriptors of the request counts. -/
theorem Formatted.congr {desc desc' : ℕ → Desc B} {ops ops' : ℕ → BlkReq} {info info' : ℕ → Info B}
    {q : Req B} (h : Formatted desc ops info q)
    (hdesc : ∀ i ∈ q.chain.toList, desc' i = desc i) (hops : ops' q.chain.idx0 = ops q.chain.idx0)
    (hinfo : (info' q.chain.idx0).b = (info q.chain.idx0).b) : Formatted desc' ops' info' q where
  desc0 := (hdesc _ (by simp [Chain.toList])).trans h.desc0
  desc1 := (hdesc _ (by simp [Chain.toList])).trans h.desc1
  desc2 := (hdesc _ (by simp [Chain.toList])).trans h.desc2
  op := hops.trans h.op
  buf := hinfo.trans h.buf

theorem Chain.ne_of_nodup (h : ch.toList.Nodup) :
    ch.idx0 ≠ ch.idx1 ∧ ch.idx0 ≠ ch.idx2 ∧ ch.idx1 ≠ ch.idx2 := by
  simp only [Chain.toList, List.nodup_cons, List.mem_cons, List.not_mem_nil, or_false, not_or] at h
  exact ⟨h.1.1, h.1.2, h.2.1⟩

omit [DecidableEq P] in
/-- Formatting a request. -/
theorem formatted_format [DecidableEq B] (c : Call B) (h : ch.toList.Nodup) (s : State P B)
    (r : ℕ) :
    Formatted (format c ch s).desc (format c ch s).ops (format c ch s).info ⟨c, ch, r⟩ := by
  obtain ⟨h01, h02, h12⟩ := Chain.ne_of_nodup h
  constructor
  · show update _ ch.idx2 _ ch.idx0 = _
    rw [update_of_ne h02, update_of_ne h01, update_self]
  · show update _ ch.idx2 _ ch.idx1 = _
    rw [update_of_ne h12, update_self]
  · exact update_self ch.idx2 _ _
  · exact update_self ch.idx0 _ _
  · show (update s.info ch.idx0 _ ch.idx0).b = _
    rw [update_self]

omit [DecidableEq P] in
/-- Formatting touches no other descriptor. -/
theorem format_desc_of_not_mem [DecidableEq B] (c : Call B) (s : State P B) {i : ℕ}
    (h : i ∉ ch.toList) : (format c ch s).desc i = s.desc i := by
  simp only [Chain.toList, List.mem_cons, List.not_mem_nil, or_false, not_or] at h
  show update _ ch.idx2 _ i = _
  rw [update_of_ne h.2.2, update_of_ne h.2.1, update_of_ne h.1]

theorem flags_desc0 (ch : Chain) :
    (desc0 ch : Desc B).hasNext = true ∧ (desc0 ch : Desc B).writes = false := by
  constructor <;> simp [Desc.hasNext, Desc.writes, desc0, descNext, descWrite]

theorem flags_desc1 (c : Call B) (ch : Chain) :
    (desc1 c ch).hasNext = true ∧ (desc1 c ch).writes = !c.write := by
  unfold desc1
  cases c.write <;> simp [Desc.hasNext, Desc.writes, descNext, descWrite]

theorem flags_desc2 (ch : Chain) :
    (desc2 ch : Desc B).hasNext = false ∧ (desc2 ch : Desc B).writes = true := by
  constructor <;> simp [Desc.hasNext, Desc.writes, desc2, descNext, descWrite]

omit [DecidableEq P] in
/-- The device finds in a formatted chain what the call asks for. -/
theorem walk_of_formatted {s : State P B} {q : Req B} (h : Formatted s.desc s.ops s.info q) :
    walk s q.chain.idx0 = some (q.call.transfer, q.chain.idx0) := by
  have h1 : s.desc (desc0 q.chain : Desc B).next = desc1 q.call q.chain := h.desc1
  have h2 : s.desc (desc1 q.call q.chain).next = desc2 q.chain := h.desc2
  unfold walk
  simp only [h.desc0, h1, h2, (flags_desc0 _).1, (flags_desc0 _).2, (flags_desc1 _ _).1,
    (flags_desc1 _ _).2, (flags_desc2 _).1, (flags_desc2 _).2, Bool.not_false, Bool.and_self,
    if_true]
  show some ((⟨(s.ops q.chain.idx0).type, (s.ops q.chain.idx0).sector, q.call.b, !q.call.write⟩ :
    Transfer B), q.chain.idx0) = _
  rw [h.op]
  rfl

/-! ## Flags -/

/-- A published request is on its way (`out`) and its flag is set, until the flag is cleared, by its
own completion.  What is on its way is awaited by its process. -/
structure FlagInv (begun wait : P → Option (Req B)) (disk : B → Bool) (clears : ℕ → List ℕ)
    (out : List Slot) : Prop where
  of_begun : ∀ p q, begun p = some q → disk q.call.b = true ∧ clears q.no = []
  of_wait : ∀ p q, wait p = some q → disk q.call.b = true ∧ q.slot ∈ out ∧ clears q.no = [] ∨
    disk q.call.b = false ∧ clears q.no = [q.no]
  of_out : ∀ sl ∈ out, ∃ p q, wait p = some q ∧ q.slot = sl ∧ disk q.call.b = true
  nodup : (out.map Slot.id).Nodup

namespace FlagInv

variable {begun wait : P → Option (Req B)} {disk : B → Bool} {clears : ℕ → List ℕ}
  {out : List Slot}

omit [DecidableEq P] in
theorem perm (h : FlagInv begun wait disk clears out) {out' : List Slot} (hp : out'.Perm out) :
    FlagInv begun wait disk clears out' := by
  refine ⟨h.of_begun, fun p q hq => ?_, fun sl hsl => h.of_out sl (hp.mem_iff.mp hsl),
    (hp.map Slot.id).nodup_iff.mpr h.nodup⟩
  rw [hp.mem_iff]
  exact h.of_wait p q hq

theorem format [DecidableEq B] (h : FlagInv begun wait disk clears out) {p : P} {q : Req B}
    (hnew : clears q.no = [])
    (hbegun : ∀ p' q', begun p' = some q' → q'.call.b ≠ q.call.b)
    (hwait : ∀ p' q', wait p' = some q' → q'.call.b ≠ q.call.b) :
    FlagInv (update begun p (some q)) wait (update disk q.call.b true) clears
      out := by
  constructor
  · intro p' q' hq'
    rcases update_eq_some hq' with ⟨-, ⟨⟩⟩ | ⟨-, hq'⟩
    · exact ⟨update_self _ _ _, hnew⟩
    · rw [update_of_ne (hbegun p' q' hq')]
      exact h.of_begun p' q' hq'
  · intro p' q' hq'
    rw [update_of_ne (hwait p' q' hq')]
    exact h.of_wait p' q' hq'
  · intro sl hsl
    obtain ⟨p', q', hq', hslot, hd⟩ := h.of_out sl hsl
    exact ⟨p', q', hq', hslot, by rwa [update_of_ne (hwait p' q' hq')]⟩
  · exact h.nodup

theorem publish (h : FlagInv begun wait disk clears out) {p : P} {q : Req B} (hp : begun p = some q)
    (hw : wait p = none) (hid : ∀ sl ∈ out, sl.id ≠ q.chain.idx0) :
    FlagInv (update begun p none) (update wait p (some q)) disk clears
      (q.slot :: out) := by
  have hne : ∀ p' q', wait p' = some q' → p' ≠ p := by
    rintro p' q' hq' rfl
    rw [hw] at hq'
    cases hq'
  constructor
  · intro p' q' hq'
    exact h.of_begun p' q' (update_none_eq_some hq').2
  · intro p' q' hq'
    rcases update_eq_some hq' with ⟨-, ⟨⟩⟩ | ⟨-, hq'⟩
    · obtain ⟨hd, hc⟩ := h.of_begun p q hp
      exact Or.inl ⟨hd, List.mem_cons_self, hc⟩
    · rcases h.of_wait p' q' hq' with ⟨hd, hmem, hc⟩ | hdone
      · exact Or.inl ⟨hd, List.mem_cons_of_mem _ hmem, hc⟩
      · exact Or.inr hdone
  · intro sl hsl
    rcases List.mem_cons.mp hsl with rfl | hsl
    · exact ⟨p, q, update_self _ _ _, rfl, (h.of_begun p q hp).1⟩
    · obtain ⟨p', q', hq', hslot, hd⟩ := h.of_out sl hsl
      exact ⟨p', q', by rwa [update_of_ne (hne p' q' hq')], hslot, hd⟩
  · rw [List.map_cons, List.nodup_cons]
    refine ⟨fun hmem => ?_, h.nodup⟩
    obtain ⟨sl, hsl, heq⟩ := List.mem_map.mp hmem
    exact hid sl hsl heq

/-- The interrupt handler clears the flag of a request that has come back. -/
theorem clear [DecidableEq B] {p : P} {q : Req B} {out' : List Slot}
    (h : FlagInv begun wait disk clears out') (hout : out'.Perm (q.slot :: out))
    (hp : wait p = some q)
    (hbegun : ∀ p' q', begun p' = some q' → q'.call.b ≠ q.call.b ∧ q'.no ≠ q.no)
    (hwait : ∀ p' q', wait p' = some q' → p' ≠ p → q'.call.b ≠ q.call.b ∧ q'.no ≠ q.no) :
    FlagInv begun wait (update disk q.call.b false)
      (update clears q.no (clears q.no ++ [q.no])) out := by
  have h := h.perm hout.symm
  have hempty : clears q.no = [] := by
    rcases h.of_wait p q hp with ⟨-, -, hc⟩ | ⟨hd, -⟩
    · exact hc
    · obtain ⟨p', q', hq', hslot, hd'⟩ := h.of_out q.slot List.mem_cons_self
      by_cases he : p' = p
      · subst he
        rw [hp] at hq'
        cases hq'
        rw [hd] at hd'
        cases hd'
      · exact absurd (congrArg Slot.req hslot) (hwait p' q' hq' he).2
  have hnd := h.nodup
  rw [List.map_cons, List.nodup_cons] at hnd
  constructor
  · intro p' q' hq'
    obtain ⟨hb, hno⟩ := hbegun p' q' hq'
    rw [update_of_ne hb, update_of_ne hno]
    exact h.of_begun p' q' hq'
  · intro p' q' hq'
    by_cases he : p' = p
    · subst he
      rw [hp] at hq'
      cases hq'
      refine Or.inr ⟨update_self _ _ _, ?_⟩
      rw [update_self, hempty]
      rfl
    · obtain ⟨hb, hno⟩ := hwait p' q' hq' he
      rw [update_of_ne hb, update_of_ne hno]
      rcases h.of_wait p' q' hq' with ⟨hd, hmem, hc⟩ | hdone
      · rcases List.mem_cons.mp hmem with hslot | hmem
        · exact absurd (congrArg Slot.req hslot) hno
        · exact Or.inl ⟨hd, hmem, hc⟩
      · exact Or.inr hdone
  · intro sl hsl
    obtain ⟨p', q', hq', hslot, hd⟩ := h.of_out sl (List.mem_cons_of_mem _ hsl)
    have he : p' ≠ p := by
      rintro rfl
      rw [hp] at hq'
      cases hq'
      exact hnd.1 (List.mem_map.mpr ⟨sl, hsl, (congrArg Slot.id hslot).symm⟩)
    exact ⟨p', q', hq', hslot, by rwa [update_of_ne (hwait p' q' hq' he).1]⟩
  · exact hnd.2

theorem finish (h : FlagInv begun wait disk clears out) {p : P} {q : Req B}
    (hp : wait p = some q) (hd : disk q.call.b = false) :
    FlagInv begun (update wait p none) disk clears out := by
  constructor
  · exact h.of_begun
  · intro p' q' hq'
    exact h.of_wait p' q' (update_none_eq_some hq').2
  · intro sl hsl
    obtain ⟨p', q', hq', hslot, hd'⟩ := h.of_out sl hsl
    have he : p' ≠ p := by
      rintro rfl
      rw [hp] at hq'
      cases hq'
      rw [hd] at hd'
      cases hd'
    exact ⟨p', q', by rwa [update_of_ne he], hslot, hd'⟩
  · exact h.nodup

end FlagInv

/-! ## The device's work -/

/-- The requests in `todo` have not been carried out, the others that were published have, once and
as asked.  Those in `done` have status `0`. -/
structure WorkInv (begun wait : P → Option (Req B)) (info : ℕ → Info B)
    (served : ℕ → List (Transfer B)) (todo done : List Slot) : Prop where
  of_begun : ∀ p q, begun p = some q → served q.no = []
  of_todo : ∀ sl ∈ todo, served sl.req = []
  of_wait : ∀ p q, wait p = some q → q.slot ∉ todo → served q.no = [q.call.transfer]
  of_done : ∀ sl ∈ done, (info sl.id).status = 0

namespace WorkInv

variable {begun wait : P → Option (Req B)} {info : ℕ → Info B} {served : ℕ → List (Transfer B)}
  {todo done : List Slot}

omit [DecidableEq P] in
theorem mono (h : WorkInv begun wait info served todo done) {done' : List Slot}
    (ht : ∀ sl, sl ∈ todo' ↔ sl ∈ todo) (hd : ∀ sl ∈ done', sl ∈ done) :
    WorkInv begun wait info served todo' done' where
  of_begun := h.of_begun
  of_todo := fun sl hsl => h.of_todo sl ((ht sl).mp hsl)
  of_wait := fun p q hq hnot => h.of_wait p q hq fun hmem => hnot ((ht _).mpr hmem)
  of_done := fun sl hsl => h.of_done sl (hd sl hsl)

theorem format (h : WorkInv begun wait info served todo done) {p : P} {q : Req B}
    (hnew : served q.no = []) {info' : ℕ → Info B}
    (hinfo : ∀ sl ∈ done, info' sl.id = info sl.id) :
    WorkInv (update begun p (some q)) wait info' served todo done := by
  refine ⟨fun p' q' hq' => ?_, h.of_todo, h.of_wait,
    fun sl hsl => by rw [hinfo sl hsl, h.of_done sl hsl]⟩
  rcases update_eq_some hq' with ⟨-, ⟨⟩⟩ | ⟨-, hq'⟩
  · exact hnew
  · exact h.of_begun p' q' hq'

theorem publish (h : WorkInv begun wait info served todo done) {p : P} {q : Req B}
    (hp : begun p = some q) (ht : ∀ sl, sl ∈ todo' ↔ sl = q.slot ∨ sl ∈ todo) :
    WorkInv (update begun p none) (update wait p (some q)) info served todo'
      done := by
  constructor
  · intro p' q' hq'
    exact h.of_begun p' q' (update_none_eq_some hq').2
  · intro sl hsl
    rcases (ht sl).mp hsl with rfl | hsl
    · exact h.of_begun p q hp
    · exact h.of_todo sl hsl
  · intro p' q' hq' hnot
    rcases update_eq_some hq' with ⟨-, ⟨⟩⟩ | ⟨-, hq'⟩
    · exact absurd ((ht _).mpr (Or.inl rfl)) hnot
    · exact h.of_wait p' q' hq' fun hmem => hnot ((ht _).mpr (Or.inr hmem))
  · exact h.of_done

theorem serve (h : WorkInv begun wait info served todo done) {p : P} {q : Req B}
    (hp : wait p = some q) {done' : List Slot} (ht : todo.Perm (q.slot :: todo'))
    (hd : ∀ sl ∈ done', sl = q.slot ∨ sl ∈ done) (hnd : (todo.map Slot.id).Nodup)
    (hbegun : ∀ p' q', begun p' = some q' → q'.no ≠ q.no)
    (hwait : ∀ p' q', wait p' = some q' → p' ≠ p → q'.no ≠ q.no)
    (htodo : ∀ sl ∈ todo, ∃ p' q', wait p' = some q' ∧ q'.slot = sl) :
    WorkInv begun wait
      (update info q.chain.idx0 { info q.chain.idx0 with status := 0 })
      (update served q.no (served q.no ++ [q.call.transfer])) todo' done' := by
  have hnd' : (q.slot :: todo').Nodup := ht.nodup_iff.mp (List.Nodup.of_map _ hnd)
  have hnot : q.slot ∉ todo' := (List.nodup_cons.mp hnd').1
  have hsub : ∀ sl ∈ todo', sl ∈ todo := fun sl hsl =>
    ht.mem_iff.mpr (List.mem_cons_of_mem _ hsl)
  -- another request that is still to be done has another number
  have hreq : ∀ sl ∈ todo', sl.req ≠ q.no := by
    intro sl hsl
    obtain ⟨p', q', hq', rfl⟩ := htodo sl (hsub sl hsl)
    refine hwait p' q' hq' ?_
    rintro rfl
    rw [hp] at hq'
    cases hq'
    exact hnot hsl
  constructor
  · intro p' q' hq'
    rw [update_of_ne (hbegun p' q' hq')]
    exact h.of_begun p' q' hq'
  · intro sl hsl
    rw [update_of_ne (hreq sl hsl)]
    exact h.of_todo sl (hsub sl hsl)
  · intro p' q' hq' hnot'
    by_cases he : p' = p
    · subst he
      rw [hp] at hq'
      cases hq'
      have hempty : served q.no = [] := h.of_todo q.slot (ht.mem_iff.mpr List.mem_cons_self)
      rw [update_self, hempty]
      rfl
    · have hno := hwait p' q' hq' he
      rw [update_of_ne hno]
      refine h.of_wait p' q' hq' fun hmem => ?_
      rcases List.mem_cons.mp (ht.mem_iff.mp hmem) with heq | hmem
      · exact hno (congrArg Slot.req heq)
      · exact hnot' hmem
  · intro sl hsl
    by_cases hid : sl.id = q.chain.idx0
    · rw [hid, update_self]
    · rw [update_of_ne hid]
      rcases hd sl hsl with rfl | hsl
      · exact absurd rfl hid
      · exact h.of_done sl hsl

theorem finish (h : WorkInv begun wait info served todo done) (p : P) {info' : ℕ → Info B}
    (hinfo : ∀ i, (info' i).status = (info i).status) :
    WorkInv begun (update wait p none) info' served todo done := by
  refine ⟨h.of_begun, h.of_todo, fun p' q' hq' => ?_, fun sl hsl => by rw [hinfo, h.of_done sl hsl]⟩
  exact h.of_wait p' q' (update_none_eq_some hq').2

end WorkInv

/-! ## Numbers -/

/-- Requests are numbered as they are formatted; each is in the hands of one process until its
call returns, and then it has been served and its flag cleared. -/
structure NumberInv (req : P → Option (Req B)) (born : ℕ) (request : ℕ → Option (Call B))
    (current : B → ℕ) (clears : ℕ → List ℕ) (served : ℕ → List (Transfer B))
    (returned : ℕ → Bool) : Prop where
  lt : ∀ p q, req p = some q → q.no < born
  inj : ∀ p p' q q', req p = some q → req p' = some q' → q.no = q'.no → p = p'
  of_request : ∀ p q, req p = some q → request q.no = some q.call
  of_current : ∀ p q, req p = some q → current q.call.b = q.no
  live : ∀ p q, req p = some q → returned q.no = false
  held : ∀ r < born, returned r = false → ∃ p q, req p = some q ∧ q.no = r
  of_returned : ∀ r, returned r = true → clears r = [r] ∧
    ∃ c, request r = some c ∧ served r = [c.transfer]
  fresh : ∀ r, born ≤ r → clears r = [] ∧ served r = [] ∧ returned r = false

namespace NumberInv

variable {req : P → Option (Req B)} {born : ℕ} {request : ℕ → Option (Call B)} {current : B → ℕ}
  {clears : ℕ → List ℕ} {served : ℕ → List (Transfer B)} {returned : ℕ → Bool}

theorem format [DecidableEq B] (h : NumberInv req born request current clears served returned)
    {p : P} (c : Call B) (ch : Chain) (hp : req p = none)
    (hbuf : ∀ p' q', req p' = some q' → q'.call.b ≠ c.b) :
    NumberInv (update req p (some ⟨c, ch, born⟩)) (born + 1)
      (update request born (some c)) (update current c.b born) clears served
      returned := by
  -- a request is the new one or an old one
  constructor
  · intro p' q' hq'
    rcases update_eq_some hq' with ⟨-, ⟨⟩⟩ | ⟨-, hq'⟩
    · exact Nat.lt_succ_self born
    · exact (h.lt p' q' hq').trans (Nat.lt_succ_self born)
  · intro p₁ p₂ q₁ q₂ h₁ h₂ hno
    rcases update_eq_some h₁ with ⟨he₁, ⟨⟩⟩ | ⟨-, h₁⟩ <;>
      rcases update_eq_some h₂ with ⟨he₂, ⟨⟩⟩ | ⟨-, h₂⟩
    · rw [he₁, he₂]
    · exact absurd hno (h.lt p₂ q₂ h₂).ne'
    · exact absurd hno (h.lt p₁ q₁ h₁).ne
    · exact h.inj p₁ p₂ q₁ q₂ h₁ h₂ hno
  · intro p' q' hq'
    rcases update_eq_some hq' with ⟨-, ⟨⟩⟩ | ⟨-, hq'⟩
    · exact update_self _ _ _
    · rw [update_of_ne (h.lt p' q' hq').ne]
      exact h.of_request p' q' hq'
  · intro p' q' hq'
    rcases update_eq_some hq' with ⟨-, ⟨⟩⟩ | ⟨-, hq'⟩
    · exact update_self _ _ _
    · rw [update_of_ne (hbuf p' q' hq')]
      exact h.of_current p' q' hq'
  · intro p' q' hq'
    rcases update_eq_some hq' with ⟨-, ⟨⟩⟩ | ⟨-, hq'⟩
    · exact (h.fresh born le_rfl).2.2
    · exact h.live p' q' hq'
  · intro r hr hret
    rcases Nat.lt_succ_iff_lt_or_eq.mp hr with hr | rfl
    · obtain ⟨p', q', hq', hno⟩ := h.held r hr hret
      have he : p' ≠ p := by
        rintro rfl
        rw [hp] at hq'
        cases hq'
      exact ⟨p', q', by rwa [update_of_ne he], hno⟩
    · exact ⟨p, _, update_self _ _ _, rfl⟩
  · intro r hr
    obtain ⟨hc, c', hreq, hs⟩ := h.of_returned r hr
    have hne : r ≠ born := by
      rintro rfl
      rw [(h.fresh r le_rfl).2.2] at hr
      cases hr
    exact ⟨hc, c', by rwa [update_of_ne hne], hs⟩
  · intro r hr
    exact h.fresh r (Nat.le_of_succ_le hr)

omit [DecidableEq P] in
/-- What happens to a request that has not returned. -/
theorem progress (h : NumberInv req born request current clears served returned) {p : P} {q : Req B}
    (hp : req p = some q) {clears' : ℕ → List ℕ} {served' : ℕ → List (Transfer B)}
    (hc : ∀ r, r ≠ q.no → clears' r = clears r) (hs : ∀ r, r ≠ q.no → served' r = served r) :
    NumberInv req born request current clears' served' returned where
  lt := h.lt
  inj := h.inj
  of_request := h.of_request
  of_current := h.of_current
  live := h.live
  held := h.held
  of_returned := by
    intro r hr
    have hne : r ≠ q.no := by
      rintro rfl
      rw [h.live p q hp] at hr
      cases hr
    rw [hc r hne, hs r hne]
    exact h.of_returned r hr
  fresh := by
    intro r hr
    have hne : r ≠ q.no := (lt_of_lt_of_le (h.lt p q hp) hr).ne'
    rw [hc r hne, hs r hne]
    exact h.fresh r hr

theorem finish (h : NumberInv req born request current clears served returned) {p : P} {q : Req B}
    (hp : req p = some q) (hc : clears q.no = [q.no]) (hs : served q.no = [q.call.transfer]) :
    NumberInv (update req p none) born request current clears served
      (update returned q.no true) := by
  constructor
  · intro p' q' hq'
    exact h.lt p' q' (update_none_eq_some hq').2
  · intro p₁ p₂ q₁ q₂ h₁ h₂
    exact h.inj p₁ p₂ q₁ q₂ (update_none_eq_some h₁).2 (update_none_eq_some h₂).2
  · intro p' q' hq'
    exact h.of_request p' q' (update_none_eq_some hq').2
  · intro p' q' hq'
    exact h.of_current p' q' (update_none_eq_some hq').2
  · intro p' q' hq'
    obtain ⟨he, hq'⟩ := update_none_eq_some hq'
    rw [update_of_ne fun hno => he (h.inj p' p q' q hq' hp hno)]
    exact h.live p' q' hq'
  · intro r hr hret
    have hrq : r ≠ q.no := by
      rintro rfl
      rw [update_self] at hret
      cases hret
    rw [update_of_ne hrq] at hret
    obtain ⟨p', q', hq', hno⟩ := h.held r hr hret
    have he : p' ≠ p := by
      rintro rfl
      rw [hp] at hq'
      cases hq'
      exact hrq hno.symm
    exact ⟨p', q', by rwa [update_of_ne he], hno⟩
  · intro r hr
    by_cases hrq : r = q.no
    · rw [hrq]
      exact ⟨hc, q.call, h.of_request p q hp, hs⟩
    · rw [update_of_ne hrq] at hr
      exact h.of_returned r hr
  · intro r hr
    rw [update_of_ne (lt_of_lt_of_le (h.lt p q hp) hr).ne']
    exact h.fresh r hr

end NumberInv

/-! ## Rings -/

/-- The indices are 16 bits wide, and an entry that is written and not yet counted, or read and not
yet counted off, is in its slot. -/
structure RingInv (avail used : Ring) (lastAvail usedIdx : ℕ) (bump : P → Option (Req B))
    (pushing : Option Slot) (intr : Intr) : Prop where
  avail_lt : avail.idx < 2 ^ 16
  used_lt : used.idx < 2 ^ 16
  lastAvail_lt : lastAvail < 2 ^ 16
  usedIdx_lt : usedIdx < 2 ^ 16
  of_bump : ∀ p q, bump p = some q → avail.ring (avail.idx % numDesc) = q.slot
  of_pushing : ∀ sl, pushing = some sl → used.ring (used.idx % numDesc) = sl
  of_body : ∀ sl, intr = .body sl → usedIdx ≠ used.idx ∧ used.ring (usedIdx % numDesc) = sl

theorem numDesc_dvd : numDesc ∣ 2 ^ 16 := ⟨2 ^ 13, rfl⟩

theorem add16_lt (i j : ℕ) : add16 i j < 2 ^ 16 := Nat.mod_lt _ (by decide)

namespace Ring

variable {r : Ring} {lo : ℕ}

/-- Writing an entry changes no other one as long as there is room. -/
theorem from_put (hlo : lo < 2 ^ 16) (hidx : r.idx < 2 ^ 16) (hroom : (r.from lo).length < numDesc)
    (sl : Slot) : (r.put sl).from lo = r.from lo :=
  RingQueue.contents_update numDesc_dvd hlo hidx hroom sl

theorem put_slot (r : Ring) (sl : Slot) : (r.put sl).ring ((r.put sl).idx % numDesc) = sl :=
  update_self _ _ _

theorem from_bump (hlo : lo < 2 ^ 16) (hidx : r.idx < 2 ^ 16)
    (hroom : (r.from lo).length < numDesc) :
    r.bump.from lo = r.from lo ++ [r.ring (r.idx % numDesc)] := by
  have hlen : (r.from lo).length + 1 < 2 ^ 16 := by
    have : numDesc = 8 := rfl
    omega
  exact RingQueue.contents_next_right numDesc_dvd hlo hidx hlen

theorem from_eq_cons (hlo : lo < 2 ^ 16) (hidx : r.idx < 2 ^ 16) (h : lo ≠ r.idx) :
    r.from lo = r.ring (lo % numDesc) :: r.from (add16 lo 1) :=
  RingQueue.contents_eq_cons numDesc_dvd hlo hidx h

theorem from_eq_nil (h : lo = r.idx) : r.from lo = [] := by
  rw [h]
  exact RingQueue.contents_self

end Ring

end Xv6.Virtio
