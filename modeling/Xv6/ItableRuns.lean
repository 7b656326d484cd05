/-
# The inode table over whole runs

An entry with references stands for one inode, and its copy is that of the inode on disk, except
while the activity that has it locked has changed it, and in the window of `iput` in which the
inode is free on disk and the entry still counts as valid (`EntryInv`).  In that window `ialloc` may
take the inode and `iget` may find the entry, but whoever locks it next reads it again.
-/
import Xv6.ItableModel

namespace Xv6.Itable

open Function

variable {A H : Type}

/-! ## What an activity has -/

/-- The reference whose inode an activity has locked. -/
def Pc.lock? : Pc H → Option (Ref H)
  | .lockRead r | .locked r _ | .putTrunc r | .putType r | .putValid r => some r
  | _ => none

/-- The activity knows that the entry is valid. -/
def Pc.knowsValid : Pc H → Bool
  | .locked _ _ | .putTrunc _ | .putType _ | .putValid _ => true
  | _ => false

/-- The inode is free on disk, or taken by `ialloc`, and the entry is still valid. -/
def Pc.stale : Pc H → Bool
  | .putValid _ => true
  | _ => false

/-- The copy has been changed since the last `iupdate`. -/
def Pc.changed : Pc H → Bool
  | .locked _ b => b
  | _ => false

theorem Pc.ref?_of_lock? {c : Pc H} {r : Ref H} (h : c.lock? = some r) : c.ref? = some r := by
  cases c <;> first | exact h | cases h

theorem Pc.ref?_of_put? {c : Pc H} {r : Ref H} (h : c.put? = some r) : c.ref? = some r := by
  cases c <;> first | exact h | cases h

/-- What the holder of an entry's lock is doing. -/
def State.holderPc (s : State A H) (e : Fin ninode) : Option (Pc H) := (s.lock e).map s.pc

/-! ## Invariants -/

/-- The number of references to an entry. -/
def count [DecidableEq H] (refs : Finset (Ref H)) (e : Fin ninode) : ℕ :=
  (refs.filter fun r => r.ip = e).card

/-- An entry and the inode `d` on disk it stands for, in incarnation `g`; `c` is what the holder of
its lock is doing. -/
structure EntryInv (ip : Inode) (d : Dinode) (g : ℕ) (c : Option (Pc H)) : Prop where
  valid : ∀ c', c = some c' → c'.knowsValid = true → ip.valid = true
  copy : 0 < ip.ref → ip.valid = true → (∀ c', c = some c' → c'.stale = false) →
    ip.copy.type ≠ 0 ∧ ip.copy.type = d.type ∧ ip.gen = g ∧
      ((∀ c', c = some c' → c'.changed = false) → ip.copy = d)

/-- The invariant of the table. -/
structure Inv [DecidableEq H] (s : State A H) : Prop where
  ref : ∀ e, (s.inode e).ref = count s.refs e
  unique : ∀ e e', 0 < (s.inode e).ref → 0 < (s.inode e').ref →
    (s.inode e).place = (s.inode e').place → e = e'
  use : ∀ a r, (s.pc a).ref? = some r → r ∈ s.refs
  put : ∀ a b r, (s.pc a).put? = some r → (s.pc b).ref? = some r → b = a
  lock : ∀ a e, s.lock e = some a ↔ ∃ r, (s.pc a).lock? = some r ∧ r.ip = e
  entry : ∀ e, EntryInv (s.inode e) (s.disk (s.inode e).place) (s.gen (s.inode e).place)
    (s.holderPc e)

variable [DecidableEq H]

theorem count_insert_self {refs : Finset (Ref H)} {r : Ref H} (h : r ∉ refs) :
    count (insert r refs) r.ip = count refs r.ip + 1 := by
  unfold count
  rw [Finset.filter_insert, if_pos rfl, Finset.card_insert_of_notMem]
  exact fun hmem => h (Finset.mem_of_mem_filter r hmem)

theorem count_insert_of_ne {refs : Finset (Ref H)} {r : Ref H} {e : Fin ninode} (h : e ≠ r.ip) :
    count (insert r refs) e = count refs e := by
  unfold count
  rw [Finset.filter_insert, if_neg (Ne.symm h)]

theorem count_erase_self {refs : Finset (Ref H)} {r : Ref H} (h : r ∈ refs) :
    count (refs.erase r) r.ip + 1 = count refs r.ip := by
  have hins := count_insert_self (Finset.notMem_erase r refs)
  rw [Finset.insert_erase h] at hins
  exact hins.symm

theorem count_erase_of_ne {refs : Finset (Ref H)} {r : Ref H} {e : Fin ninode} (h : e ≠ r.ip) :
    count (refs.erase r) e = count refs e := by
  by_cases hr : r ∈ refs
  · rw [← count_insert_of_ne h, Finset.insert_erase hr]
  · rw [Finset.erase_eq_of_notMem hr]

theorem count_pos {refs : Finset (Ref H)} {r : Ref H} (h : r ∈ refs) : 0 < count refs r.ip :=
  Finset.card_pos.mpr ⟨r, Finset.mem_filter.mpr ⟨h, rfl⟩⟩

/-- With one reference to an entry, it is the only one. -/
theorem eq_of_count_eq_one {refs : Finset (Ref H)} {r r' : Ref H} (h : count refs r.ip = 1)
    (hr : r ∈ refs) (hr' : r' ∈ refs) (he : r'.ip = r.ip) : r' = r :=
  Finset.card_le_one.mp h.le r' (Finset.mem_filter.mpr ⟨hr', he⟩) r
    (Finset.mem_filter.mpr ⟨hr, rfl⟩)

namespace Inv

variable {s : State A H}

theorem ref_pos (h : Inv s) {r : Ref H} (hr : r ∈ s.refs) : 0 < (s.inode r.ip).ref := by
  rw [h.ref]
  exact_mod_cast count_pos hr

/-- A reference that is used counts. -/
theorem ref_pos_of_use (h : Inv s) {a : A} {r : Ref H} (ha : (s.pc a).ref? = some r) :
    0 < (s.inode r.ip).ref :=
  h.ref_pos (h.use a r ha)

theorem lock_of_pc (h : Inv s) {a : A} {r : Ref H} (ha : (s.pc a).lock? = some r) :
    s.lock r.ip = some a :=
  (h.lock a r.ip).mpr ⟨r, ha, rfl⟩

theorem holderPc_of_pc (h : Inv s) {a : A} {r : Ref H} (ha : (s.pc a).lock? = some r) :
    s.holderPc r.ip = some (s.pc a) := by
  unfold State.holderPc
  rw [h.lock_of_pc ha]
  rfl

theorem ne_lock (h : Inv s) {a : A} {r : Ref H} (ha : (s.pc a).lock? = some r) {e : Fin ninode}
    (he : e ≠ r.ip) : s.lock e ≠ some a := by
  intro hl
  obtain ⟨r', hr', hip⟩ := (h.lock a e).mp hl
  rw [ha] at hr'
  cases hr'
  exact he hip.symm

/-- An activity without a lock. -/
theorem ne_lock_of_none (h : Inv s) {a : A} (ha : (s.pc a).lock? = none) (e : Fin ninode) :
    s.lock e ≠ some a := by
  intro hl
  obtain ⟨r, hr, -⟩ := (h.lock a e).mp hl
  rw [ha] at hr
  cases hr

theorem place_ne (h : Inv s) {e e' : Fin ninode} (hr : 0 < (s.inode e).ref)
    (hr' : 0 < (s.inode e').ref) (he : e' ≠ e) : (s.inode e').place ≠ (s.inode e).place :=
  fun hp => he (h.unique e' e hr' hr hp)

end Inv

/-! ## Moves of an activity -/

variable [DecidableEq A] {s : State A H}

/-- An activity may go to `c`: the reference it uses there exists and nobody else is giving it up;
one that it gives up nobody else uses. -/
structure Fits (s : State A H) (a : A) (c : Pc H) : Prop where
  use : ∀ r, c.ref? = some r → r ∈ s.refs
  keep : ∀ r, c.ref? = some r → ∀ b, b ≠ a → (s.pc b).put? ≠ some r
  put : ∀ r, c.put? = some r → ∀ b, b ≠ a → (s.pc b).ref? ≠ some r

omit [DecidableEq A] in
/-- An activity that goes on with its reference. -/
theorem Inv.fits (h : Inv s) {a : A} {c : Pc H} (hr : c.ref? = (s.pc a).ref?)
    (hp : c.put? = (s.pc a).put?) : Fits s a c where
  use := fun r hc => h.use a r (hr.symm.trans hc)
  keep := fun r hc b hb hput => hb (h.put b a r hput (hr.symm.trans hc)).symm
  put := fun r hc b hb huse => hb (h.put a b r (hp.symm.trans hc) huse)

omit [DecidableEq A] [DecidableEq H] in
/-- An activity that uses no reference any more. -/
theorem fits_of_none {a : A} {c : Pc H} (hr : c.ref? = none) : Fits s a c := by
  have hp : c.put? = none := by
    cases hc : c.put? with
    | none => rfl
    | some r => rw [Pc.ref?_of_put? hc] at hr; cases hr
  constructor
  · intro r hc
    cases hr.symm.trans hc
  · intro r hc
    cases hr.symm.trans hc
  · intro r hc
    cases hp.symm.trans hc

namespace Inv

theorem use_update (h : Inv s) {a : A} {c : Pc H} (hf : Fits s a c) :
    ∀ b r, (update s.pc a c b).ref? = some r → r ∈ s.refs := by
  intro b r hb
  by_cases he : b = a
  · rw [he, update_self] at hb
    exact hf.use r hb
  · rw [update_of_ne he] at hb
    exact h.use b r hb

theorem put_update (h : Inv s) {a : A} {c : Pc H} (hf : Fits s a c) :
    ∀ b b' r, (update s.pc a c b).put? = some r →
      (update s.pc a c b').ref? = some r → b' = b := by
  intro b b' r hb hb'
  by_cases he : b = a <;> by_cases he' : b' = a
  · rw [he, he']
  · rw [he, update_self] at hb
    rw [update_of_ne he'] at hb'
    exact absurd hb' (hf.put r hb b' he')
  · rw [he', update_self] at hb'
    rw [update_of_ne he] at hb
    exact absurd hb (hf.keep r hb' b he)
  · rw [update_of_ne he] at hb
    rw [update_of_ne he'] at hb'
    exact h.put b b' r hb hb'

omit [DecidableEq H] in
/-- Locks that another activity has. -/
theorem holderPc_update {lock : Fin ninode → Option A} {a : A} {e : Fin ninode} (c : Pc H)
    (he : lock e ≠ some a) :
    (lock e).map (update s.pc a c) = (lock e).map s.pc := by
  cases hl : lock e with
  | none => rfl
  | some b =>
    have hb : b ≠ a := by
      rintro rfl
      exact he hl
    rw [Option.map_some, update_of_ne hb, Option.map_some]

theorem moveUnlocked (h : Inv s) {a : A} {c : Pc H} (ha : (s.pc a).lock? = none)
    (hc : c.lock? = none) (hf : Fits s a c) : Inv (goto a c s) := by
  constructor
  · exact h.ref
  · exact h.unique
  · exact h.use_update hf
  · exact h.put_update hf
  · intro b e
    show s.lock e = some b ↔ ∃ r, (update s.pc a c b).lock? = some r ∧ r.ip = e
    by_cases he : b = a
    · rw [he, update_self, hc]
      simp [h.ne_lock_of_none ha e]
    · rw [update_of_ne he]
      exact h.lock b e
  · intro e
    show EntryInv (s.inode e) _ _ ((s.lock e).map (update s.pc a c))
    rw [holderPc_update c (h.ne_lock_of_none ha e)]
    exact h.entry e

/-- The holder of an inode's lock gets on, with changes to the copy and to the inode on disk. -/
theorem moveLocked (h : Inv s) {a : A} {r : Ref H} {c : Pc H} (ha : (s.pc a).lock? = some r)
    (hc : c.lock? = some r) (hput : c.put? = (s.pc a).put?) (ip : Inode) (disk : ℕ × ℕ → Dinode)
    (href : ip.ref = (s.inode r.ip).ref) (hplace : ip.place = (s.inode r.ip).place)
    (hdisk : ∀ x, x ≠ ip.place → disk x = s.disk x)
    (hentry : EntryInv ip (disk ip.place) (s.gen ip.place) (some c)) :
    Inv (goto a c { s with inode := update s.inode r.ip ip, disk := disk }) := by
  have hf : Fits s a c := h.fits ((Pc.ref?_of_lock? hc).trans (Pc.ref?_of_lock? ha).symm) hput
  -- counts and places are as before
  have hrefs : ∀ e, (update s.inode r.ip ip e).ref = (s.inode e).ref :=
    congrFun (view_eq (f := Inode.ref) href)
  have hplaces : ∀ e, (update s.inode r.ip ip e).place = (s.inode e).place :=
    congrFun (view_eq (f := Inode.place) hplace)
  constructor
  · intro e
    exact (hrefs e).trans (h.ref e)
  · intro e e' he he' hp
    exact h.unique e e' ((hrefs e).symm ▸ he) ((hrefs e').symm ▸ he')
      (((hplaces e).symm.trans hp).trans (hplaces e'))
  · exact h.use_update hf
  · exact h.put_update hf
  · intro b e
    show s.lock e = some b ↔ ∃ r, (update s.pc a c b).lock? = some r ∧ r.ip = e
    by_cases he : b = a
    · rw [he, update_self, hc, ← ha]
      exact h.lock a e
    · rw [update_of_ne he]
      exact h.lock b e
  · intro e
    show EntryInv (update s.inode r.ip ip e)
      (disk (update s.inode r.ip ip e).place)
      (s.gen (update s.inode r.ip ip e).place) ((s.lock e).map (update s.pc a c))
    by_cases he : e = r.ip
    · rw [he, update_self, h.lock_of_pc ha, Option.map_some, update_self]
      exact hentry
    · rw [update_of_ne he, holderPc_update c (h.ne_lock ha he)]
      refine ⟨(h.entry e).valid, fun hpos => ?_⟩
      rw [hdisk _ (hplace ▸ h.place_ne (h.ref_pos_of_use (Pc.ref?_of_lock? ha)) hpos he)]
      exact (h.entry e).copy hpos

theorem takeLock (h : Inv s) {a : A} {r : Ref H} {c : Pc H} (ha : (s.pc a).lock? = none)
    (hc : c.lock? = some r) (hf : Fits s a c) (hfree : s.lock r.ip = none)
    (hknows : c.knowsValid = true → (s.inode r.ip).valid = true) :
    Inv (goto a c (acquiresleep a r.ip s)) := by
  constructor
  · exact h.ref
  · exact h.unique
  · exact h.use_update hf
  · exact h.put_update hf
  · intro b e
    show update s.lock r.ip (some a) e = some b ↔
      ∃ r, (update s.pc a c b).lock? = some r ∧ r.ip = e
    by_cases hb : b = a <;> by_cases he : e = r.ip
    · rw [hb, he, update_self, update_self]
      exact ⟨fun _ => ⟨r, hc, rfl⟩, fun _ => rfl⟩
    · rw [hb, update_of_ne he, update_self, hc]
      simp only [h.ne_lock_of_none ha e, Option.some.injEq, false_iff, not_exists, not_and]
      rintro r' rfl
      exact Ne.symm he
    · rw [he, update_self, update_of_ne hb, ← h.lock b r.ip, hfree]
      simp [Ne.symm hb]
    · rw [update_of_ne he, update_of_ne hb]
      exact h.lock b e
  · intro e
    show EntryInv (s.inode e) _ _
      ((update s.lock r.ip (some a) e).map (update s.pc a c))
    by_cases he : e = r.ip
    · subst he
      have hold := h.entry r.ip
      unfold State.holderPc at hold
      rw [hfree] at hold
      rw [update_self, Option.map_some, update_self]
      refine ⟨fun c' hc' => ?_, fun hpos hvalid _ => ?_⟩
      · cases hc'
        exact hknows
      · obtain ⟨htype, hsame, hgen, hcopy⟩ := hold.copy hpos hvalid (by simp)
        exact ⟨htype, hsame, hgen, fun _ => hcopy (by simp)⟩
    · rw [update_of_ne he, holderPc_update c (h.ne_lock_of_none ha e)]
      exact h.entry e

theorem releaseLock (h : Inv s) {a : A} {r : Ref H} {c : Pc H} (ha : (s.pc a).lock? = some r)
    (hc : c.lock? = none) (hf : Fits s a c) {ip : Inode}
    (href : ip.ref = (s.inode r.ip).ref) (hplace : ip.place = (s.inode r.ip).place)
    (hentry : EntryInv ip (s.disk ip.place) (s.gen ip.place) (none : Option (Pc H))) :
    Inv (goto a c (releasesleep r.ip { s with inode := update s.inode r.ip ip })) := by
  have hlock := h.lock_of_pc ha
  have hrefs : ∀ e, (update s.inode r.ip ip e).ref = (s.inode e).ref :=
    congrFun (view_eq (f := Inode.ref) href)
  have hplaces : ∀ e, (update s.inode r.ip ip e).place = (s.inode e).place :=
    congrFun (view_eq (f := Inode.place) hplace)
  constructor
  · intro e
    exact (hrefs e).trans (h.ref e)
  · intro e e' he he' hp
    exact h.unique e e' ((hrefs e).symm ▸ he) ((hrefs e').symm ▸ he')
      (((hplaces e).symm.trans hp).trans (hplaces e'))
  · exact h.use_update hf
  · exact h.put_update hf
  · intro b e
    show update s.lock r.ip none e = some b ↔
      ∃ r, (update s.pc a c b).lock? = some r ∧ r.ip = e
    by_cases hb : b = a
    · rw [hb, update_self, hc]
      by_cases he : e = r.ip
      · rw [he, update_self]
        simp
      · rw [update_of_ne he]
        simp [h.ne_lock ha he]
    · rw [update_of_ne hb, ← h.lock b e]
      by_cases he : e = r.ip
      · rw [he, update_self, hlock]
        simp [Ne.symm hb]
      · rw [update_of_ne he]
  · intro e
    show EntryInv (update s.inode r.ip ip e)
      (s.disk (update s.inode r.ip ip e).place)
      (s.gen (update s.inode r.ip ip e).place)
      ((update s.lock r.ip none e).map (update s.pc a c))
    by_cases he : e = r.ip
    · rw [he, update_self, update_self]
      exact hentry
    · rw [update_of_ne he, update_of_ne he, holderPc_update c (h.ne_lock ha he)]
      exact h.entry e

/-! ## References -/

omit [DecidableEq A] in
/-- The count of an entry in use changes. -/
theorem setRef (h : Inv s) {e : Fin ninode} {n : ℤ} {refs : Finset (Ref H)}
    (hpos : 0 < (s.inode e).ref) (hn : n = count refs e)
    (hother : ∀ e', e' ≠ e → count refs e' = count s.refs e')
    (huse : ∀ a r, (s.pc a).ref? = some r → r ∈ refs) :
    Inv { s with
      inode := update s.inode e { s.inode e with ref := n }, refs := refs } := by
  have hplaces : ∀ e', (update s.inode e { s.inode e with ref := n } e').place =
      (s.inode e').place := congrFun (view_eq (f := Inode.place) rfl)
  have hkeep : ∀ e', 0 < (update s.inode e { s.inode e with ref := n } e').ref →
      0 < (s.inode e').ref := by
    intro e'
    by_cases he : e' = e
    · rw [he]
      exact fun _ => hpos
    · rw [update_of_ne he]
      exact id
  constructor
  · intro e'
    show (update s.inode e _ e').ref = count refs e'
    by_cases he : e' = e
    · rw [he, update_self]
      exact hn
    · rw [update_of_ne he, hother e' he]
      exact h.ref e'
  · intro e₁ e₂ h₁ h₂ hp
    exact h.unique e₁ e₂ (hkeep e₁ h₁) (hkeep e₂ h₂)
      (((hplaces e₁).symm.trans hp).trans (hplaces e₂))
  · exact huse
  · exact h.put
  · exact h.lock
  · intro e'
    show EntryInv (update s.inode e _ e') (s.disk (update s.inode e _ e').place)
      (s.gen (update s.inode e _ e').place) (s.holderPc e')
    by_cases he : e' = e
    · rw [he, update_self]
      exact ⟨(h.entry e).valid, fun _ => (h.entry e).copy hpos⟩
    · rw [update_of_ne he]
      exact h.entry e'

omit [DecidableEq A] in
theorem addRef (h : Inv s) {r : Ref H} (hr : r ∉ s.refs) (hpos : 0 < (s.inode r.ip).ref) :
    Inv (addRef r s) := by
  refine h.setRef hpos ?_ (fun e he => count_insert_of_ne he)
    fun a r' ha => Finset.mem_insert_of_mem (h.use a r' ha)
  rw [count_insert_self hr, h.ref]
  push_cast
  rfl

omit [DecidableEq A] in
theorem dropRef (h : Inv s) {r : Ref H} (hr : r ∈ s.refs) (huse : ∀ a, (s.pc a).ref? ≠ some r) :
    Inv (dropRef r s) := by
  refine h.setRef (h.ref_pos hr) ?_ (fun e he => count_erase_of_ne he) fun a r' ha => ?_
  · rw [h.ref, ← count_erase_self hr]
    push_cast
    ring
  · refine Finset.mem_erase.mpr ⟨?_, h.use a r' ha⟩
    rintro rfl
    exact huse a ha

omit [DecidableEq A] in
/-- An entry without references gets to stand for an inode that has no entry. -/
theorem recycle (h : Inv s) {r : Ref H} {dev inum : ℕ} (hr : (s.inode r.ip).ref = 0)
    (hnew : ∀ e, 0 < (s.inode e).ref → (s.inode e).place ≠ (dev, inum)) :
    Inv (recycle r dev inum s) := by
  have hnone : ∀ r' ∈ s.refs, r'.ip ≠ r.ip := by
    intro r' hr' he
    have hpos := h.ref_pos hr'
    rw [he, hr] at hpos
    exact lt_irrefl 0 hpos
  have hcount : count s.refs r.ip = 0 := by exact_mod_cast (h.ref r.ip).symm.trans hr
  -- the only new place is that of the entry
  have hcases : ∀ e, 0 < (update s.inode r.ip { s.inode r.ip with
      dev := dev, inum := inum, ref := 1, valid := false } e).ref → e ≠ r.ip →
      0 < (s.inode e).ref := by
    intro e hpos he
    rwa [update_of_ne he] at hpos
  constructor
  · intro e
    show (update s.inode r.ip _ e).ref = count (insert r s.refs) e
    by_cases he : e = r.ip
    · rw [he, update_self, count_insert_self fun hmem => hnone r hmem rfl, hcount]
      rfl
    · rw [update_of_ne he, count_insert_of_ne he]
      exact h.ref e
  · intro e e' hpos hpos' hp
    have hp : (update s.inode r.ip _ e).place =
      (update s.inode r.ip _ e').place := hp
    by_cases he : e = r.ip <;> by_cases he' : e' = r.ip
    · rw [he, he']
    · rw [he, update_self, update_of_ne he'] at hp
      exact absurd hp.symm (hnew e' (hcases e' hpos' he'))
    · rw [he', update_self, update_of_ne he] at hp
      exact absurd hp (hnew e (hcases e hpos he))
    · rw [update_of_ne he, update_of_ne he'] at hp
      exact h.unique e e' (hcases e hpos he) (hcases e' hpos' he') hp
  · intro a r' ha
    exact Finset.mem_insert_of_mem (h.use a r' ha)
  · exact h.put
  · exact h.lock
  · intro e
    show EntryInv (update s.inode r.ip _ e)
      (s.disk (update s.inode r.ip _ e).place)
      (s.gen (update s.inode r.ip _ e).place) (s.holderPc e)
    by_cases he : e = r.ip
    · -- nobody has the entry locked
      have hlock : s.holderPc r.ip = none := by
        unfold State.holderPc
        cases hl : s.lock r.ip with
        | none => rfl
        | some a =>
          obtain ⟨r', hr', hip⟩ := (h.lock a r.ip).mp hl
          exact absurd hip (hnone r' (h.use a r' (Pc.ref?_of_lock? hr')))
      rw [he, update_self, hlock]
      refine ⟨fun c' hc' => ?_, fun _ hvalid => ?_⟩
      · cases hc'
      · cases hvalid
    · rw [update_of_ne he]
      exact h.entry e

omit [DecidableEq A] in
theorem allocate (h : Inv s) {x : ℕ × ℕ} (hfree : (s.disk x).type = 0) (d : Dinode) (g : ℕ) :
    Inv { s with disk := update s.disk x d, gen := update s.gen x g } := by
  refine ⟨h.ref, h.unique, h.use, h.put, h.lock, fun e => ?_⟩
  show EntryInv (s.inode e) (update s.disk x d (s.inode e).place)
    (update s.gen x g (s.inode e).place) (s.holderPc e)
  by_cases hx : (s.inode e).place = x
  · -- the copy of an entry in use would have a type
    refine ⟨(h.entry e).valid, fun hpos hvalid hstale => ?_⟩
    obtain ⟨htype, hsame, -⟩ := (h.entry e).copy hpos hvalid hstale
    rw [hx, hfree] at hsame
    exact absurd hsame htype
  · rw [update_of_ne hx, update_of_ne hx]
    exact h.entry e

omit [DecidableEq A] in
/-- `iget` returns with one more reference, or the table is full. -/
theorem iget_spec (h : Inv s) {n : H} (hn : s.Without n) (dev inum : ℕ) :
    (∃ t, iget n dev inum s = .ok t ∧ Inv t ∧ t.pc = s.pc) ∨
      iget n dev inum s = .error (.panic "iget: no inodes") := by
  unfold iget
  cases hfound : found dev inum s with
  | some e =>
    left
    have hsome := List.find?_some (a := e) hfound
    have hpos := of_decide_eq_true hsome
    exact ⟨_, rfl, h.addRef (fun hmem => hn _ hmem rfl) hpos.1, rfl⟩
  | none =>
    cases hempty : empty s with
    | none => exact Or.inr rfl
    | some e =>
      left
      have hsome := List.find?_some (a := e) hempty
      have hzero := of_decide_eq_true hsome
      refine ⟨_, rfl, h.recycle hzero fun e' hpos hp => ?_, rfl⟩
      have hnot := List.find?_eq_none.mp hfound e' (List.mem_finRange e')
      obtain ⟨hdev, hinum⟩ := Prod.mk.inj hp
      exact hnot (decide_eq_true ⟨hpos, hdev, hinum⟩)

/-! ## The steps of an activity -/

omit [DecidableEq A] in
/-- An entry that is locked and not in the window of `iput`. -/
theorem locked_copy (h : Inv s) {a : A} {r : Ref H} (ha : (s.pc a).lock? = some r)
    (hknows : (s.pc a).knowsValid = true) (hstale : (s.pc a).stale = false) :
    (s.inode r.ip).valid = true ∧ (s.inode r.ip).copy.type ≠ 0 ∧
      (s.inode r.ip).copy.type = (s.disk (s.inode r.ip).place).type ∧
      (s.inode r.ip).gen = s.gen (s.inode r.ip).place ∧
      ((s.pc a).changed = false → (s.inode r.ip).copy = s.disk (s.inode r.ip).place) := by
  have hentry := h.entry r.ip
  rw [h.holderPc_of_pc ha] at hentry
  have hvalid := hentry.valid _ rfl hknows
  obtain ⟨htype, hsame, hgen, hcopy⟩ :=
    hentry.copy (h.ref_pos_of_use (Pc.ref?_of_lock? ha)) hvalid (by rintro _ ⟨⟩; exact hstale)
  exact ⟨hvalid, htype, hsame, hgen, fun hc => hcopy (by rintro _ ⟨⟩; exact hc)⟩

/-- `ilock` returns with the copy of the inode on disk, unless that is free. -/
theorem ilockRead_spec (h : Inv s) {a : A} {r : Ref H} (ha : s.pc a = .lockRead r) :
    (∃ t, ilockRead a r s = .ok t ∧ Inv t) ∨
      ilockRead a r s = .error (.panic "ilock: no type") := by
  have hlock : (s.pc a).lock? = some r := by rw [ha]; rfl
  have hput : (Pc.locked r false).put? = (s.pc a).put? := by rw [ha]; rfl
  unfold ilockRead
  by_cases hvalid : (s.inode r.ip).valid = true
  · left
    rw [if_pos hvalid]
    have hentry := h.entry r.ip
    rw [h.holderPc_of_pc hlock, ha] at hentry
    have hmove := h.moveLocked (c := .locked r false) hlock rfl hput _ s.disk rfl rfl
      (fun x _ => rfl) ⟨fun _ _ _ => hvalid, fun hpos hv _ =>
        let ⟨htype, hsame, hgen, hcopy⟩ := hentry.copy hpos hv (by rintro _ ⟨⟩; rfl)
        ⟨htype, hsame, hgen, fun _ => hcopy (by rintro _ ⟨⟩; rfl)⟩⟩
    rw [update_eq_self] at hmove
    exact ⟨_, rfl, hmove⟩
  · rw [if_neg hvalid]
    by_cases htype : (s.disk (s.inode r.ip).place).type = 0
    · right
      rw [if_pos htype]
    · left
      rw [if_neg htype]
      refine ⟨_, rfl,
        h.moveLocked (c := .locked r false) hlock rfl hput _ s.disk rfl rfl (fun x _ => rfl) ?_⟩
      exact ⟨fun _ _ _ => rfl, fun _ _ _ => ⟨htype, rfl, rfl, fun _ => rfl⟩⟩

/-- `iupdate` of a locked inode, after a change of the copy that keeps its type or frees it. -/
theorem writeBack (h : Inv s) {a : A} {r : Ref H} {c : Pc H} (ha : (s.pc a).lock? = some r)
    (hknows : (s.pc a).knowsValid = true) (hstale : (s.pc a).stale = false)
    (hc : c.lock? = some r) (hput : c.put? = (s.pc a).put?) (f : Dinode → Dinode)
    (hf : c.stale = true ∨ (f (s.inode r.ip).copy).type = (s.inode r.ip).copy.type) :
    Inv (goto a c (iupdate r.ip (setCopy r.ip f s))) := by
  obtain ⟨hvalid, htype, -, hgen, -⟩ := h.locked_copy ha hknows hstale
  have hplace : (setCopy r.ip f s).inode r.ip = { s.inode r.ip with
      copy := f (s.inode r.ip).copy } := update_self _ _ _
  refine h.moveLocked ha hc hput { s.inode r.ip with copy := f (s.inode r.ip).copy }
    (iupdate r.ip (setCopy r.ip f s)).disk rfl rfl (fun x hx => ?_) ?_
  · show update s.disk ((setCopy r.ip f s).inode r.ip).place _ x = _
    rw [hplace]
    exact update_of_ne hx _ _
  · have hdisk : (iupdate r.ip (setCopy r.ip f s)).disk (s.inode r.ip).place =
        f (s.inode r.ip).copy := by
      show update s.disk ((setCopy r.ip f s).inode r.ip).place
        ((setCopy r.ip f s).inode r.ip).copy _ = _
      rw [hplace]
      exact update_self _ _ _
    refine ⟨fun _ _ _ => hvalid, fun _ _ hs => ?_⟩
    rcases hf with hf | hf
    · rw [hs c rfl] at hf
      cases hf
    · exact ⟨fun hzero => htype (hf.symm.trans hzero), (congrArg Dinode.type hdisk).symm, hgen,
        fun _ => hdisk.symm⟩

/-- An activity in `ilock`, `iput` or the loop of `ialloc` gets on, or finds a free inode. -/
theorem run_spec (h : Inv s) {a : A} (hfree : s.blocked a = false) :
    (∃ t, run a s = .ok t ∧ Inv t) ∨ run a s = .error (.panic "ilock: no type") := by
  unfold run
  cases ha : s.pc a with
  | idle => exact Or.inl ⟨s, rfl, h⟩
  | lockWait r =>
    have hlock : s.lock r.ip = none := by
      unfold State.blocked at hfree
      rw [ha] at hfree
      exact Option.not_isSome_iff_eq_none.mp (by simpa using hfree)
    have hfits : Fits s a (.lockRead r) := h.fits (by rw [ha]; rfl) (by rw [ha]; rfl)
    exact Or.inl ⟨_, rfl, h.takeLock (by rw [ha]; rfl) rfl hfits hlock (by intro hk; cases hk)⟩
  | lockRead r => exact h.ilockRead_spec ha
  | locked r b => exact Or.inl ⟨s, rfl, h⟩
  | putTrunc r =>
    exact Or.inl ⟨_, rfl, h.writeBack (by rw [ha]; rfl) (by rw [ha]; rfl) (by rw [ha]; rfl) rfl
      (by rw [ha]; rfl) _ (Or.inr rfl)⟩
  | putType r =>
    exact Or.inl ⟨_, rfl, h.writeBack (by rw [ha]; rfl) (by rw [ha]; rfl) (by rw [ha]; rfl) rfl
      (by rw [ha]; rfl) _ (Or.inl rfl)⟩
  | putValid r =>
    have hlock : (s.pc a).lock? = some r := by rw [ha]; rfl
    have hfits : Fits s a (.putRef r) := h.fits (by rw [ha]; rfl) (by rw [ha]; rfl)
    refine Or.inl ⟨_, rfl, h.releaseLock hlock rfl hfits rfl rfl ⟨?_, ?_⟩⟩
    · intro c hc
      cases hc
    · intro _ hvalid
      cases hvalid
  | putRef r =>
    have huse : (s.pc a).ref? = some r := by rw [ha]; rfl
    have hput : (s.pc a).put? = some r := by rw [ha]; rfl
    have hidle : Inv (goto a .idle s) :=
      h.moveUnlocked (by rw [ha]; rfl) rfl (fits_of_none rfl)
    refine Or.inl ⟨_, rfl, hidle.dropRef (r := r) (h.use a r huse) fun b hb => ?_⟩
    have hb : (update s.pc a .idle b).ref? = some r := hb
    by_cases he : b = a
    · rw [he, update_self] at hb
      cases hb
    · rw [update_of_ne he] at hb
      exact he (h.put a b r hput hb)
  | alloc dev inum type =>
    left
    have hlock : (s.pc a).lock? = none := by rw [ha]; rfl
    refine ⟨_, rfl, ?_⟩
    unfold iallocTurn
    split_ifs with hlt htype
    · exact (h.allocate htype _ _).moveUnlocked hlock rfl (fits_of_none rfl)
    · exact h.moveUnlocked hlock rfl (fits_of_none rfl)
    · exact h.moveUnlocked hlock rfl (fits_of_none rfl)
  | allocGet dev inum => exact Or.inl ⟨s, rfl, h⟩

/-- `iput` gives its reference up or goes on to free the inode, whose lock is not taken. -/
theorem iput_spec (h : Inv s) {a : A} {r : Ref H} (ha : s.pc a = .idle) (hr : r ∈ s.refs)
    (huse : ∀ b, (s.pc b).ref? ≠ some r) : ∃ t, iput a r s = .ok t ∧ Inv t := by
  unfold iput
  split_ifs with htest hlock
  · refine ⟨_, rfl, h.takeLock (by rw [ha]; rfl) rfl ⟨?_, ?_, ?_⟩ hlock fun _ => htest.2.1⟩
    · rintro _ ⟨⟩
      exact hr
    · rintro _ ⟨⟩ b - hput
      exact huse b (Pc.ref?_of_put? hput)
    · rintro _ ⟨⟩ b -
      exact huse b
  · -- whoever had the lock would use the only reference
    obtain ⟨b, hb⟩ := Option.ne_none_iff_exists'.mp hlock
    obtain ⟨r', hr', hip⟩ := (h.lock b r.ip).mp hb
    have huse' := Pc.ref?_of_lock? hr'
    have hone : count s.refs r.ip = 1 := by exact_mod_cast (h.ref r.ip).symm.trans htest.1
    have heq := eq_of_count_eq_one hone hr (h.use b r' huse') hip
    rw [heq] at huse'
    exact absurd huse' (huse b)
  · exact ⟨_, rfl, h.dropRef hr huse⟩

end Inv

/-! ## Whole runs -/

/-- Every step that can be taken keeps the invariant, or panics because the table is full or the
inode to be locked is free on disk. -/
theorem step_spec (h : Inv s) {e : Event A H} (he : Enabled s e) :
    (∃ t, step s e = .ok t ∧ Inv t) ∨ step s e = .error (.panic "iget: no inodes") ∨
      step s e = .error (.panic "ilock: no type") := by
  cases e with
  | iget n dev inum =>
    rcases h.iget_spec he dev inum with ⟨t, hrun, hinv, -⟩ | hfull
    · exact Or.inl ⟨t, hrun, hinv⟩
    · exact Or.inr (Or.inl hfull)
  | idup r n =>
    have hpos : 0 < (s.inode r.ip).ref := h.ref_pos he.1.1
    exact Or.inl ⟨_, rfl, h.addRef (r := ⟨n, r.ip⟩) (fun hmem => he.2 _ hmem rfl) hpos⟩
  | ilock a r =>
    obtain ⟨ha, hr, hput⟩ := he
    have hpos := h.ref_pos hr
    refine Or.inl ⟨goto a (.lockWait r) s, if_neg (by omega),
      h.moveUnlocked (by rw [ha]; rfl) rfl ⟨?_, ?_, ?_⟩⟩
    · rintro _ ⟨⟩
      exact hr
    · rintro _ ⟨⟩ b -
      exact hput b
    · rintro _ ⟨⟩
  | run a =>
    rcases h.run_spec he with hok | hfree
    · exact Or.inl hok
    · exact Or.inr (Or.inr hfree)
  | change a r d =>
    obtain ⟨⟨b, ha⟩, hd⟩ := he
    have hlock : (s.pc a).lock? = some r := by rw [ha]; rfl
    obtain ⟨hvalid, htype, hsame, hgen, -⟩ :=
      h.locked_copy hlock (by rw [ha]; rfl) (by rw [ha]; rfl)
    refine Or.inl ⟨_, rfl, h.moveLocked (c := .locked r true) hlock rfl (by rw [ha]; rfl) _ s.disk
      rfl rfl (fun _ _ => rfl) ⟨fun _ _ _ => hvalid, fun _ _ _ => ?_⟩⟩
    refine ⟨fun hzero => htype (hd.symm.trans hzero), hd.trans hsame, hgen, fun hc => ?_⟩
    cases hc _ rfl
  | iupdate a r =>
    obtain ⟨b, ha⟩ := he
    have hback := h.writeBack (c := .locked r false) (by rw [ha]; rfl) (by rw [ha]; rfl)
      (by rw [ha]; rfl) rfl (by rw [ha]; rfl) id (Or.inr rfl)
    have hinode : update s.inode r.ip (s.inode r.ip) = s.inode :=
      update_eq_self r.ip s.inode
    have hsame : setCopy r.ip id s = s := congrArg (fun f => { s with inode := f }) hinode
    rw [hsame] at hback
    exact Or.inl ⟨_, rfl, hback⟩
  | iunlock a r =>
    have ha : s.pc a = .locked r false := he
    have hlock : (s.pc a).lock? = some r := by rw [ha]; rfl
    have hpos := h.ref_pos_of_use (Pc.ref?_of_lock? hlock)
    obtain ⟨hvalid, htype, hsame, hgen, hcopy⟩ :=
      h.locked_copy hlock (by rw [ha]; rfl) (by rw [ha]; rfl)
    have hrel := h.releaseLock (c := .idle) hlock rfl (fits_of_none rfl) rfl rfl
      ⟨fun _ hc => (by cases hc),
        fun _ _ _ => ⟨htype, hsame, hgen, fun _ => hcopy (by rw [ha]; rfl)⟩⟩
    rw [update_eq_self] at hrel
    refine Or.inl ⟨_, if_neg ?_, hrel⟩
    rw [h.lock_of_pc hlock]
    simp only [ne_eq, not_true_eq_false, false_or]
    omega
  | iput a r => exact Or.inl (h.iput_spec he.1 he.2.1 he.2.2)
  | ialloc a dev type =>
    have ha : s.pc a = .idle := he.1
    exact Or.inl ⟨_, rfl, h.moveUnlocked (by rw [ha]; rfl) rfl (fits_of_none rfl)⟩
  | allocGet a n =>
    show (∃ t, allocGet a n s = .ok t ∧ Inv t) ∨ allocGet a n s = _ ∨ allocGet a n s = _
    unfold allocGet
    cases ha : s.pc a with
    | allocGet dev inum =>
      simp only
      rcases h.iget_spec he.2 dev inum with ⟨t, hrun, hinv, hpc⟩ | hfull
      · left
        rw [hrun, ok_bind]
        exact ⟨_, rfl, hinv.moveUnlocked (by rw [hpc, ha]; rfl) rfl (fits_of_none rfl)⟩
      · right
        left
        rw [hfull, error_bind]
    | _ => exact Or.inl ⟨s, rfl, h⟩

omit [DecidableEq A] in
theorem inv_start (disk : ℕ × ℕ → Dinode) (n : ℕ) : Inv (start disk n : State A H) := by
  constructor
  · intro e
    simp [start, count]
  · intro e e' hpos
    cases hpos
  · intro a r ha
    cases ha
  · intro a b r ha
    cases ha
  · intro a e
    simp [start, Pc.lock?]
  · intro e
    constructor
    · intro c hc
      cases hc
    · intro hpos
      cases hpos

theorem Reach.inv {disk : ℕ × ℕ → Dinode} {n : ℕ} (h : Reach disk n s) : Inv s := by
  induction h with
  | start => exact inv_start disk n
  | step _ he hs ih =>
    rcases step_spec ih he with ⟨t, ht, hinv⟩ | herr | herr
    · rw [hs] at ht
      cases ht
      exact hinv
    · rw [hs] at herr
      cases herr
    · rw [hs] at herr
      cases herr

/-- Take the steps of a list. -/
def runEvents [Fintype A] : List (Event A H) → State A H → Option (State A H)
  | [], s => some s
  | e :: l, s =>
    if Enabled s e then
      match step s e with
      | .ok t => runEvents l t
      | .error _ => none
    else none

theorem Reach.of_runEvents [Fintype A] {disk : ℕ × ℕ → Dinode} {n : ℕ} {l : List (Event A H)}
    {s t : State A H} (h : Reach disk n s) (hrun : runEvents l s = some t) : Reach disk n t := by
  induction l generalizing s with
  | nil =>
    cases hrun
    exact h
  | cons e l ih =>
    rw [runEvents] at hrun
    split_ifs at hrun with he
    split at hrun
    · next u hs => exact ih (h.step he hs) hrun
    · cases hrun

/-- `itable.inode[0]`. -/
def firstEntry : Fin ninode := Fin.mk 0 (Nat.zero_lt_succ _)

/-- The first activity creates an inode, locks and unlocks it, and gives it up; while it frees the
inode, the second one creates an inode, gets the same entry, and locks it afterwards. -/
def reuse : List (Event Bool ℕ) :=
  [.ialloc false 1 2, .run false, .allocGet false 0, .ilock false ⟨0, firstEntry⟩, .run false,
    .run false, .iunlock false ⟨0, firstEntry⟩, .iput false ⟨0, firstEntry⟩, .run false, .run false,
    .ialloc true 1 3, .run true, .allocGet true 1, .ilock true ⟨1, firstEntry⟩,
    .run false, .run true, .run true, .run false]

end Xv6.Itable
