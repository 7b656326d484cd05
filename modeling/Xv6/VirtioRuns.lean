/-
# The virtio request protocol over whole runs

Every step of a process, of the interrupt handler and of the device returns and keeps the
invariants of `VirtioInv` (`step_spec`).  Heads on their way are the heads of different chains, so
at most `NUM` are, the rings never overflow, and the 16-bit indices may wrap.
-/
import Xv6.VirtioDesc

namespace Xv6.Virtio

open Function

variable {ch : Chain} {sl : Slot}

variable {P B : Type}

/-- The invariants of a state. -/
structure Inv (s : State P B) : Prop where
  lock : LockInv s.lock s.mode (fun p => (s.point p).inside) s.intr
  owner : OwnerInv (fun p => (s.point p).call?) s.owner
  chain : ChainInv (fun p => (s.point p).chain?) s.free
  formatted : ∀ p q, (s.point p).req? = some q → Formatted s.desc s.ops s.info q
  flag : FlagInv (fun p => (s.point p).begun?) (fun p => (s.point p).wait?) s.disk s.clears s.out
  work : WorkInv (fun p => (s.point p).begun?) (fun p => (s.point p).wait?) s.info s.served s.todo
    s.done
  number : NumberInv (fun p => (s.point p).req?) s.born s.request s.current s.clears s.served
    s.returned
  ring : RingInv s.avail s.used s.lastAvail s.usedIdx (fun p => (s.point p).bump?) s.pushing s.intr

theorem inv_start (n : ℕ) : Inv (start n : State P B) := by
  have hidx : n % 2 ^ 16 < 2 ^ 16 := Nat.mod_lt _ (by decide)
  have hout : (start n : State P B).out = [] := by
    simp [State.out, State.todo, State.done, start, Ring.from_eq_nil]
  have htodo : (start n : State P B).todo = [] := (List.append_eq_nil_iff.mp hout).1
  have hdone : (start n : State P B).done = [] := (List.append_eq_nil_iff.mp hout).2
  constructor
  · exact ⟨fun p => by simp [start], by simp [start], nofun⟩
  · exact nofun
  · exact ⟨nofun, nofun, nofun⟩
  · exact nofun
  · rw [hout]
    exact ⟨nofun, nofun, nofun, List.nodup_nil⟩
  · rw [htodo, hdone]
    exact ⟨nofun, nofun, nofun, nofun⟩
  · exact ⟨nofun, nofun, nofun, nofun, nofun, nofun, nofun, fun r _ => ⟨rfl, rfl, rfl⟩⟩
  · exact ⟨hidx, hidx, hidx, hidx, nofun, nofun, nofun⟩

/-! ## What the invariants say about requests on their way -/

namespace Inv

variable {s : State P B}

/-- Requests of different processes have different buffers and numbers. -/
theorem ne_of_ne (h : Inv s) {p p' : P} {q q' : Req B} (hp : (s.point p).req? = some q)
    (hp' : (s.point p').req? = some q') (hne : p' ≠ p) :
    q'.call.b ≠ q.call.b ∧ q'.no ≠ q.no := by
  constructor
  · intro hb
    exact hne (h.owner.eq_of_buf (Point.call?_of_req? hp') (Point.call?_of_req? hp) hb)
  · intro hno
    exact hne (h.number.inj p' p q' q hp' hp hno)

/-- A process that waits is not one whose request is unpublished. -/
theorem ne_of_begun (h : Inv s) {p p' : P} {q q' : Req B} (hp : (s.point p).wait? = some q)
    (hp' : (s.point p').begun? = some q') : q'.call.b ≠ q.call.b ∧ q'.no ≠ q.no := by
  refine h.ne_of_ne (Point.req?_of_wait? hp) (Point.req?_of_begun? hp') ?_
  rintro rfl
  rw [Point.wait?_of_begun? hp'] at hp
  cases hp

theorem lt_of_mem_out (h : Inv s) (hsl : sl ∈ s.out) : sl.id < numDesc := by
  obtain ⟨p, q, hp, rfl, -⟩ := h.flag.of_out sl hsl
  exact (h.chain.busy p q.chain (Point.chain?_of_req? (Point.req?_of_wait? hp)) q.chain.idx0
    (by simp [Chain.toList])).1

/-- There are at most as many requests on their way as descriptors. -/
theorem length_out (h : Inv s) : s.out.length ≤ numDesc := by
  have hsub : s.out.map Slot.id ⊆ List.range numDesc := by
    intro i hi
    obtain ⟨sl, hsl, rfl⟩ := List.mem_map.mp hi
    exact List.mem_range.mpr (h.lt_of_mem_out hsl)
  simpa using (h.flag.nodup.subperm hsub).length_le

/-- The chain of a process that does not wait has none of the heads on their way. -/
theorem head_not_mem (h : Inv s) {p : P} (hch : (s.point p).chain? = some ch)
    (hp : (s.point p).wait? = none) : ∀ sl ∈ s.out, sl.id ∉ ch.toList := by
  intro sl hsl hmem
  obtain ⟨p', q, hq, rfl, -⟩ := h.flag.of_out sl hsl
  have hsame := h.chain.apart p' p q.chain ch q.chain.idx0
    (Point.chain?_of_req? (Point.req?_of_wait? hq)) hch (by simp [Chain.toList]) hmem
  subst hsame
  have hnone := hq.symm.trans hp
  cases hnone

/-- While a request is not yet published, there is room for it. -/
theorem length_out_lt (h : Inv s) {p : P} {q : Req B} (hp : (s.point p).begun? = some q) :
    s.out.length < numDesc := by
  have hlt := (h.chain.busy p q.chain (Point.chain?_of_req? (Point.req?_of_begun? hp)) q.chain.idx0
    (by simp [Chain.toList])).1
  have hnd : (q.chain.idx0 :: s.out.map Slot.id).Nodup := by
    refine List.nodup_cons.mpr ⟨fun hmem => ?_, h.flag.nodup⟩
    obtain ⟨sl, hsl, heq⟩ := List.mem_map.mp hmem
    exact h.head_not_mem (Point.chain?_of_req? (Point.req?_of_begun? hp))
      (Point.wait?_of_begun? hp) sl hsl (by rw [heq]; simp [Chain.toList])
  have hsub : q.chain.idx0 :: s.out.map Slot.id ⊆ List.range numDesc := by
    intro i hi
    rcases List.mem_cons.mp hi with rfl | hi
    · exact List.mem_range.mpr hlt
    · obtain ⟨sl, hsl, rfl⟩ := List.mem_map.mp hi
      exact List.mem_range.mpr (h.lt_of_mem_out hsl)
  have hlen := (hnd.subperm hsub).length_le
  simp only [List.length_cons, List.length_map, List.length_range] at hlen
  omega

theorem length_avail_le (s : State P B) : (s.avail.from s.lastAvail).length ≤ s.out.length := by
  simp only [State.out, State.todo, List.length_append]
  omega

/-! ## Callers -/

/-- The owner of a buffer that no call is about changes. -/
theorem setOwner [DecidableEq B] (h : Inv s) {b : B} (o : Option P)
    (hb : ∀ p c, (s.point p).call? = some c → c.b ≠ b) :
    Inv { s with owner := update s.owner b o } := by
  refine ⟨h.lock, fun p c hc => ?_, h.chain, h.formatted, h.flag, h.work, h.number, h.ring⟩
  show update s.owner b o c.b = some p
  rw [update_of_ne (hb p c hc)]
  exact h.owner p c hc

theorem lockBuf [DecidableEq B] (h : Inv s) {p : P} {b : B} (hb : s.owner b = none) :
    Inv { s with owner := update s.owner b (some p) } := by
  refine h.setOwner _ ?_
  rintro p' c hc rfl
  have ho := h.owner p' c hc
  rw [hb] at ho
  cases ho

theorem unlockBuf [DecidableEq B] (h : Inv s) {p : P} {b : B} (hp : s.point p = .user)
    (hb : s.owner b = some p) :
    Inv { s with owner := update s.owner b none } := by
  refine h.setOwner _ ?_
  rintro p' c hc rfl
  have ho := h.owner p' c hc
  rw [hb] at ho
  cases ho
  rw [hp] at hc
  cases hc

variable [DecidableEq P]

/-- What is held at a point that holds the same. -/
theorem view_same {γ : Type} (f : Point B → γ) {g : P → Point B} {p : P} {x : γ} (h : x = f (g p)) :
    update (fun p => f (g p)) p x = fun p => f (g p) := by
  rw [h]
  exact update_eq_self p _

/-- A process moves to another point: each invariant sees what the point holds. -/
theorem of_goto {u : State P B} (hu : u.point = s.point) (p : P) (pt : Point B)
    (hlock : LockInv u.lock u.mode (update (fun p => (s.point p).inside) p pt.inside) u.intr)
    (howner : OwnerInv (update (fun p => (s.point p).call?) p pt.call?) u.owner)
    (hchain : ChainInv (update (fun p => (s.point p).chain?) p pt.chain?) u.free)
    (hformatted : ∀ p' q, update (fun p => (s.point p).req?) p pt.req? p' = some q →
      Formatted u.desc u.ops u.info q)
    (hflag : FlagInv (update (fun p => (s.point p).begun?) p pt.begun?)
      (update (fun p => (s.point p).wait?) p pt.wait?) u.disk u.clears u.out)
    (hwork : WorkInv (update (fun p => (s.point p).begun?) p pt.begun?)
      (update (fun p => (s.point p).wait?) p pt.wait?) u.info u.served u.todo u.done)
    (hnumber : NumberInv (update (fun p => (s.point p).req?) p pt.req?) u.born u.request u.current
      u.clears u.served u.returned)
    (hring : RingInv u.avail u.used u.lastAvail u.usedIdx
      (update (fun p => (s.point p).bump?) p pt.bump?) u.pushing u.intr) :
    Inv (goto p pt u) := by
  rw [← hu] at *
  simp only [← view_update] at *
  exact ⟨hlock, howner, hchain, hformatted, hflag, hwork, hnumber, hring⟩

/-- A process moves between points without a request. -/
theorem goto_of_req (h : Inv s) {p : P} {pt : Point B} {free : ℕ → Bool}
    (hreq : (s.point p).req? = none) (hreq' : pt.req? = none)
    (hlock : LockInv s.lock s.mode (update (fun p => (s.point p).inside) p pt.inside) s.intr)
    (howner : OwnerInv (update (fun p => (s.point p).call?) p pt.call?) s.owner)
    (hchain : ChainInv (update (fun p => (s.point p).chain?) p pt.chain?) free) :
    Inv (goto p pt { s with free := free }) := by
  have hnone : ∀ pt' : Point B, pt'.req? = none →
      pt'.begun? = none ∧ pt'.wait? = none ∧ pt'.bump? = none := by
    intro pt' hpt'
    cases pt' <;> first | exact ⟨rfl, rfl, rfl⟩ | cases hpt'
  obtain ⟨hbegun, hwait, hbump⟩ := hnone _ hreq
  obtain ⟨hbegun', hwait', hbump'⟩ := hnone _ hreq'
  refine of_goto rfl p pt hlock howner hchain ?_ ?_ ?_ ?_ ?_
  · rw [view_same Point.req? (hreq'.trans hreq.symm)]
    exact h.formatted
  · rw [view_same Point.begun? (hbegun'.trans hbegun.symm),
      view_same Point.wait? (hwait'.trans hwait.symm)]
    exact h.flag
  · rw [view_same Point.begun? (hbegun'.trans hbegun.symm),
      view_same Point.wait? (hwait'.trans hwait.symm)]
    exact h.work
  · rw [view_same Point.req? (hreq'.trans hreq.symm)]
    exact h.number
  · rw [view_same Point.bump? (hbump'.trans hbump.symm)]
    exact h.ring

theorem call (h : Inv s) {p : P} {c : Call B} (hp : s.point p = .user)
    (ho : s.owner c.b = some p) : Inv (goto p (.alloc c) s) := by
  refine h.goto_of_req (by rw [hp]; rfl) rfl ?_ ?_ ?_
  · rw [view_same Point.inside (by rw [hp]; rfl)]
    exact h.lock
  · refine h.owner.update fun c' hc' => ?_
    cases hc'
    exact ho
  · rw [view_same Point.chain? (by rw [hp]; rfl)]
    exact h.chain

omit [DecidableEq P] in
/-- Steps that concern locks only. -/
theorem of_lock (h : Inv s) {lock : Option (Holder P)} {mode : P → Mode B}
    (hl : LockInv lock mode (fun p => (s.point p).inside) s.intr) :
    Inv { s with lock := lock, mode := mode } :=
  ⟨hl, h.owner, h.chain, h.formatted, h.flag, h.work, h.number, h.ring⟩

theorem acquire (h : Inv s) (p : P) (hl : s.lock = none) : Inv (acquire p s) := by
  have hlock := h.lock
  rw [hl] at hlock
  exact h.of_lock (hlock.acquire p)

theorem kill (h : Inv s) {p : P} (hp : s.mode p ≠ .holds) :
    Inv { s with mode := update s.mode p .wants } := by
  refine h.of_lock (h.lock.congr_mode fun p' => ?_)
  by_cases he : p' = p
  · subst he
    simp [hp]
  · rw [update_of_ne he]

theorem sleep (h : Inv s) {p : P} (hp : s.mode p = .holds) (hin : (s.point p).inside = false)
    (ch : Chan B) : Inv (sleep p ch s) :=
  h.of_lock (h.lock.giveUp hp hin nofun)

/-! ## `virtio_disk_rw` -/

omit [DecidableEq P] in
theorem rolledBack (h : Inv s) {t : State P B} (ht : RolledBack s t) : Inv t := by
  obtain ⟨desc, mode, rfl⟩ : ∃ desc mode, t = { s with desc := desc, mode := mode } :=
    ⟨_, _, ht.eq⟩
  refine ⟨h.lock.congr_mode ht.mode, h.owner, h.chain, fun p q hq => ?_, h.flag, h.work, h.number,
    h.ring⟩
  refine (h.formatted p q hq).congr (fun i hi => ht.desc i ?_) rfl rfl
  exact (h.chain.busy p q.chain (Point.chain?_of_req? hq) i hi).2

theorem took (h : Inv s) {p : P} {c : Call B} (hp : s.point p = .alloc c) (hm : s.mode p = .holds)
    (hnd : ch.toList.Nodup) (hch : ∀ i ∈ ch.toList, i < numDesc ∧ s.free i = true) :
    Inv (goto p (.format c ch) (took ch.toList.reverse s)) := by
  refine h.goto_of_req (by rw [hp]; rfl) rfl (h.lock.move hm true) ?_ ?_
  · refine h.owner.update fun c' hc' => ?_
    cases hc'
    have hcall : (s.point p).call? = some c := by rw [hp]; rfl
    exact h.owner p c hcall
  · exact h.chain.alloc hnd hch fun i => by simp

omit [DecidableEq P] in
/-- Only the descriptors of another chain change. -/
theorem formatted_of_apart (h : Inv s) {p p' : P} {q' : Req B} (hch : (s.point p).chain? = some ch)
    (hq' : (s.point p').req? = some q') (he : p' ≠ p) {desc : ℕ → Desc B} {ops : ℕ → BlkReq}
    {info : ℕ → Info B} (hdesc : ∀ i, i ∉ ch.toList → desc i = s.desc i)
    (hops : ∀ i, i ≠ ch.idx0 → ops i = s.ops i)
    (hinfo : ∀ i, i ≠ ch.idx0 → (info i).b = (s.info i).b) : Formatted desc ops info q' := by
  have hnot : ∀ i ∈ q'.chain.toList, i ∉ ch.toList := fun i hi hmem =>
    he (h.chain.apart p' p q'.chain ch i (Point.chain?_of_req? hq') hch hi hmem)
  have hne : q'.chain.idx0 ≠ ch.idx0 := fun heq =>
    hnot q'.chain.idx0 (by simp [Chain.toList]) (by simp [Chain.toList, heq])
  exact (h.formatted p' q' hq').congr (fun i hi => hdesc i (hnot i hi)) (hops _ hne) (hinfo _ hne)

theorem format [DecidableEq B] (h : Inv s) {p : P} {c : Call B} (hp : s.point p = .format c ch) :
    Inv (goto p (.ring ⟨c, ch, s.born⟩) (format c ch s)) := by
  have hch : (s.point p).chain? = some ch := by rw [hp]; rfl
  have hcall : (s.point p).call? = some c := by rw [hp]; rfl
  have hreq : (s.point p).req? = none := by rw [hp]; rfl
  have hwait : (s.point p).wait? = none := by rw [hp]; rfl
  have hfresh := h.number.fresh s.born le_rfl
  -- other requests are about other buffers
  have hbuf : ∀ p' q', (s.point p').req? = some q' → q'.call.b ≠ c.b := by
    intro p' q' hq' hb
    obtain rfl := h.owner.eq_of_buf (Point.call?_of_req? hq') hcall hb
    rw [hreq] at hq'
    cases hq'
  refine of_goto (s := s) (by rfl) p _ ?_ ?_ ?_ ?_ ?_ ?_ ?_ ?_
  · rw [view_same Point.inside (by rw [hp]; rfl)]
    exact h.lock
  · rw [view_same Point.call? (by rw [hp]; rfl)]
    exact h.owner
  · rw [view_same Point.chain? (by rw [hp]; rfl)]
    exact h.chain
  · intro p' q' hq'
    rcases update_eq_some hq' with ⟨rfl, ⟨⟩⟩ | ⟨he, hq'⟩
    · exact formatted_format c (h.chain.nodup p' ch hch) s s.born
    · exact h.formatted_of_apart hch hq' he (fun i => format_desc_of_not_mem c s)
        (fun i hi => update_of_ne hi _ _) fun i hi => congrArg Info.b (update_of_ne hi _ _)
  · rw [view_same Point.wait? (by rw [hp]; rfl)]
    exact h.flag.format hfresh.1 (fun p' q' hq' => hbuf p' q' (Point.req?_of_begun? hq'))
      (fun p' q' hq' => hbuf p' q' (Point.req?_of_wait? hq'))
  · rw [view_same Point.wait? (by rw [hp]; rfl)]
    refine h.work.format hfresh.2.1 fun sl hsl => update_of_ne (fun heq => ?_) _ _
    exact h.head_not_mem hch hwait sl (List.mem_append_right _ hsl) (by simp [heq, Chain.toList])
  · exact h.number.format c ch hreq hbuf
  · rw [view_same Point.bump? (by rw [hp]; rfl)]
    exact h.ring

omit [DecidableEq P] in
/-- Only the holder of the lock is about to advance `avail->idx`. -/
theorem eq_of_bump? (h : Inv s) {p p' : P} {q : Req B} (hm : s.mode p = .holds)
    (hp' : (s.point p').bump? = some q) : p' = p :=
  h.lock.eq_of_holds (h.lock.inside p' (Point.inside_of_bump? hp')) hm

theorem ring_put (h : Inv s) {p : P} {q : Req B} (hp : s.point p = .ring q)
    (hm : s.mode p = .holds) :
    Inv (goto p (.bump q) { s with avail := s.avail.put q.slot }) := by
  have hbegun : (s.point p).begun? = some q := by rw [hp]; rfl
  have hroom : (s.avail.from s.lastAvail).length < numDesc :=
    (length_avail_le s).trans_lt (h.length_out_lt hbegun)
  have hfrom : (s.avail.put q.slot).from s.lastAvail = s.avail.from s.lastAvail :=
    Ring.from_put h.ring.lastAvail_lt h.ring.avail_lt hroom q.slot
  have htodo : ({ s with avail := s.avail.put q.slot } : State P B).todo = s.todo :=
    congrArg (· ++ s.active) hfrom
  have hout : ({ s with avail := s.avail.put q.slot } : State P B).out = s.out :=
    congrArg (· ++ s.done) htodo
  refine of_goto (s := s) (by rfl) p _ ?_ ?_ ?_ ?_ ?_ ?_ ?_ ?_
  · rw [view_same Point.inside (by rw [hp]; rfl)]
    exact h.lock
  · rw [view_same Point.call? (by rw [hp]; rfl)]
    exact h.owner
  · rw [view_same Point.chain? (by rw [hp]; rfl)]
    exact h.chain
  · rw [view_same Point.req? (by rw [hp]; rfl)]
    exact h.formatted
  · rw [hout, view_same Point.begun? (by rw [hp]; rfl), view_same Point.wait? (by rw [hp]; rfl)]
    exact h.flag
  · rw [htodo, view_same Point.begun? (by rw [hp]; rfl), view_same Point.wait? (by rw [hp]; rfl)]
    exact h.work
  · rw [view_same Point.req? (by rw [hp]; rfl)]
    exact h.number
  · refine ⟨h.ring.avail_lt, h.ring.used_lt, h.ring.lastAvail_lt, h.ring.usedIdx_lt,
      fun p' q' hq' => ?_, h.ring.of_pushing, h.ring.of_body⟩
    rcases update_eq_some hq' with ⟨-, ⟨⟩⟩ | ⟨he, hq'⟩
    · exact Ring.put_slot s.avail q.slot
    · exact absurd (h.eq_of_bump? hm hq') he

theorem bump (h : Inv s) {p : P} {q : Req B} (hp : s.point p = .bump q) (hm : s.mode p = .holds) :
    Inv (goto p (.wait q) { s with avail := s.avail.bump }) := by
  have hbegun : (s.point p).begun? = some q := by rw [hp]; rfl
  have hbump : (s.point p).bump? = some q := by rw [hp]; rfl
  have hwait : (s.point p).wait? = none := by rw [hp]; rfl
  have hroom : (s.avail.from s.lastAvail).length < numDesc :=
    (length_avail_le s).trans_lt (h.length_out_lt hbegun)
  have hfrom : s.avail.bump.from s.lastAvail = s.avail.from s.lastAvail ++ [q.slot] := by
    rw [← h.ring.of_bump p q hbump]
    exact Ring.from_bump h.ring.lastAvail_lt h.ring.avail_lt hroom
  have htodo : ({ s with avail := s.avail.bump } : State P B).todo =
      s.avail.from s.lastAvail ++ [q.slot] ++ s.active := congrArg (· ++ s.active) hfrom
  have hperm : (s.avail.from s.lastAvail ++ [q.slot] ++ s.active).Perm (q.slot :: s.todo) := by
    rw [List.append_assoc, List.singleton_append]
    exact List.perm_middle
  have hout : ({ s with avail := s.avail.bump } : State P B).out.Perm (q.slot :: s.out) := by
    unfold State.out
    rw [htodo]
    exact hperm.append_right s.done
  refine of_goto (s := s) (by rfl) p (.wait q) (h.lock.move hm false) ?_ ?_ ?_ ?_ ?_ ?_ ?_
  · rw [view_same Point.call? (by rw [hp]; rfl)]
    exact h.owner
  · rw [view_same Point.chain? (by rw [hp]; rfl)]
    exact h.chain
  · rw [view_same Point.req? (by rw [hp]; rfl)]
    exact h.formatted
  · refine FlagInv.perm (h.flag.publish hbegun hwait fun sl hsl heq => ?_) hout
    exact h.head_not_mem (Point.chain?_of_req? (Point.req?_of_begun? hbegun)) hwait sl hsl
      (by simp [heq, Chain.toList])
  · rw [htodo]
    exact h.work.publish hbegun fun sl => hperm.mem_iff.trans List.mem_cons
  · rw [view_same Point.req? (by rw [hp]; rfl)]
    exact h.number
  · refine ⟨add16_lt _ _, h.ring.used_lt, h.ring.lastAvail_lt, h.ring.usedIdx_lt,
      fun p' q' hq' => ?_, h.ring.of_pushing, h.ring.of_body⟩
    obtain ⟨he, hq'⟩ := update_none_eq_some hq'
    exact absurd (h.eq_of_bump? hm hq') he

/-- The call returns: its descriptors are freed and the lock is released. -/
theorem finish [DecidableEq B] (h : Inv s) {p : P} {q : Req B} (hp : s.point p = .wait q)
    (hm : s.mode p = .holds) (hd : s.disk q.call.b = false) {t : State P B}
    (ht : Freed [q.chain.idx2, q.chain.idx1, q.chain.idx0] (forget q.chain s) t) :
    Inv (goto p .user (release p { t with returned := update t.returned q.no true })) := by
  obtain ⟨free, desc, mode, rfl⟩ : ∃ free desc mode,
      t = { forget q.chain s with free := free, desc := desc, mode := mode } := ⟨_, _, _, ht.eq⟩
  have hwait : (s.point p).wait? = some q := by rw [hp]; rfl
  have hreq : (s.point p).req? = some q := by rw [hp]; rfl
  have hmem : ∀ i, i ∉ q.chain.toList → i ∉ [q.chain.idx2, q.chain.idx1, q.chain.idx0] := by
    intro i hi
    simp only [Chain.toList, List.mem_cons, List.not_mem_nil, or_false, not_or] at hi ⊢
    exact ⟨hi.2.2, hi.2.1, hi.1⟩
  -- the flag has been cleared, so the request has come back
  have hclears : s.clears q.no = [q.no] := by
    rcases h.flag.of_wait p q hwait with ⟨hd', -⟩ | ⟨-, hc⟩
    · rw [hd] at hd'
      cases hd'
    · exact hc
  have hserved : s.served q.no = [q.call.transfer] := by
    refine h.work.of_wait p q hwait fun hsl => ?_
    obtain ⟨p', q', hq', hslot, hd'⟩ := h.flag.of_out q.slot (List.mem_append_left _ hsl)
    by_cases he : p' = p
    · subst he
      cases hq'.symm.trans hwait
      rw [hd] at hd'
      cases hd'
    · exact (h.ne_of_ne hreq (Point.req?_of_wait? hq') he).2 (congrArg Slot.req hslot)
  refine of_goto (s := s) (by rfl) p .user ?_ (h.owner.update fun c hc => by cases hc) ?_ ?_ ?_ ?_ ?_ ?_
  · rw [view_same Point.inside (by rw [hp]; rfl)]
    have hin : (s.point p).inside = false := by rw [hp]; rfl
    exact (h.lock.congr_mode ht.mode).giveUp ((ht.mode p).mpr hm) hin (by simp)
  · refine h.chain.giveBack (Point.chain?_of_req? hreq) fun i hi => ?_
    have hfree := ht.free i
    rw [decide_eq_false (hmem i hi), Bool.or_false] at hfree
    exact hfree
  · intro p' q' hq'
    obtain ⟨he, hq'⟩ := update_none_eq_some hq'
    exact h.formatted_of_apart (Point.chain?_of_req? hreq) hq' he (fun i hi => ht.desc i (hmem i hi))
      (fun _ _ => rfl) fun i hi => congrArg Info.b (update_of_ne hi _ _)
  · rw [view_same Point.begun? (by rw [hp]; rfl)]
    exact h.flag.finish hwait hd
  · rw [view_same Point.begun? (by rw [hp]; rfl)]
    refine h.work.finish p fun i => ?_
    show (update s.info q.chain.idx0 _ i).status = _
    by_cases hi : i = q.chain.idx0
    · rw [hi, update_self]
    · rw [update_of_ne hi]
  · exact h.number.finish hreq hclears hserved
  · rw [view_same Point.bump? (by rw [hp]; rfl)]
    exact h.ring

/-! ## `virtio_disk_intr` -/

omit [DecidableEq P] in
/-- The handler is at the head of its loop, or does not run. -/
theorem of_intr (h : Inv s) {lock : Option (Holder P)} {intr : Intr}
    (hl : LockInv lock s.mode (fun p => (s.point p).inside) intr)
    (hbody : ∀ sl, intr = .body sl → s.usedIdx ≠ s.used.idx ∧
      s.used.ring (s.usedIdx % numDesc) = sl) : Inv { s with lock := lock, intr := intr } :=
  ⟨hl, h.owner, h.chain, h.formatted, h.flag, h.work, h.number,
    ⟨h.ring.avail_lt, h.ring.used_lt, h.ring.lastAvail_lt, h.ring.usedIdx_lt, h.ring.of_bump,
      h.ring.of_pushing, hbody⟩⟩

omit [DecidableEq P] in
/-- The entry the handler has read is that of a request that has been carried out. -/
theorem of_body (h : Inv s) (hi : s.intr = .body sl) :
    s.used.from s.usedIdx = sl :: s.used.from (add16 s.usedIdx 1) := by
  obtain ⟨hne, hsl⟩ := h.ring.of_body sl hi
  rw [← hsl]
  exact Ring.from_eq_cons h.ring.usedIdx_lt h.ring.used_lt hne

theorem clear [DecidableEq B] (h : Inv s) {p : P} {q : Req B} (hi : s.intr = .body q.slot)
    (hp : (s.point p).wait? = some q) :
    Inv { clear q.call.b q.no s with usedIdx := add16 s.usedIdx 1, intr := .test } := by
  have hreq := Point.req?_of_wait? hp
  have hcur : s.current q.call.b = q.no := h.number.of_current p q hreq
  have hdone : s.done.Perm
      (q.slot :: (s.finished ++ s.pushing.toList ++ s.used.from (add16 s.usedIdx 1))) := by
    unfold State.done
    rw [h.of_body hi]
    exact List.perm_middle
  have hout : s.out.Perm (q.slot ::
      (s.todo ++ (s.finished ++ s.pushing.toList ++ s.used.from (add16 s.usedIdx 1)))) :=
    (hdone.append_left s.todo).trans List.perm_middle
  have hwait : ∀ p' q', (s.point p').wait? = some q' → p' ≠ p →
      q'.call.b ≠ q.call.b ∧ q'.no ≠ q.no := fun p' q' hq' he =>
    h.ne_of_ne hreq (Point.req?_of_wait? hq') he
  have hclears : (Virtio.clear q.call.b q.no s).clears =
      update s.clears q.no (s.clears q.no ++ [q.no]) := by
    show update s.clears (s.current q.call.b) _ = _
    rw [hcur]
  constructor
  · refine ((h.lock.congr_mode (wakeup_mode (.buf q.call.b) _ ))).of_running ?_ nofun
    rw [hi]
    exact nofun
  · exact h.owner
  · exact h.chain
  · exact h.formatted
  · show FlagInv _ _ (update s.disk q.call.b false) (Virtio.clear q.call.b q.no s).clears _
    rw [hclears]
    exact h.flag.clear hout hp (fun p' q' hq' => h.ne_of_begun hp hq') hwait
  · refine h.work.mono (fun sl => Iff.rfl) fun sl hsl => ?_
    exact hdone.mem_iff.mpr (List.mem_cons_of_mem _ hsl)
  · refine h.number.progress hreq (fun r hr => ?_) fun r _ => rfl
    show (Virtio.clear q.call.b q.no s).clears r = s.clears r
    rw [hclears, update_of_ne hr]
  · exact ⟨h.ring.avail_lt, h.ring.used_lt, h.ring.lastAvail_lt, add16_lt _ _, h.ring.of_bump,
      h.ring.of_pushing, nofun⟩

/-! ## The device -/

omit [DecidableEq P] in
/-- The device moves requests on. -/
theorem of_lists (h : Inv s) (avail used : Ring) (lastAvail : ℕ) (active finished : List Slot)
    (pushing : Option Slot)
    (hring : RingInv avail used lastAvail s.usedIdx (fun p => (s.point p).bump?) pushing s.intr)
    (htodo : (avail.from lastAvail ++ active).Perm s.todo)
    (hdone : (finished ++ pushing.toList ++ used.from s.usedIdx).Perm s.done) :
    Inv { s with
      avail := avail, used := used, lastAvail := lastAvail, active := active,
      finished := finished, pushing := pushing } :=
  ⟨h.lock, h.owner, h.chain, h.formatted, h.flag.perm (htodo.append hdone),
    h.work.mono (fun _ => htodo.mem_iff) (fun _ hsl => hdone.mem_iff.mp hsl), h.number, hring⟩

omit [DecidableEq P] in
theorem take (h : Inv s) (hne : s.lastAvail ≠ s.avail.idx) :
    Inv { s with
      lastAvail := add16 s.lastAvail 1
      active := s.active ++ [s.avail.ring (s.lastAvail % numDesc)] } := by
  have hr := h.ring
  refine h.of_lists s.avail s.used _ _ s.finished s.pushing ⟨hr.avail_lt, hr.used_lt, add16_lt _ _,
    hr.usedIdx_lt, hr.of_bump, hr.of_pushing, hr.of_body⟩ ?_ (List.Perm.refl _)
  unfold State.todo
  rw [Ring.from_eq_cons hr.lastAvail_lt hr.avail_lt hne, ← List.append_assoc]
  exact List.perm_append_singleton _ _

omit [DecidableEq P] in
theorem push (h : Inv s) (hsl : sl ∈ s.finished) (hnone : s.pushing = none) :
    Inv { s with
      used := s.used.put sl, finished := s.finished.erase sl, pushing := some sl } := by
  have hr := h.ring
  have hroom : (s.used.from s.usedIdx).length < numDesc := by
    have hlen := h.length_out
    have hpos := List.length_pos_of_mem hsl
    simp only [State.out, State.done, List.length_append] at hlen
    omega
  have hfrom : (s.used.put sl).from s.usedIdx = s.used.from s.usedIdx :=
    Ring.from_put hr.usedIdx_lt hr.used_lt hroom sl
  refine h.of_lists s.avail _ s.lastAvail s.active _ _ ⟨hr.avail_lt, hr.used_lt, hr.lastAvail_lt,
    hr.usedIdx_lt, hr.of_bump, ?_, ?_⟩ (List.Perm.refl _) ?_
  · intro sl' hsl'
    cases hsl'
    exact Ring.put_slot s.used sl
  · -- the entry being read is not overwritten
    intro sl' hsl'
    obtain ⟨hne, -⟩ := hr.of_body sl' hsl'
    refine ⟨hne, ?_⟩
    rw [h.of_body hsl',
      Ring.from_eq_cons (r := s.used.put sl) hr.usedIdx_lt hr.used_lt hne] at hfrom
    exact (List.cons.inj hfrom).1
  · rw [hfrom]
    unfold State.done
    rw [hnone]
    refine List.Perm.append_right _ ?_
    rw [Option.toList_none, List.append_nil]
    exact (List.perm_append_singleton _ _).trans (List.perm_cons_erase hsl).symm

omit [DecidableEq P] in
theorem publish (h : Inv s) (hsl : s.pushing = some sl) :
    Inv { s with used := s.used.bump, pushing := none } := by
  have hr := h.ring
  have hroom : (s.used.from s.usedIdx).length < numDesc := by
    have hlen := h.length_out
    simp only [State.out, State.done, List.length_append, hsl, Option.toList_some,
      List.length_singleton] at hlen
    omega
  have hfrom : s.used.bump.from s.usedIdx = s.used.from s.usedIdx ++ [sl] := by
    rw [← hr.of_pushing sl hsl]
    exact Ring.from_bump hr.usedIdx_lt hr.used_lt hroom
  refine h.of_lists s.avail _ s.lastAvail s.active s.finished none ⟨hr.avail_lt, add16_lt _ _,
    hr.lastAvail_lt, hr.usedIdx_lt, hr.of_bump, nofun, ?_⟩ (List.Perm.refl _) ?_
  · intro sl' hsl'
    refine ⟨fun heq => ?_, (hr.of_body sl' hsl').2⟩
    rw [Ring.from_eq_nil heq] at hfrom
    exact List.append_ne_nil_of_right_ne_nil _ (List.cons_ne_nil sl []) hfrom.symm
  · rw [hfrom]
    unfold State.done
    rw [hsl, Option.toList_none, List.append_nil, Option.toList_some, List.append_assoc]
    exact List.Perm.append_left _ (List.perm_append_comm)

theorem serve [DecidableEq B] (h : Inv s) (hsl : sl ∈ s.active) :
    Inv { serve sl s with active := s.active.erase sl, finished := s.finished ++ [sl] } := by
  have htodo : sl ∈ s.todo := List.mem_append_right _ hsl
  obtain ⟨p, q, hp, rfl, -⟩ := h.flag.of_out sl (List.mem_append_left _ htodo)
  have hreq := Point.req?_of_wait? hp
  have hserve : Virtio.serve q.slot s = { s with
      info := update s.info q.chain.idx0 { s.info q.chain.idx0 with status := 0 }
      served := update s.served q.no (s.served q.no ++ [q.call.transfer]) } := by
    have hwalk : walk s q.slot.id = _ := walk_of_formatted (h.formatted p q hreq)
    unfold Virtio.serve
    rw [hwalk]
    rfl
  rw [hserve]
  have hperm : s.todo.Perm (q.slot :: (s.avail.from s.lastAvail ++ s.active.erase q.slot)) :=
    ((List.perm_cons_erase hsl).append_left _).trans List.perm_middle
  have hdone : ((s.finished ++ [q.slot]) ++ s.pushing.toList ++ s.used.from s.usedIdx).Perm
      (q.slot :: s.done) := by
    unfold State.done
    simp only [List.append_assoc, List.singleton_append]
    exact List.perm_middle
  have hout : ((s.avail.from s.lastAvail ++ s.active.erase q.slot) ++
      ((s.finished ++ [q.slot]) ++ s.pushing.toList ++ s.used.from s.usedIdx)).Perm s.out :=
    ((hdone.append_left _).trans List.perm_middle).trans (hperm.symm.append_right s.done)
  have hnd : (s.todo.map Slot.id).Nodup := by
    have hall := h.flag.nodup
    rw [State.out, List.map_append] at hall
    exact hall.of_append_left
  constructor
  · exact h.lock
  · exact h.owner
  · exact h.chain
  · intro p' q' hq'
    refine (h.formatted p' q' hq').congr (fun _ _ => rfl) rfl ?_
    show (update s.info q.chain.idx0 _ q'.chain.idx0).b = _
    by_cases heq : q'.chain.idx0 = q.chain.idx0
    · rw [heq, update_self]
    · rw [update_of_ne heq]
  · exact h.flag.perm hout
  · refine h.work.serve hp hperm ?_ hnd (fun p' q' hq' => (h.ne_of_begun hp hq').2)
      (fun p' q' hq' he => (h.ne_of_ne hreq (Point.req?_of_wait? hq') he).2) ?_
    · intro sl hsl
      exact List.mem_cons.mp (hdone.mem_iff.mp hsl)
    · intro sl hsl
      obtain ⟨p', q', hq', hslot, -⟩ := h.flag.of_out sl (List.mem_append_left _ hsl)
      exact ⟨p', q', hq', hslot⟩
  · exact h.number.progress hreq (fun _ _ => rfl) fun r hr => update_of_ne hr _ _
  · exact h.ring

end Inv

/-! ## Whole runs -/

variable [DecidableEq P] [DecidableEq B]

/-- A step of `virtio_disk_rw` returns and keeps the invariants. -/
theorem runPoint_spec {s : State P B} (h : Inv s) {p : P} (hm : s.mode p = .holds) :
    ∃ t, runPoint p s (s.point p) = .ok t ∧ Inv t := by
  cases hp : s.point p with
  | user => exact ⟨s, rfl, h⟩
  | alloc c =>
    rcases alloc3Desc_spec s with ⟨t, hrun, ht⟩ | ⟨ch, hrun, hnd, hch⟩
    · have htp : t.point = s.point := by rw [ht.eq]
      refine ⟨sleep p .free t, by rw [runPoint, hrun]; rfl, ?_⟩
      exact (h.rolledBack ht).sleep ((ht.mode p).mpr hm) (by rw [htp, hp]; rfl) .free
    · exact ⟨goto p (.format c ch) (took ch.toList.reverse s), by rw [runPoint, hrun]; rfl,
        h.took hp hm hnd hch⟩
  | format c ch => exact ⟨_, rfl, h.format hp⟩
  | ring q => exact ⟨_, rfl, h.ring_put hp hm⟩
  | bump q => exact ⟨_, rfl, h.bump hp hm⟩
  | wait q =>
    have hreq : (s.point p).req? = some q := by rw [hp]; rfl
    have hch := Point.chain?_of_req? hreq
    by_cases hd : s.disk q.call.b = true
    · exact ⟨sleep p (.buf q.call.b) s, if_pos hd, h.sleep hm (by rw [hp]; rfl) _⟩
    · -- `free_chain` still finds the chain as it was formatted
      have hq := h.formatted p q hreq
      obtain ⟨t, hrun, ht⟩ := freeChain_spec (s := forget q.chain s) hq.desc0 hq.desc1 hq.desc2
        (h.chain.nodup p q.chain hch) (h.chain.busy p q.chain hch)
      refine ⟨_, ?_, h.finish hp hm (Bool.not_eq_true _ ▸ hd) ht⟩
      rw [runPoint, if_neg hd, hrun]
      rfl

/-- A step of `virtio_disk_intr` returns and keeps the invariants. -/
theorem intrRun_spec {s : State P B} (h : Inv s) (hidle : s.intr = .idle → s.lock = none) :
    ∃ t, intrRun s = .ok t ∧ Inv t := by
  unfold intrRun
  cases hi : s.intr with
  | idle =>
    refine ⟨_, rfl, h.of_intr ⟨fun p => ?_, by simp, fun p hp => ?_⟩ nofun⟩
    · rw [h.lock.proc, hidle hi]
      simp
    · exact h.lock.inside p hp
  | test =>
    by_cases hidx : s.usedIdx = s.used.idx
    · have hlock : s.lock = some .intr := h.lock.intr.mp (by rw [hi]; exact nofun)
      refine ⟨_, if_pos hidx, h.of_intr ⟨fun p => ?_, by simp, h.lock.inside⟩ nofun⟩
      rw [h.lock.proc, hlock]
      simp
    · refine ⟨_, if_neg hidx, ?_⟩
      have hrunning : s.intr ≠ .idle := by rw [hi]; exact nofun
      exact h.of_intr (h.lock.of_running hrunning nofun) fun sl hsl => ⟨hidx, Intr.body.inj hsl⟩
  | body sl =>
    have hdone : sl ∈ s.done := by
      unfold State.done
      rw [h.of_body hi]
      exact List.mem_append_right _ List.mem_cons_self
    have hout : sl ∈ s.out := List.mem_append_right _ hdone
    obtain ⟨p, q, hp, rfl, -⟩ := h.flag.of_out sl hout
    have hb : (s.info q.slot.id).b = some q.call.b :=
      (h.formatted p q (Point.req?_of_wait? hp)).buf
    refine ⟨_, ?_, h.clear hi hp⟩
    simp only
    rw [if_neg (Nat.not_le.mpr (h.lt_of_mem_out hout)),
      if_neg (not_not_intro (h.work.of_done q.slot hdone)), hb]
    rfl

/-- Every step that can be taken returns and keeps the invariants. -/
theorem step_spec {s : State P B} (h : Inv s) {e : Event P B} (he : Enabled s e) :
    ∃ t, step s e = .ok t ∧ Inv t := by
  cases e with
  | lockBuf p b => exact ⟨_, rfl, h.lockBuf he.2⟩
  | unlockBuf p b => exact ⟨_, rfl, h.unlockBuf he.1 he.2⟩
  | call p c => exact ⟨_, rfl, h.call he.1 he.2⟩
  | acquire p => exact ⟨_, rfl, h.acquire p he.2.2⟩
  | run p => exact runPoint_spec h he.2
  | kill p => exact ⟨_, rfl, h.kill he⟩
  | intr => exact intrRun_spec h he
  | take => exact ⟨_, rfl, h.take he⟩
  | serve sl => exact ⟨_, rfl, h.serve he⟩
  | push sl => exact ⟨_, rfl, h.push he.1 he.2⟩
  | publish =>
    obtain ⟨sl, hsl⟩ := Option.ne_none_iff_exists'.mp he
    exact ⟨_, rfl, h.publish hsl⟩

theorem Reach.inv {n : ℕ} {s : State P B} (h : Reach n s) : Inv s := by
  induction h with
  | start => exact inv_start n
  | step _ he hs ih =>
    obtain ⟨t, ht, hinv⟩ := step_spec ih he
    rw [hs] at ht
    cases ht
    exact hinv

omit [DecidableEq P] [DecidableEq B] in
/-- A flag is cleared at most once, and by the completion of its own request. -/
theorem Inv.clears {s : State P B} (h : Inv s) (r : ℕ) : s.clears r = [] ∨ s.clears r = [r] := by
  by_cases hr : s.born ≤ r
  · exact Or.inl (h.number.fresh r hr).1
  cases hret : s.returned r with
  | true => exact Or.inr (h.number.of_returned r hret).1
  | false =>
    obtain ⟨p, q, hq, rfl⟩ := h.number.held r (Nat.not_le.mp hr) hret
    rcases Point.begun?_or_wait? hq with hbegun | hwait
    · exact Or.inl (h.flag.of_begun p q hbegun).2
    · rcases h.flag.of_wait p q hwait with ⟨-, -, hc⟩ | ⟨-, hc⟩
      · exact Or.inl hc
      · exact Or.inr hc

/-- In every run of processes, interrupt handler and device, wherever the indices start: every
step returns, so that no panic is reached; a descriptor belongs to one call at most and is then
not free; the rings and the device only have heads of requests that are waited for; a flag is
cleared at most once and by the completion of its own request, which has happened exactly once,
and the device has done what was asked, when the call returns; and when the rings are drained
and the device is idle, no completion is missing. -/
theorem request_protocol {n : ℕ} {s : State P B} (h : Reach n s) :
    (∀ e, Enabled s e → ∃ t, step s e = .ok t) ∧
    (∀ p p' ch ch' i, (s.point p).chain? = some ch → (s.point p').chain? = some ch' →
      i ∈ ch.toList → i ∈ ch'.toList → p = p') ∧
    (∀ p ch, (s.point p).chain? = some ch →
      ch.toList.Nodup ∧ ∀ i ∈ ch.toList, i < numDesc ∧ s.free i = false) ∧
    (∀ sl ∈ s.out, ∃ p q, s.point p = .wait q ∧ q.slot = sl) ∧
    (∀ r, s.clears r = [] ∨ s.clears r = [r]) ∧
    (∀ p q, s.point p = .wait q → (s.disk q.call.b = false ↔ s.clears q.no = [q.no])) ∧
    (∀ r, s.returned r = true →
      s.clears r = [r] ∧ ∃ c, s.request r = some c ∧ s.served r = [c.transfer]) ∧
    (s.lastAvail = s.avail.idx → s.active = [] → s.finished = [] → s.pushing = none →
      s.usedIdx = s.used.idx → ∀ p q, s.point p = .wait q → s.clears q.no = [q.no]) := by
  have hinv := h.inv
  have hwait : ∀ p q, s.point p = .wait q → (s.point p).wait? = some q := by
    intro p q hp
    rw [hp]
    rfl
  refine ⟨?_, hinv.chain.apart, ?_, ?_, hinv.clears, ?_, hinv.number.of_returned, ?_⟩
  · intro e he
    obtain ⟨t, ht, -⟩ := step_spec hinv he
    exact ⟨t, ht⟩
  · intro p ch hch
    exact ⟨hinv.chain.nodup p ch hch, hinv.chain.busy p ch hch⟩
  · intro sl hsl
    obtain ⟨p, q, hq, hslot, -⟩ := hinv.flag.of_out sl hsl
    refine ⟨p, q, ?_, hslot⟩
    generalize s.point p = pt at hq
    cases pt <;> cases hq
    rfl
  · intro p q hp
    rcases hinv.flag.of_wait p q (hwait p q hp) with ⟨hd, -, hc⟩ | ⟨hd, hc⟩
    · simp [hd, hc]
    · simp [hd, hc]
  · intro havail hactive hfinished hpushing hused p q hp
    have hout : s.out = [] := by
      simp [State.out, State.todo, State.done, Ring.from_eq_nil havail, Ring.from_eq_nil hused,
        hactive, hfinished, hpushing]
    rcases hinv.flag.of_wait p q (hwait p q hp) with ⟨-, hmem, -⟩ | ⟨-, hc⟩
    · rw [hout] at hmem
      cases hmem
    · exact hc

/-- Take the steps of a list. -/
def runEvents : List (Event P B) → State P B → Option (State P B)
  | [], s => some s
  | e :: l, s =>
    if Enabled s e then
      match step s e with
      | .ok t => runEvents l t
      | .error _ => none
    else none

theorem Reach.of_runEvents {n : ℕ} {l : List (Event P B)} {s t : State P B} (h : Reach n s)
    (hrun : runEvents l s = some t) : Reach n t := by
  induction l generalizing s with
  | nil =>
    cases hrun
    exact h
  | cons e l ih =>
    rw [runEvents] at hrun
    split_ifs at hrun with he
    split at hrun
    · next u hs => exact ih (h.step he hs) hrun
    · cases hrun

/-- Two calls whose requests are completed in the other order, while all indices wrap. -/
def twoCalls : List (Event Bool Bool) :=
  [.lockBuf false false, .call false ⟨false, 5, true⟩, .acquire false,
    .run false, .run false, .run false, .run false, .run false,
    .lockBuf true true, .call true ⟨true, 9, false⟩, .acquire true,
    .run true, .run true, .run true, .run true, .run true,
    .take, .take, .serve ⟨3, 1⟩, .push ⟨3, 1⟩, .publish, .serve ⟨0, 0⟩, .push ⟨0, 0⟩, .publish,
    .intr, .intr, .intr, .intr, .intr, .intr,
    .acquire true, .run true, .acquire false, .run false]

theorem request_protocol_twoCalls :
    ∃ s : State Bool Bool, Reach 65535 s ∧ s.avail.idx = 1 ∧ s.usedIdx = 1 ∧
      s.clears 0 = [0] ∧ s.clears 1 = [1] ∧ s.served 1 = [⟨blkIn, 18, true, true⟩] := by
  have hrun : (runEvents twoCalls (start 65535)).any (fun s =>
      decide (s.avail.idx = 1) && decide (s.usedIdx = 1) && s.returned 0 && s.returned 1 &&
        decide (s.request 1 = some ⟨true, 9, false⟩)) = true := by
    decide +kernel
  obtain ⟨s, hs, hcheck⟩ := (Option.any_eq_true _ _).mp hrun
  have hreach : Reach 65535 s := Reach.start.of_runEvents hs
  simp only [Bool.and_eq_true, decide_eq_true_iff] at hcheck
  obtain ⟨⟨⟨⟨havail, hused⟩, hret0⟩, hret1⟩, hreq⟩ := hcheck
  have hreturned := (request_protocol hreach).2.2.2.2.2.2.1
  obtain ⟨hc1, c, hc, hserved⟩ := hreturned 1 hret1
  cases hc.symm.trans hreq
  exact ⟨s, hreach, havail, hused, (hreturned 0 hret0).1, hc1, hserved⟩

end Xv6.Virtio
