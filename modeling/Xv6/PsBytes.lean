/-
# What `ps_list` writes

The user memory of the processes as bytes of the physical memory, and `ps_list` with the bytes it
moves.  It compares the number of pids written with the limit after it has looked at a slot, so a
limit of `0` is noticed only if the first slot is not listed (`psList_exact_iff`).
-/
import Xv6.PsCalls

namespace Xv6

open Window

variable {pt : PageTable} {q va : ℕ}

/-! ## The memory of a process -/

/-- The byte `va` of a process, if there is one. -/
def byteAt (pt : PageTable) (ram : Ram) (va : ℕ) : Option UInt8 :=
  (pt.lookup va).map fun pte => ram (pte.pa + va % pgSize)

/-- A byte of user memory that the process may access. -/
def UserByte (pt : PageTable) (va : ℕ) : Prop := va < trapframeVa ∧ translate pt va ≠ none

instance (pt : PageTable) (va : ℕ) : Decidable (UserByte pt va) :=
  inferInstanceAs (Decidable (_ ∧ _))

theorem lookup_of_walkaddr (h : walkaddr pt va ≠ 0) :
    ∃ pte, pt.lookup va = some pte ∧ walkaddr pt va = pte.pa := by
  unfold walkaddr at h ⊢
  by_cases hmax : va ≥ maxVa
  · exact absurd (if_pos hmax) h
  · rw [if_neg hmax] at h ⊢
    cases hl : pt.lookup va with
    | none =>
      rw [hl] at h
      exact absurd rfl h
    | some pte =>
      rw [hl] at h
      by_cases hu : pte.perm.u = true
      · exact ⟨pte, rfl, if_pos hu⟩
      · exact absurd (if_neg hu) h

theorem lookup_of_translate {a : ℕ} (h : translate pt va = some a) :
    ∃ pte, pt.lookup va = some pte ∧ a = pte.pa + va % pgSize := by
  have hpa : walkaddr pt va ≠ 0 := fun hz => by
    rw [translate_eq_none.mpr hz] at h
    cases h
  unfold translate at h
  rw [if_neg hpa] at h
  obtain ⟨pte, hl, heq⟩ := lookup_of_walkaddr hpa
  exact ⟨pte, hl, by rw [← heq, Option.some.inj h]⟩

section Memory

variable {boot : Finset ℕ} {s : Kernel} {me : ℕ} {mypt : PageTable}

/-- A byte of physical memory is one byte of one process. -/
theorem Mapped.eq_of_place (h : SysReach boot s) {q' va' : ℕ} {pt' : PageTable} {pte pte' : Pte}
    (hm : Mapped s q pt va pte) (hm' : Mapped s q' pt' va' pte')
    (hplace : pte.pa + va % pgSize = pte'.pa + va' % pgSize) : q = q' ∧ va = va' := by
  obtain ⟨hinv, hacc⟩ := h.inv
  have hp : pte.pa % pgSize = 0 := (hm.isPage hinv).1
  have hp' : pte'.pa % pgSize = 0 := (hm'.isPage hinv).1
  have hpa : pte.pa = pte'.pa ∧ va % pgSize = va' % pgSize := by
    unfold pgSize at *
    omega
  obtain ⟨hq, hpage⟩ := hm.eq_of_pa hinv hacc hm' hpa.1
  refine ⟨hq, ?_⟩
  rw [← Nat.div_add_mod va pgSize, hpage, hpa.2, Nat.div_add_mod]

theorem mapped_of_translate (hme : me < nproc) (hpt : (s.proc me).pagetable = some mypt) {a : ℕ}
    (hva : va < trapframeVa) (ha : translate mypt va = some a) :
    ∃ pte, Mapped s me mypt va pte ∧ a = pte.pa + va % pgSize := by
  obtain ⟨pte, hl, ha⟩ := lookup_of_translate ha
  exact ⟨pte, ⟨hme, hpt, hva, hl⟩, ha⟩

/-- User memory is placed once. -/
theorem SysReach.placedOnce (h : SysReach boot s) (hme : me < nproc)
    (hpt : (s.proc me).pagetable = some mypt) {lo hi : ℕ} (hhi : hi ≤ trapframeVa) :
    PlacedOnce mypt lo hi := by
  intro va va' a _ hva _ hva' ha ha'
  obtain ⟨pte, hm, rfl⟩ := mapped_of_translate hme hpt (hva.trans_le hhi) ha
  obtain ⟨pte', hm', hplace⟩ := mapped_of_translate hme hpt (hva'.trans_le hhi) ha'
  exact (hm.eq_of_place h hm' hplace).2

/-- User memory is not larger than the physical memory. -/
theorem SysReach.pageCount_le (h : SysReach boot s) (hme : me < nproc)
    (hpt : (s.proc me).pagetable = some mypt) : pageCount (s.proc me).sz ≤ physTop / pgSize := by
  obtain ⟨hinv, hacc⟩ := h.inv
  have hmapped : ∀ i, i < pageCount (s.proc me).sz → ∃ pte, Mapped s me mypt (i * pgSize) pte := by
    intro i hi
    have hused : (s.proc me).state ≠ .unused := by
      intro hu
      rw [← (hinv.slots me).clear hu] at hpt
      cases hpt
    obtain ⟨pt', -, hpt', -, -, hspace⟩ := (hinv.slots me).space hused
    obtain rfl : mypt = pt' := Option.some.inj (hpt.symm.trans hpt')
    obtain ⟨pte, hl, -⟩ := hspace.mapped i (Nat.zero_le i) hi
    have hlt := Nat.mul_lt_mul_of_pos_right hi (show 0 < pgSize by decide)
    exact ⟨pte, hme, hpt, hlt.trans_le hspace.bound, hl⟩
  -- different pages of the process are different pages of the memory
  rw [← Finset.card_range (pageCount _), ← Finset.card_range (physTop / pgSize)]
  apply Finset.card_le_card_of_injOn fun i => ((mypt.lookup (i * pgSize)).elim 0 Pte.pa) / pgSize
  · intro i hi
    obtain ⟨pte, hm⟩ := hmapped i (Finset.mem_range.mp hi)
    have hpage := hm.isPage hinv
    dsimp only
    rw [hm.entry, Option.elim_some]
    exact Finset.mem_coe.mpr (Finset.mem_range.mpr
      (Nat.div_lt_div_of_lt_of_dvd (by decide) hpage.2.2))
  · intro i hi j hj heq
    obtain ⟨pte, hm⟩ := hmapped i (Finset.mem_range.mp hi)
    obtain ⟨pte', hm'⟩ := hmapped j (Finset.mem_range.mp hj)
    dsimp only at heq
    rw [hm.entry, hm'.entry, Option.elim_some, Option.elim_some] at heq
    have hpa : pte.pa = pte'.pa := by
      rw [← Nat.div_add_mod pte.pa pgSize, ← Nat.div_add_mod pte'.pa pgSize, heq,
        (hm.isPage hinv).1, (hm'.isPage hinv).1]
    have hpage := (hm.eq_of_pa hinv hacc hm' hpa).2
    rwa [mul_pgSize_div, mul_pgSize_div] at hpage

theorem SysReach.userByte_lt (h : SysReach boot s) (hme : me < nproc)
    (hpt : (s.proc me).pagetable = some mypt) (hva : UserByte mypt va) : va < physTop := by
  obtain ⟨a, ha⟩ := Option.ne_none_iff_exists'.mp hva.2
  obtain ⟨pte, hm, -⟩ := mapped_of_translate hme hpt hva.1 ha
  have hlt := (hm.mem_user h.inv.1).1.trans_le (h.pageCount_le hme hpt)
  by_contra hge
  exact absurd (Nat.div_le_div_right (c := pgSize) (Nat.not_lt.mp hge)) (Nat.not_le.mpr hlt)

variable {ram ram' : Ram} {src : ℕ → UInt8} {dst r : ℕ}

/-- What has been written can be read. -/
theorem byteAt_of_filled (hfill : Filled (fun i => translate mypt (dst + i)) ram ram' src r) {i : ℕ}
    (hi : i < r) : byteAt mypt ram' (dst + i) = some (src i) := by
  obtain ⟨a, ha⟩ := hfill.placed i hi
  have hbyte := hfill.hit i a hi ha
  obtain ⟨pte, hl, rfl⟩ := lookup_of_translate ha
  unfold byteAt
  rw [hl, Option.map_some, hbyte]

/-- What has not been written is as before, in the caller and in every other process. -/
theorem byteAt_of_not_filled (h : SysReach boot s) (hme : me < nproc)
    (hpt : (s.proc me).pagetable = some mypt)
    (hfill : Filled (fun i => translate mypt (dst + i)) ram ram' src r)
    (hhi : ∀ i, i < r → dst + i < trapframeVa) (hq : q < nproc)
    (hqpt : (s.proc q).pagetable = some pt) (hva : va < trapframeVa)
    (hout : q = me → va < dst ∨ dst + r ≤ va) : byteAt pt ram' va = byteAt pt ram va := by
  unfold byteAt
  cases hl : pt.lookup va with
  | none => rfl
  | some pte =>
    rw [Option.map_some, Option.map_some, hfill.miss]
    intro i hi ha
    obtain ⟨pte', hm', hplace⟩ := mapped_of_translate hme hpt (hhi i hi) ha
    obtain ⟨rfl, rfl⟩ := Mapped.eq_of_place h ⟨hq, hqpt, hva, hl⟩ hm' hplace
    have := hout rfl
    omega

end Memory

/-! ## `ps_list` -/

/-- The byte `j` of an `int`. -/
def intByte (x : ℤ) (j : ℕ) : UInt8 := UInt8.ofNat ((x % 2 ^ 32).toNat / 256 ^ j % 256)

/-- The second loop of `ps_list(limit, pids)`: `cntPrint` pids have been written. -/
def psListBytesLoop (s : Kernel) (pt : PageTable) (node depth : ℕ) (limit : ℤ) (pids : ℕ) :
    List ℕ → ℕ → Ram → Except Fault (ℕ × Ram)
  | [], cntPrint, ram => .ok (cntPrint, ram)
  | q :: l, cntPrint, ram => do
    let heir ← listed s node q
    let (cntPrint, ram) :=
      if heir then
        (cntPrint + 1, (copyoutBytes pt ram (uint64 (pids + 4 * cntPrint))
          (fun _ => intByte ((s.proc q).namespacePids depth)) 4).2)
      else (cntPrint, ram)
    if cntPrint = limit then return (cntPrint, ram)
    else psListBytesLoop s pt node depth limit pids l cntPrint ram

/-- `ps_list(limit, pids)` called by `p`. -/
def psListBytes (s : Kernel) (p : ℕ) (limit : ℤ) (pids : ℕ) (ram : Ram) :
    Except Fault (ℕ × Ram) := do
  let n ← deref (s.proc p).node
  let pt ← deref (s.proc p).pagetable
  psListBytesLoop s pt n (s.nodes n).depth limit pids (List.range nproc) 0 ram

/-- The process is not unused and belongs to the namespace `n` or to a descendant of it. -/
def InView (s : Kernel) (n q : ℕ) : Prop :=
  (s.proc q).state ≠ .unused ∧ isHeir s.nodes (s.proc q).node (some n) = .ok true

instance (s : Kernel) (n q : ℕ) : Decidable (InView s n q) := inferInstanceAs (Decidable (_ ∧ _))

/-- The pids in the namespace `n` of those of the slots `l` that are in view. -/
def pidsInView (s : Kernel) (n : ℕ) (l : List ℕ) : List ℤ :=
  (l.filter fun q => InView s n q).map fun q => (s.proc q).namespacePids (s.nodes n).depth

/-- The bytes of an array of `int`. -/
def listBytes (l : List ℤ) (i : ℕ) : UInt8 := intByte (l.getD (i / 4) 0) (i % 4)

section List

variable {boot : Finset ℕ} {s : Kernel} {me n : ℕ} {mypt : PageTable} {limit : ℤ} {pids : ℕ}

theorem pidsInView_cons_of_inView (l : List ℕ) (h : InView s n q) :
    pidsInView s n (q :: l) = (s.proc q).namespacePids (s.nodes n).depth :: pidsInView s n l := by
  unfold pidsInView
  rw [List.filter_cons_of_pos (by simpa using h), List.map_cons]

theorem pidsInView_cons_of_not (l : List ℕ) (h : ¬ InView s n q) :
    pidsInView s n (q :: l) = pidsInView s n l := by
  unfold pidsInView
  rw [List.filter_cons_of_neg (by simpa using h)]

/-- In reachable states the test of `ps_list` goes well. -/
theorem listed_eq (h : SysReach boot s) (n q : ℕ) : listed s n q = .ok (decide (InView s n q)) := by
  unfold listed
  by_cases hu : (s.proc q).state = .unused
  · rw [if_pos hu, decide_eq_false fun hv : InView s n q => hv.1 hu]
  · obtain ⟨hheir, -⟩ := h.kin
    obtain ⟨-, a, ha⟩ := hheir.placed q hu
    obtain ⟨r, hr, -⟩ := hheir.isHeir_spec h.inv.1 ha n
    rw [if_neg hu, ha, hr]
    congr 1
    cases r with
    | true => exact (decide_eq_true ⟨hu, by rw [ha, hr]⟩).symm
    | false =>
      refine (decide_eq_false fun hv : InView s n q => ?_).symm
      have hv' := hv.2
      rw [ha, hr] at hv'
      cases hv'

/-- A turn at a slot that is listed, and at one that is not. -/
theorem psListBytesLoop_listed (h : SysReach boot s) (l : List ℕ) (cnt : ℕ) (ram : Ram)
    (hq : InView s n q) :
    psListBytesLoop s mypt n (s.nodes n).depth limit pids (q :: l) cnt ram =
      let ram := (copyoutBytes mypt ram (uint64 (pids + 4 * cnt))
        (fun _ => intByte ((s.proc q).namespacePids (s.nodes n).depth)) 4).2
      if ((cnt + 1 : ℕ) : ℤ) = limit then .ok (cnt + 1, ram)
      else psListBytesLoop s mypt n (s.nodes n).depth limit pids l (cnt + 1) ram := by
  rw [psListBytesLoop, listed_eq h, decide_eq_true hq, ok_bind]
  rfl

@[inherit_doc psListBytesLoop_listed]
theorem psListBytesLoop_skipped (h : SysReach boot s) (l : List ℕ) (cnt : ℕ) (ram : Ram)
    (hq : ¬ InView s n q) :
    psListBytesLoop s mypt n (s.nodes n).depth limit pids (q :: l) cnt ram =
      if (cnt : ℤ) = limit then .ok (cnt, ram)
      else psListBytesLoop s mypt n (s.nodes n).depth limit pids l cnt ram := by
  rw [psListBytesLoop, listed_eq h, decide_eq_false hq, ok_bind]
  rfl

/-- Once the limit has been passed, the loop lists everything. -/
theorem psListBytesLoop_passed (h : SysReach boot s) (mypt : PageTable) (n pids : ℕ) (l : List ℕ)
    (cnt : ℕ) (ram : Ram) (hpassed : limit < cnt) :
    ∃ ram', psListBytesLoop s mypt n (s.nodes n).depth limit pids l cnt ram
      = .ok (cnt + (pidsInView s n l).length, ram') := by
  induction l generalizing cnt ram with
  | nil => exact ⟨ram, rfl⟩
  | cons q l ih =>
    by_cases hq : InView s n q
    · obtain ⟨ram', hrun⟩ := ih (cnt + 1) _ (by push_cast; omega)
      refine ⟨ram', ?_⟩
      rw [psListBytesLoop_listed h l cnt ram hq, if_neg (by push_cast; omega), hrun,
        pidsInView_cons_of_inView l hq, List.length_cons, Nat.add_right_comm, Nat.add_assoc]
    · obtain ⟨ram', hrun⟩ := ih cnt ram hpassed
      refine ⟨ram', ?_⟩
      rw [psListBytesLoop_skipped h l cnt ram hq, if_neg hpassed.ne', hrun,
        pidsInView_cons_of_not l hq]

/-- **The loop below the limit.**  With `out` written and room for more, it writes the pids in
view that there is room for, behind the ones written before. -/
theorem psListBytesLoop_spec (h : SysReach boot s) (hme : me < nproc)
    (hpt : (s.proc me).pagetable = some mypt) (l : List ℕ) (cnt : ℕ) (k : ℕ) (ram : Ram)
    (hlimit : limit = (cnt + k : ℕ)) (hk : 0 < k)
    (hbuf : ∀ i, i < 4 * min k (pidsInView s n l).length → UserByte mypt (pids + 4 * cnt + i)) :
    ∃ ram', psListBytesLoop s mypt n (s.nodes n).depth limit pids l cnt ram
        = .ok (cnt + min k (pidsInView s n l).length, ram')
      ∧ Filled (fun i => translate mypt (pids + 4 * cnt + i)) ram ram'
          (listBytes (pidsInView s n l)) (4 * min k (pidsInView s n l).length) := by
  induction l generalizing cnt k ram with
  | nil =>
    have hnil : min k (pidsInView s n []).length = 0 := Nat.min_zero k
    rw [hnil]
    exact ⟨ram, rfl, Filled.zero _ ram _⟩
  | cons q l ih =>
    by_cases hq : InView s n q
    · rw [pidsInView_cons_of_inView l hq] at hbuf ⊢
      rw [psListBytesLoop_listed h l cnt ram hq]
      set pid := (s.proc q).namespacePids (s.nodes n).depth
      rw [List.length_cons] at hbuf ⊢
      have hfour : ∀ i, i < 4 → UserByte mypt (pids + 4 * cnt + i) := fun i hi =>
        hbuf i (by omega)
      have htop : pids + 4 * cnt + 4 ≤ trapframeVa := by
        have := (hfour 3 (by decide)).1
        omega
      have haddr : uint64 (pids + 4 * cnt) = pids + 4 * cnt := by
        have : trapframeVa < 2 ^ 64 := by decide
        unfold uint64
        omega
      rw [haddr]
      -- the pid of `q`
      set ram₁ := (copyoutBytes mypt ram (pids + 4 * cnt) (fun _ => intByte pid) 4).2
      have hfill : Filled (fun i => translate mypt (pids + 4 * cnt + i)) ram ram₁ (intByte pid) 4 :=
        copyoutBytes_filled (fun _ _ _ _ _ => rfl) (h.placedOnce hme hpt htop) ram
          (le_refl (pids + 4 * cnt)) (le_refl _) fun i hi => (hfour i hi).2
      have hfirst : Filled (fun i => translate mypt (pids + 4 * cnt + i)) ram ram₁
          (listBytes (pid :: pidsInView s n l)) 4 := by
        refine hfill.congr (fun _ _ => rfl) fun i hi => ?_
        unfold listBytes
        rw [Nat.div_eq_of_lt hi, Nat.mod_eq_of_lt hi, List.getD_cons_zero]
      dsimp only
      by_cases hone : k = 1
      · subst hone
        rw [if_pos (by rw [hlimit])]
        refine ⟨ram₁, ?_, ?_⟩
        · rw [Nat.min_eq_left (by omega)]
        · rw [Nat.min_eq_left (by omega)]
          exact hfirst
      · rw [if_neg (by rw [hlimit]; push_cast; omega)]
        have hmin : min k ((pidsInView s n l).length + 1)
            = min (k - 1) (pidsInView s n l).length + 1 := by omega
        rw [hmin] at hbuf ⊢
        obtain ⟨ram', hrun, hrest⟩ := ih (cnt + 1) (k - 1) ram₁ (by rw [hlimit]; push_cast; omega)
          (by omega) fun i hi => by
            have := hbuf (4 + i) (by omega)
            rwa [show pids + 4 * (cnt + 1) + i = pids + 4 * cnt + (4 + i) by omega]
        refine ⟨ram', ?_, ?_⟩
        · rw [hrun]
          congr 2
          omega
        · rw [show 4 * (min (k - 1) (pidsInView s n l).length + 1)
            = 4 + 4 * min (k - 1) (pidsInView s n l).length by omega]
          refine hfirst.append (hrest.congr (fun i _ => ?_) fun i _ => ?_) ?_
          · rw [show pids + 4 * cnt + (4 + i) = pids + 4 * (cnt + 1) + i by omega]
          · unfold listBytes
            rw [Nat.add_comm 4 i, Nat.add_div_right i (by decide), Nat.add_mod_right,
              List.getD_cons_succ]
          · refine (h.placedOnce hme hpt (le_refl trapframeVa)).once (Nat.zero_le _) ?_
            have := (hbuf (4 * min (k - 1) (pidsInView s n l).length + 3) (by omega)).1
            omega
    · rw [pidsInView_cons_of_not l hq] at hbuf ⊢
      rw [psListBytesLoop_skipped h l cnt ram hq, if_neg (by rw [hlimit]; push_cast; omega)]
      exact ih cnt k ram hlimit hk hbuf

/-- What `ps_list` should do: write the first `limit` pids in view, say how many, and leave the
rest of the caller's memory as it is. -/
def ListsExactly (s : Kernel) (me n : ℕ) (mypt : PageTable) (limit pids : ℕ) (ram : Ram) : Prop :=
  ∃ ram', psListBytes s me limit pids ram
      = .ok (min limit (pidsInView s n (List.range nproc)).length, ram')
    ∧ (∀ i, i < 4 * min limit (pidsInView s n (List.range nproc)).length →
        byteAt mypt ram' (pids + i) = some (listBytes (pidsInView s n (List.range nproc)) i))
    ∧ ∀ va, va < trapframeVa →
        va < pids ∨ pids + 4 * min limit (pidsInView s n (List.range nproc)).length ≤ va →
        byteAt mypt ram' va = byteAt mypt ram va

/-- **`ps_list` is exact if and only if** the limit is not `0` or the first slot is not listed, in
every reachable state, for every caller, limit and mapped buffer. -/
theorem psList_exact_iff (h : SysReach boot s) (hme : me < nproc)
    (hn : (s.proc me).node = some n) (hpt : (s.proc me).pagetable = some mypt) (limit : ℕ)
    (hbuf : ∀ i, i < 4 * min limit (pidsInView s n (List.range nproc)).length →
      UserByte mypt (pids + i)) (ram : Ram) :
    ListsExactly s me n mypt limit pids ram ↔ 1 ≤ limit ∨ ¬ InView s n 0 := by
  have hcall : psListBytes s me limit pids ram
      = psListBytesLoop s mypt n (s.nodes n).depth limit pids (List.range nproc) 0 ram := by
    unfold psListBytes
    rw [hn, hpt]
    rfl
  have hrange : List.range nproc = 0 :: (List.range 63).map (· + 1) := by decide
  unfold ListsExactly
  rw [hcall]
  rcases Nat.eq_zero_or_pos limit with rfl | hpos
  · by_cases hfirst : InView s n 0
    · -- the first slot takes the count past the limit
      refine iff_of_false ?_ (by simp [hfirst])
      rintro ⟨ram', hrun, -⟩
      rw [hrange, psListBytesLoop_listed h _ 0 ram hfirst, if_neg (by decide)] at hrun
      obtain ⟨ram₁, hrun₁⟩ := psListBytesLoop_passed h mypt n pids
        ((List.range 63).map (· + 1)) (0 + 1) _ (show ((0 : ℕ) : ℤ) < (0 + 1 : ℕ) by decide)
      rw [hrun₁] at hrun
      have hcount := (Prod.mk.inj (Except.ok.inj hrun)).1
      rw [Nat.zero_min] at hcount
      omega
    · refine iff_of_true ⟨ram, ?_, ?_, fun _ _ _ => rfl⟩ (Or.inr hfirst)
      · rw [hrange, psListBytesLoop_skipped h _ 0 ram hfirst, if_pos rfl, Nat.zero_min]
      · intro i hi
        rw [Nat.zero_min] at hi
        omega
  · refine iff_of_true ?_ (Or.inl hpos)
    have hlimit : (limit : ℤ) = (0 + limit : ℕ) := by rw [Nat.zero_add]
    obtain ⟨ram', hrun, hfill⟩ := psListBytesLoop_spec h hme hpt (List.range nproc) 0 limit ram
      hlimit hpos (by simpa using hbuf)
    rw [Nat.zero_add] at hrun
    rw [Nat.mul_zero, Nat.add_zero] at hfill
    refine ⟨ram', hrun, fun i hi => byteAt_of_filled hfill hi, fun va hva hout => ?_⟩
    exact byteAt_of_not_filled h hme hpt hfill (fun i hi => (hbuf i hi).1) hme hpt hva
      fun _ => hout

/-- Without the bytes this is the `ps_list` of the process tables. -/
theorem psListBytes_fst (hpt : (s.proc me).pagetable = some mypt) (limit : ℤ) (pids : ℕ) (ram : Ram) :
    (psListBytes s me limit pids ram).map Prod.fst = (psList s me limit).map List.length := by
  unfold psListBytes psList
  cases (s.proc me).node with
  | none => rfl
  | some n =>
    rw [hpt, deref_some, deref_some, ok_bind, ok_bind, ok_bind]
    suffices hloop : ∀ (l : List ℕ) (out : List ℤ) (ram : Ram),
        (psListBytesLoop s mypt n (s.nodes n).depth limit pids l out.length ram).map Prod.fst
          = (psListLoop s n (s.nodes n).depth limit l out).map List.length from
      hloop (List.range nproc) [] ram
    intro l
    induction l with
    | nil => intros; rfl
    | cons q l ih =>
      intro out ram
      rw [psListBytesLoop, psListLoop]
      cases listed s n q with
      | error e => rfl
      | ok heir =>
        rw [ok_bind, ok_bind]
        cases heir with
        | false =>
          simp only [Bool.false_eq_true, if_false]
          split_ifs
          · rfl
          · exact ih out ram
        | true =>
          simp only [if_true]
          have hlen : (out ++ [(s.proc q).namespacePids (s.nodes n).depth]).length
              = out.length + 1 := by simp
          rw [← hlen]
          split_ifs
          · rfl
          · exact ih _ _

end List

/-- With a child, the first process asks for one pid and gets its own. -/
theorem psList_exact_one :
    ∃ s mypt, SysReach ∅ s ∧ InView s 0 1 ∧ ∀ ram, ListsExactly s 0 0 mypt 1 0 ram := by
  obtain ⟨s, hreach, hcheck⟩ := sysReach_of_run
    [.proc (.dispatch 0), .proc (.fork 0 (tenPages 1))]
    (fun s => (s.proc 0).node = some 0 ∧ InView s 0 1
      ∧ (s.proc 0).pagetable.any (fun pt => (List.range 4).all fun i => UserByte pt (0 + i)) = true)
    (by decide +kernel)
  obtain ⟨hn, hview, hbuf⟩ := of_decide_eq_true hcheck
  obtain ⟨mypt, hpt, hbuf⟩ := (Option.any_eq_true _ _).mp hbuf
  refine ⟨s, mypt, hreach, hview, fun ram => ?_⟩
  refine (psList_exact_iff hreach (by decide) hn hpt 1 (fun i hi => ?_) ram).mpr (Or.inl (le_refl 1))
  exact of_decide_eq_true (List.all_eq_true.mp hbuf i (List.mem_range.mpr (by omega)))

/-- Asked for no pids at all, it gets both, behind the end of an empty buffer. -/
theorem psList_zero_lists_all :
    ∃ s mypt, SysReach ∅ s ∧ (s.proc 0).state = .running ∧ (s.proc 0).pagetable = some mypt
      ∧ ∀ pids ram, (∃ ram', psListBytes s 0 0 pids ram = .ok (2, ram'))
        ∧ ¬ ListsExactly s 0 0 mypt 0 pids ram := by
  obtain ⟨s, hreach, hcheck⟩ := sysReach_of_run
    [.proc (.dispatch 0), .proc (.fork 0 (tenPages 1))]
    (fun s => (s.proc 0).state = .running ∧ (s.proc 0).pagetable.isSome
      ∧ psList s 0 0 = .ok [1, 2]) (by decide +kernel)
  obtain ⟨hrun, hsome, hlist⟩ := of_decide_eq_true hcheck
  obtain ⟨mypt, hpt⟩ := Option.isSome_iff_exists.mp hsome
  refine ⟨s, mypt, hreach, hrun, hpt, fun pids ram => ?_⟩
  have hfst := psListBytes_fst hpt 0 pids ram
  rw [hlist] at hfst
  cases hbytes : psListBytes s 0 0 pids ram with
  | error e =>
    rw [hbytes] at hfst
    cases hfst
  | ok r =>
    rw [hbytes] at hfst
    have hcount : r.1 = 2 := Except.ok.inj hfst
    refine ⟨⟨r.2, by rw [← hcount]⟩, ?_⟩
    rintro ⟨ram', hexact, -⟩
    rw [Nat.cast_zero, hbytes] at hexact
    have hzero : r.1 = min 0 (pidsInView s 0 (List.range nproc)).length :=
      congrArg Prod.fst (Except.ok.inj hexact)
    omega

end Xv6
