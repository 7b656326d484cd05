/-
# What `ps_copy` writes

`ps_copy` with the bytes it moves.  It computes the length of a chunk from the physical address of
a page, which has no offset: every turn copies a whole page from its first byte on, whatever the
offset of `addr`, and the last one goes on behind `size`.  So the copy is exact only for pages
(`psCopy_exact_iff`).
-/
import Xv6.PsBytes

namespace Xv6

open Function Window

variable {held : Finset ℕ} {ram' : Ram} {i k : ℕ}

/-! ## The call -/

/-- The loop of `ps_copy`: `false` where it returns `-1`.  Every turn takes at least one byte off
the size. -/
def psCopyBytesLoop (mypt : PageTable) (pagetable : Option PageTable) :
    ℕ → Ram → ℕ → ℤ → ℕ → Except Fault (Bool × Ram)
  | 0, _, _, _, _ => .error .noReturn
  | fuel + 1, ram, addr, size, copyAddr =>
    if size ≤ 0 then .ok (true, ram)
    else do
      let table ← copyFromLevel0 pagetable addr
      let leaf ← deref table
      match leaf.pte (px 0 addr) with
      | none => return (false, ram)
      | some pte =>
        let n := pgSize + pte.pa - pte.pa / pgSize * pgSize
        let ram := (copyoutBytes mypt ram copyAddr (fun ram i => ram (pte.pa + i)) n).2
        psCopyBytesLoop mypt pagetable fuel ram (uint64 (addr + n)) (size - n) (uint64 (copyAddr + n))

/-- `ps_copy(pid, addr, size, copyAddr)` called by `me`. -/
def psCopyBytes (s : Kernel) (me : ℕ) (pid : ℤ) (addr : ℕ) (size : ℤ) (copyAddr : ℕ) (ram : Ram)
    (held : Finset ℕ) : Except Fault (ℤ × Ram × Finset ℕ) := do
  let n ← deref (s.proc me).node
  let (slot, held) ← findProc s pid n held
  let held ← acquireProc held me
  let p ← deref slot
  let pt ← deref (s.proc me).pagetable
  let (ok, ram) ←
    psCopyBytesLoop pt (s.proc p).pagetable (size.toNat + 1) ram addr size copyAddr
  if ok then
    let held ← releaseProc held me
    let held ← releaseProc held p
    return (0, ram, held)
  else return (-1, ram, held)

/-! ## Turns of the loop -/

/-- The entry that `copy_from_level` leads to. -/
theorem lookup_of_copyFromLevel0 {pt : PageTable} {va : ℕ} {leaf : LeafTable} {pte : Pte}
    (htable : copyFromLevel0 (some pt) va = .ok (some leaf))
    (hpte : leaf.pte (px 0 va) = some pte) : pt.lookup va = some pte := by
  unfold copyFromLevel0 copyFromLevel1 at htable
  obtain ⟨mid, hmid, hret⟩ := bind_eq_ok_iff.mp htable
  split_ifs at hmid
  cases hmid
  have hleaf : pt.leafTable va = some leaf := Except.ok.inj hret
  unfold PageTable.lookup
  rw [hleaf]
  exact hpte

section Loop

variable {mypt pt : PageTable} {fuel addr copyAddr : ℕ} {size : ℤ} {ram : Ram} {pte : Pte}

/-- A turn at a page that is there. -/
theorem psCopyBytesLoop_page (hsize : 0 < size) (hva : addr < maxVa)
    (hl : pt.lookup addr = some pte) (hpa : pte.pa % pgSize = 0)
    (hcopy : copyAddr < maxVa) :
    psCopyBytesLoop mypt (some pt) (fuel + 1) ram addr size copyAddr =
      psCopyBytesLoop mypt (some pt) fuel
        (copyoutBytes mypt ram copyAddr (fun ram i => ram (pte.pa + i)) pgSize).2
        (addr + pgSize) (size - pgSize) (copyAddr + pgSize) := by
  obtain ⟨leaf, htable, hpte⟩ := copyFromLevel0_mapped hva hl
  have hn : pgSize + pte.pa - pte.pa / pgSize * pgSize = pgSize := by
    have := Nat.div_add_mod' pte.pa pgSize
    omega
  have hwrap : ∀ a, a < maxVa → uint64 ((a : ℤ) + pgSize) = a + pgSize := by
    intro a ha
    unfold uint64
    unfold maxVa pgSize at *
    omega
  conv_lhs => unfold psCopyBytesLoop
  rw [if_neg (by omega)]
  simp only [htable, ok_bind, deref_some, hpte, hn, hwrap addr hva, hwrap copyAddr hcopy]

theorem psCopyBytesLoop_done (hsize : size ≤ 0) (table : Option PageTable) :
    psCopyBytesLoop mypt table (fuel + 1) ram addr size copyAddr = .ok (true, ram) := by
  rw [psCopyBytesLoop, if_pos hsize]

/-- Without the bytes, and with pages at page addresses, this is the loop of `psCopy`. -/
theorem psCopyBytesLoop_fst (haligned : ∀ va pte, pt.lookup va = some pte → pte.pa % pgSize = 0)
    (k : ℕ) (hk : k = (size.toNat + pgSize - 1) / pgSize) (hfuel : k < fuel) :
    (psCopyBytesLoop mypt (some pt) fuel ram addr size copyAddr).map Prod.fst
      = psCopyLoop mypt (some pt) k addr copyAddr := by
  induction k generalizing fuel ram addr size copyAddr with
  | zero =>
    obtain ⟨fuel, rfl⟩ : ∃ f, fuel = f + 1 := ⟨fuel - 1, by omega⟩
    rw [psCopyBytesLoop_done (by unfold pgSize at hk; omega)]
    rfl
  | succ k ih =>
    obtain ⟨fuel, rfl⟩ : ∃ f, fuel = f + 1 := ⟨fuel - 1, by omega⟩
    have hsize : ¬ size ≤ 0 := by
      unfold pgSize at hk
      omega
    rw [psCopyBytesLoop, psCopyLoop, if_neg hsize]
    cases htable : copyFromLevel0 (some pt) addr with
    | error e => rfl
    | ok table =>
      rw [ok_bind, ok_bind]
      cases table with
      | none => rfl
      | some leaf =>
        rw [deref_some, ok_bind, ok_bind]
        cases hpte : leaf.pte (px 0 addr) with
        | none => rfl
        | some pte =>
          have hn : pgSize + pte.pa - pte.pa / pgSize * pgSize = pgSize := by
            have := haligned addr pte (lookup_of_copyFromLevel0 htable hpte)
            have := Nat.div_add_mod' pte.pa pgSize
            omega
          obtain ⟨r, hr⟩ := copyoutFromPtr_some mypt copyAddr pte.pa pgSize
          simp only [hn, hr, ok_bind]
          refine ih ?_ (by omega)
          unfold pgSize at hk ⊢
          omega

/-- A loop that returns normally has found its first page. -/
theorem lookup_of_psCopyBytesLoop {table : Option PageTable} {r : Ram} (hsize : 0 < size)
    (hrun : psCopyBytesLoop mypt table (fuel + 1) ram addr size copyAddr = .ok (true, r)) :
    ∃ pt pte, table = some pt ∧ pt.lookup addr = some pte := by
  rw [psCopyBytesLoop, if_neg (by omega)] at hrun
  obtain ⟨leaf?, htable, hrun⟩ := bind_eq_ok_iff.mp hrun
  obtain ⟨leaf, hleaf, hrun⟩ := bind_eq_ok_iff.mp hrun
  cases hpte : leaf.pte (px 0 addr) with
  | none =>
    rw [hpte] at hrun
    cases (Prod.mk.inj (Except.ok.inj hrun)).1
  | some pte =>
    cases leaf? with
    | none => cases hleaf
    | some leaf' =>
      cases hleaf
      cases table with
      | none =>
        obtain ⟨mid, hmid, -⟩ := bind_eq_ok_iff.mp htable
        unfold copyFromLevel1 at hmid
        split_ifs at hmid
        cases hmid
      | some pt => exact ⟨pt, pte, rfl, lookup_of_copyFromLevel0 htable hpte⟩

end Loop

/-! ## The whole loop -/

section Copy

variable {boot : Finset ℕ} {s : Kernel} {me q : ℕ} {mypt pt : PageTable}

/-- The trapframe is at the start of a page. -/
theorem page_lt_trapframeVa {addr : ℕ} (h : addr + (i / pgSize + 1) * pgSize < trapframeVa) :
    addr / pgSize * pgSize + (pgSize + i) < trapframeVa := by
  unfold trapframeVa trampolineVa maxVa pgSize at *
  omega

/-- The bytes of the page of `addr`, seen from its process. -/
theorem byteAt_page (pt : PageTable) {addr : ℕ} {pte : Pte} (ram : Ram)
    (hl : pt.lookup addr = some pte) (hi : i < pgSize) :
    byteAt pt ram (addr / pgSize * pgSize + i) = some (ram (pte.pa + i)) := by
  have hpage : (addr / pgSize * pgSize + i) / pgSize = addr / pgSize := by
    unfold pgSize at *
    omega
  have hoff : (addr / pgSize * pgSize + i) % pgSize = i := by
    unfold pgSize at *
    omega
  unfold byteAt
  rw [pt.lookup_congr hpage, hl, Option.map_some, hoff]

/-- The page of another process does not change while the caller's memory is written. -/
theorem sourceKept_page (h : SysReach boot s) (hme : me < nproc)
    (hpt : (s.proc me).pagetable = some mypt) (hq : q < nproc)
    (hqpt : (s.proc q).pagetable = some pt) (hne : q ≠ me) {addr : ℕ} {pte : Pte}
    (hva : addr < trapframeVa) (hl : pt.lookup addr = some pte) {lo hi : ℕ}
    (hhi : hi ≤ trapframeVa) :
    SourceKept (fun ram i => ram (pte.pa + i)) pgSize mypt lo hi := by
  intro ram ram' hkept i hi'
  refine hkept _ fun va _ hva' ha => hne ?_
  obtain ⟨pte', hm', hplace⟩ := mapped_of_translate hme hpt (hva'.trans_le hhi) ha
  have hpage : (addr / pgSize * pgSize + i) / pgSize = addr / pgSize := by
    unfold pgSize at *
    omega
  have hm : Mapped s q pt (addr / pgSize * pgSize + i) pte := by
    refine ⟨hq, hqpt, ?_, by rw [pt.lookup_congr hpage, hl]⟩
    unfold trapframeVa trampolineVa maxVa pgSize at *
    omega
  refine (hm.eq_of_place h hm' ?_).1
  rw [← hplace]
  unfold pgSize at *
  omega

/-- **The loop of `ps_copy`** over `k` pages of another process, of which the last may be needed
in part: it copies the bytes from the start of the first page on, at least `size` of them, until
the `k` pages are copied or the caller has no more memory. -/
theorem psCopyBytesLoop_spec (h : SysReach boot s) (hme : me < nproc)
    (hpt : (s.proc me).pagetable = some mypt) (hq : q < nproc)
    (hqpt : (s.proc q).pagetable = some pt) (hne : q ≠ me) (k fuel addr size copyAddr : ℕ)
    (ram : Ram) (hsize : size ≤ k * pgSize) (hsize' : k * pgSize < size + pgSize)
    (hfuel : k < fuel)
    (hsrc : ∀ j, j < k → addr + j * pgSize < trapframeVa
      ∧ ∃ pte, pt.lookup (addr + j * pgSize) = some pte)
    (hdst : ∀ i, i < size → UserByte mypt (copyAddr + i))
    (htop : copyAddr + k * pgSize ≤ trapframeVa) :
    ∃ r ram', psCopyBytesLoop mypt (some pt) fuel ram addr size copyAddr = .ok (true, ram')
      ∧ size ≤ r ∧ r ≤ k * pgSize
      ∧ Filled (fun i => translate mypt (copyAddr + i)) ram ram'
          (fun i => (byteAt pt ram (addr / pgSize * pgSize + i)).getD 0) r
      ∧ (r < k * pgSize → translate mypt (copyAddr + r) = none) := by
  induction k generalizing fuel addr size copyAddr ram with
  | zero =>
    obtain ⟨fuel, rfl⟩ : ∃ f, fuel = f + 1 := ⟨fuel - 1, by omega⟩
    refine ⟨0, ram, psCopyBytesLoop_done (by omega) _, by omega, by omega, Filled.zero _ _ _, ?_⟩
    omega
  | succ k ih =>
    obtain ⟨fuel, rfl⟩ : ∃ f, fuel = f + 1 := ⟨fuel - 1, by omega⟩
    have hmax : trapframeVa < maxVa := by decide
    rw [Nat.succ_mul] at hsize hsize' htop
    obtain ⟨hva, pte, hl⟩ := hsrc 0 (Nat.succ_pos k)
    rw [Nat.zero_mul, Nat.add_zero] at hva hl
    have hpa : pte.pa % pgSize = 0 :=
      (Mapped.isPage h.inv.1 (⟨hq, hqpt, hva, hl⟩ : Mapped s q pt addr pte)).1
    rw [psCopyBytesLoop_page (by omega) (by omega) hl hpa (by omega)]
    -- the first page
    have honce : PlacedOnce mypt copyAddr (copyAddr + (k + 1) * pgSize) :=
      h.placedOnce hme hpt (by rw [Nat.succ_mul]; omega)
    obtain ⟨r₁, hr₁, hfill, hstop⟩ := copyoutBytes_spec
      (sourceKept_page h hme hpt hq hqpt hne hva hl (by rw [Nat.succ_mul]; omega)) honce ram
      (le_refl copyAddr) (by rw [Nat.succ_mul]; omega)
    set ram₁ := (copyoutBytes mypt ram copyAddr (fun ram i => ram (pte.pa + i)) pgSize).2
    have hneeded : min size pgSize ≤ r₁ := by
      by_contra hlt
      exact (hdst r₁ (by omega)).2 (hstop (by omega))
    have hfirst : Filled (fun i => translate mypt (copyAddr + i)) ram ram₁
        (fun i => (byteAt pt ram (addr / pgSize * pgSize + i)).getD 0) r₁ := by
      refine hfill.congr (fun _ _ => rfl) fun i hi => ?_
      rw [byteAt_page pt ram hl (by omega), Option.getD_some]
    rcases Nat.eq_zero_or_pos k with rfl | hk
    · -- it was the last one
      obtain ⟨fuel, rfl⟩ : ∃ f, fuel = f + 1 := ⟨fuel - 1, by omega⟩
      refine ⟨r₁, ram₁, psCopyBytesLoop_done (by omega) _, by omega, by omega, hfirst, fun hr => ?_⟩
      exact hstop (by omega)
    · have hmul : pgSize ≤ k * pgSize := Nat.le_mul_of_pos_left pgSize hk
      obtain rfl : r₁ = pgSize := by omega
      have hcast : (size : ℤ) - pgSize = ((size - pgSize : ℕ) : ℤ) := by omega
      rw [hcast]
      obtain ⟨r, ram', hrun, hr, hr', hrest, hstop'⟩ := ih fuel (addr + pgSize) (size - pgSize)
        (copyAddr + pgSize) ram₁ (by omega) (by omega) (by omega)
        (fun j hj => by
          have := hsrc (j + 1) (by omega)
          rwa [Nat.succ_mul, Nat.add_comm (j * pgSize), ← Nat.add_assoc] at this)
        (fun i hi => by
          have := hdst (pgSize + i) (by omega)
          rwa [← Nat.add_assoc] at this)
        (by omega)
      refine ⟨pgSize + r, ram', hrun, by omega, by rw [Nat.succ_mul]; omega,
        hfirst.append (hrest.congr (fun i _ => ?_) fun i hi => ?_) ?_, fun hlt => ?_⟩
      · rw [Nat.add_assoc]
      · -- the first turn has not touched the other process
        rw [show (addr + pgSize) / pgSize * pgSize + i = addr / pgSize * pgSize + (pgSize + i) by
          rw [Nat.add_div_right _ (by decide), Nat.succ_mul, Nat.add_assoc]]
        have hlast := (hsrc (i / pgSize + 1) (by
          have : i / pgSize < k := (Nat.div_lt_iff_lt_mul (by decide)).mpr (by omega)
          omega)).1
        refine congrArg (fun b : Option UInt8 => b.getD 0) ?_
        refine (byteAt_of_not_filled h hme hpt hfirst ?_ hq hqpt ?_ fun heq => absurd heq hne).symm
        · intro i hi
          omega
        · exact page_lt_trapframeVa hlast
      · exact honce.once (le_refl _) (by rw [Nat.succ_mul]; omega)
      · rw [Nat.succ_mul] at hlt
        rw [← Nat.add_assoc]
        exact hstop' (by omega)

/-- A loop that returns normally has found all its pages. -/
theorem psCopyBytesLoop_found (h : SysReach boot s) (hq : q < nproc)
    (hqpt : (s.proc q).pagetable = some pt) (k fuel addr size copyAddr : ℕ) {ram : Ram}
    (hsize : k * pgSize < size + pgSize) (hfuel : k < fuel)
    (hsrc : ∀ j, j < k → addr + j * pgSize < trapframeVa)
    (htop : copyAddr + k * pgSize ≤ trapframeVa)
    (hrun : psCopyBytesLoop mypt (some pt) fuel ram addr size copyAddr = .ok (true, ram')) :
    ∀ j, j < k → ∃ pte, pt.lookup (addr + j * pgSize) = some pte := by
  induction k generalizing fuel addr size copyAddr ram with
  | zero => exact fun j hj => absurd hj (Nat.not_lt_zero j)
  | succ k ih =>
    obtain ⟨fuel, rfl⟩ : ∃ f, fuel = f + 1 := ⟨fuel - 1, by omega⟩
    have hmax : trapframeVa < maxVa := by decide
    rw [Nat.succ_mul] at hsize htop
    obtain ⟨pt', pte, hpt', hl⟩ := lookup_of_psCopyBytesLoop (by omega) hrun
    cases hpt'
    have hva : addr < trapframeVa := by simpa using hsrc 0 (Nat.succ_pos k)
    have hpa : pte.pa % pgSize = 0 :=
      (Mapped.isPage h.inv.1 (⟨hq, hqpt, hva, hl⟩ : Mapped s q pt addr pte)).1
    rw [psCopyBytesLoop_page (by omega) (by omega) hl hpa (by omega)] at hrun
    intro j hj
    cases j with
    | zero => exact ⟨pte, by rwa [Nat.zero_mul, Nat.add_zero]⟩
    | succ j =>
      have hmul : pgSize ≤ k * pgSize := Nat.le_mul_of_pos_left pgSize (by omega)
      have hcast : (size : ℤ) - pgSize = ((size - pgSize : ℕ) : ℤ) := by omega
      rw [hcast] at hrun
      have hsrc' : ∀ j, j < k → addr + pgSize + j * pgSize < trapframeVa := by
        intro j hj
        have := hsrc (j + 1) (by omega)
        rwa [Nat.succ_mul, Nat.add_comm (j * pgSize), ← Nat.add_assoc] at this
      have := ih fuel (addr + pgSize) (size - pgSize) (copyAddr + pgSize) (by omega) (by omega)
        hsrc' (by omega) hrun j (by omega)
      rwa [Nat.succ_mul, Nat.add_comm (j * pgSize), ← Nat.add_assoc]

end Copy

/-! ## Exact copies -/

/-- `find_proc` returns with the lock of the slot it has found. -/
theorem findProc_held {s : Kernel} {pid : ℤ} {n q : ℕ} (h : findProc s pid n ∅ = .ok (some q,
      held)) :
    held = {q} ∧ q < nproc := by
  suffices hloop : ∀ l : List ℕ, findProcLoop s pid n l ∅ = .ok (some q, held) →
      held = {q} ∧ q ∈ l by
    obtain ⟨hheld, hq⟩ := hloop (List.range nproc) h
    exact ⟨hheld, List.mem_range.mp hq⟩
  intro l
  induction l with
  | nil =>
    intro hrun
    cases (Prod.mk.inj (Except.ok.inj hrun)).1
  | cons i l ih =>
    intro hrun
    rw [findProcLoop, acquireProc_of_notMem (Finset.notMem_empty i), ok_bind] at hrun
    obtain ⟨found, -, hrun⟩ := bind_eq_ok_iff.mp hrun
    cases found with
    | true =>
      obtain ⟨hi, rfl⟩ := Prod.mk.inj (Except.ok.inj hrun)
      obtain rfl := Option.some.inj hi
      exact ⟨insert_empty_eq i, List.mem_cons_self⟩
    | false =>
      rw [if_neg (by decide), releaseProc_of_mem (Finset.mem_insert_self i ∅), ok_bind,
        Finset.erase_insert (Finset.notMem_empty i)] at hrun
      obtain ⟨hheld, hq⟩ := ih hrun
      exact ⟨hheld, List.mem_cons_of_mem i hq⟩

section Exact

variable {boot : Finset ℕ} {s : Kernel} {me n t : ℕ} {pid : ℤ} {mypt pt : PageTable}
  {addr size copyAddr : ℕ}

/-- A call that returns `0` has found a process other than the caller and has gone through its
loop. -/
theorem loop_of_psCopyBytes (hn : (s.proc me).node = some n)
    (hpt : (s.proc me).pagetable = some mypt) {ram : Ram}
    (hrun : psCopyBytes s me pid addr size copyAddr ram ∅ = .ok (0, ram', held)) :
    ∃ q, findProc s pid n ∅ = .ok (some q, {q}) ∧ q < nproc ∧ q ≠ me
      ∧ psCopyBytesLoop mypt (s.proc q).pagetable (size + 1) ram addr size copyAddr
          = .ok (true, ram') := by
  unfold psCopyBytes at hrun
  rw [hn, deref_some, ok_bind] at hrun
  obtain ⟨⟨slot, held₁⟩, hfind, hacquire⟩ := bind_eq_ok_iff.mp hrun
  dsimp only at hacquire
  obtain ⟨held₂, hacq, hderef⟩ := bind_eq_ok_iff.mp hacquire
  obtain ⟨q, hslot, htable⟩ := bind_eq_ok_iff.mp hderef
  obtain rfl : slot = some q := by
    cases slot with
    | none => cases hslot
    | some q' => rw [Except.ok.inj hslot]
  obtain ⟨rfl, hq⟩ := findProc_held hfind
  rw [hpt, deref_some, ok_bind] at htable
  obtain ⟨⟨ok, ram₁⟩, hloop, hret⟩ := bind_eq_ok_iff.mp htable
  refine ⟨q, hfind, hq, ?_, ?_⟩
  · rintro rfl
    rw [acquireProc, if_pos (Finset.mem_singleton_self q)] at hacq
    cases hacq
  · cases ok with
    | false =>
      have hret := (Prod.mk.inj (Except.ok.inj hret)).1
      omega
    | true =>
      rw [if_pos rfl] at hret
      obtain ⟨held₃, -, hrelease⟩ := bind_eq_ok_iff.mp hret
      obtain ⟨held₄, -, hend⟩ := bind_eq_ok_iff.mp hrelease
      obtain rfl := (Prod.mk.inj (Prod.mk.inj (Except.ok.inj hend)).2).1
      exact hloop

theorem psCopyBytes_of_loop (hn : (s.proc me).node = some n)
    (hpt : (s.proc me).pagetable = some mypt) {q : ℕ} {ram : Ram}
    (hfind : findProc s pid n ∅ = .ok (some q, {q})) (hne : q ≠ me)
    (hloop : psCopyBytesLoop mypt (s.proc q).pagetable (size + 1) ram addr size copyAddr
      = .ok (true, ram')) :
    psCopyBytes s me pid addr size copyAddr ram ∅ = .ok (0, ram', ∅) := by
  have hme : me ∉ ({q} : Finset ℕ) := by simpa using Ne.symm hne
  unfold psCopyBytes
  rw [hn, deref_some, ok_bind, hfind, ok_bind]
  simp only [acquireProc_of_notMem hme, ok_bind, deref_some, hpt, Int.toNat_natCast, hloop, if_true]
  rw [releaseProc_of_mem (Finset.mem_insert_self me _), ok_bind, Finset.erase_insert hme,
    releaseProc_of_mem (Finset.mem_singleton_self q), ok_bind, Finset.erase_singleton]
  rfl

/-- What `ps_copy` should do: copy the bytes of the process with the page table `pt` to the
caller, and leave the rest of the caller's memory as it is. -/
def CopiesExactly (s : Kernel) (me : ℕ) (pid : ℤ) (mypt pt : PageTable) (addr size copyAddr : ℕ)
    (ram : Ram) : Prop :=
  ∃ ram' held, psCopyBytes s me pid addr size copyAddr ram ∅ = .ok (0, ram', held)
    ∧ (∀ i, i < size → byteAt mypt ram' (copyAddr + i) = byteAt pt ram (addr + i))
    ∧ ∀ va, va < trapframeVa → va < copyAddr ∨ copyAddr + size ≤ va →
        byteAt mypt ram' va = byteAt mypt ram va

/-- `find_proc` finds a process other than the caller; and there is nothing to copy, or it is the
process that is meant, `addr` is the start of a page, and the copy ends with a page or at the end
of the caller's memory. -/
def CopyFits (s : Kernel) (me n t : ℕ) (pid : ℤ) (mypt : PageTable) (addr size copyAddr : ℕ) :
    Prop :=
  ∃ q, findProc s pid n ∅ = .ok (some q, {q}) ∧ q ≠ me ∧
    (size = 0 ∨ q = t ∧ addr % pgSize = 0
      ∧ (size % pgSize = 0 ∨ ¬ UserByte mypt (copyAddr + size)))

/-- The number of turns of the loop. -/
theorem exists_turns (size : ℕ) : ∃ k, size ≤ k * pgSize ∧ k * pgSize < size + pgSize ∧ k ≤ size
    ∧ (size % pgSize = 0 → k * pgSize = size) := by
  refine ⟨(size + pgSize - 1) / pgSize, ?_⟩
  unfold pgSize
  omega

theorem mul_pgSize_lt_size {j : ℕ} (hk : k * pgSize < size + pgSize) (hj : j < k) :
    j * pgSize < size := by
  have := Nat.mul_le_mul_right pgSize (Nat.succ_le_of_lt hj)
  rw [Nat.succ_mul] at this
  omega

/-- The bytes of `k` pages that are there. -/
theorem mapped_of_pages {q : ℕ} {qpt : PageTable} (hq : q < nproc)
    (hqpt : (s.proc q).pagetable = some qpt)
    (hsrc : ∀ j, j < k → addr + j * pgSize < trapframeVa
      ∧ ∃ pte, qpt.lookup (addr + j * pgSize) = some pte)
    (hi : i < k * pgSize) : ∃ pte, Mapped s q qpt (addr / pgSize * pgSize + i) pte := by
  obtain ⟨hva, pte, hl⟩ := hsrc (i / pgSize) ((Nat.div_lt_iff_lt_mul (by decide)).mpr hi)
  have hpage : (addr / pgSize * pgSize + i) / pgSize = (addr + i / pgSize * pgSize) / pgSize := by
    unfold pgSize at *
    omega
  refine ⟨pte, hq, hqpt, ?_, by rw [qpt.lookup_congr hpage, hl]⟩
  unfold trapframeVa trampolineVa maxVa pgSize at *
  omega

/-- Two bytes of user memory that are equal whatever the memory holds are the same byte. -/
theorem Mapped.eq_of_byteAt (h : SysReach boot s) {q q' va va' : ℕ} {pt pt' : PageTable}
    {pte pte' : Pte} (hm : Mapped s q pt va pte) (hm' : Mapped s q' pt' va' pte')
    (hbyte : ∀ ram, byteAt pt ram va = byteAt pt' ram va') : q = q' ∧ va = va' := by
  refine hm.eq_of_place h hm' ?_
  by_contra hne
  -- a memory that is `0` except for the first byte
  have := hbyte (update (fun _ => 0) (pte.pa + va % pgSize) 1)
  unfold byteAt at this
  rw [hm.entry, hm'.entry, Option.map_some, Option.map_some, update_self,
    update_of_ne (Ne.symm hne)] at this
  exact absurd (Option.some.inj this) (by decide)

/-- **What a call that returns `0` has copied**: the bytes of the process that was found, from the
start of the page of `addr` on, at least `size` of them. -/
theorem copied_of_psCopyBytes (h : SysReach boot s) (hme : me < nproc)
    (hn : (s.proc me).node = some n) (hpt : (s.proc me).pagetable = some mypt) (hpos : 0 < size)
    (hsrc : ∀ i, i < size → addr + i < trapframeVa)
    (hdst : ∀ i, i < size → UserByte mypt (copyAddr + i)) (hk : size ≤ k * pgSize)
    (hk' : k * pgSize < size + pgSize) (htop : copyAddr + k * pgSize ≤ trapframeVa) {ram : Ram}
    (hrun : psCopyBytes s me pid addr size copyAddr ram ∅ = .ok (0, ram', held)) :
    ∃ q qpt r, findProc s pid n ∅ = .ok (some q, {q}) ∧ q ≠ me
      ∧ (s.proc q).pagetable = some qpt
      ∧ (∀ i, i < k * pgSize → ∃ pte, Mapped s q qpt (addr / pgSize * pgSize + i) pte)
      ∧ size ≤ r ∧ (r < k * pgSize → translate mypt (copyAddr + r) = none)
      ∧ ∀ i, i < r → byteAt mypt ram' (copyAddr + i)
          = byteAt qpt ram (addr / pgSize * pgSize + i) := by
  obtain ⟨q, hfind, hq, hne, hloop⟩ := loop_of_psCopyBytes hn hpt hrun
  obtain ⟨qpt, -, hqpt, -⟩ := lookup_of_psCopyBytesLoop (by omega) hloop
  rw [hqpt] at hloop
  have hfuel : k < size + 1 := by
    unfold pgSize at hk'
    omega
  have hva : ∀ j, j < k → addr + j * pgSize < trapframeVa := fun j hj =>
    hsrc _ (mul_pgSize_lt_size hk' hj)
  have hpages := fun j hj => And.intro (hva j hj)
    (psCopyBytesLoop_found h hq hqpt k _ addr size copyAddr hk' hfuel hva htop hloop j hj)
  obtain ⟨r, ram₁, hloop₁, hr, hr', hfill, hstop⟩ := psCopyBytesLoop_spec h hme hpt hq hqpt hne
    k _ addr size copyAddr ram hk hk' hfuel hpages hdst htop
  obtain rfl : ram' = ram₁ := (Prod.mk.inj (Except.ok.inj (hloop.symm.trans hloop₁))).2
  have hmapped := fun i hi => mapped_of_pages hq hqpt hpages (i := i) hi
  refine ⟨q, qpt, r, hfind, hne, hqpt, hmapped, hr, hstop, fun i hi => ?_⟩
  obtain ⟨pte, hm⟩ := hmapped i (hi.trans_le hr')
  rw [byteAt_of_filled hfill hi]
  unfold byteAt
  rw [hm.entry, Option.map_some, Option.getD_some]

/-- The copy stays below the trapframe, since user memory is small. -/
theorem copy_top (h : SysReach boot s) (hme : me < nproc) (hpt : (s.proc me).pagetable = some mypt)
    (hdst : ∀ i, i < size → UserByte mypt (copyAddr + i)) (hpos : 0 < size)
    (hk : k * pgSize < size + pgSize) : copyAddr + k * pgSize ≤ trapframeVa := by
  have hlt := h.userByte_lt hme hpt (hdst (size - 1) (by omega))
  have hsmall : physTop + pgSize ≤ trapframeVa := by decide
  omega

/-- If the copy is exact whatever the memory holds, the call fits. -/
theorem copyFits_of_exact (h : SysReach boot s) (hme : me < nproc)
    (hn : (s.proc me).node = some n) (hpt : (s.proc me).pagetable = some mypt)
    (ht : Visible s n pid t) (htpt : (s.proc t).pagetable = some pt)
    (hsrc : ∀ i, i < size → addr + i < trapframeVa ∧ ∃ pte, pt.lookup (addr + i) = some pte)
    (hdst : ∀ i, i < size → UserByte mypt (copyAddr + i))
    (hall : ∀ ram, CopiesExactly s me pid mypt pt addr size copyAddr ram) :
    CopyFits s me n t pid mypt addr size copyAddr := by
  obtain ⟨k, hk, hk', -⟩ := exists_turns size
  obtain ⟨ram₀, held₀, hrun₀, -⟩ := hall fun _ => 0
  rcases Nat.eq_zero_or_pos size with hzero | hpos
  · obtain ⟨q, hfind, -, hne, -⟩ := loop_of_psCopyBytes hn hpt hrun₀
    exact ⟨q, hfind, hne, Or.inl hzero⟩
  have htop := copy_top h hme hpt hdst hpos hk'
  have hcopied := fun (ram ram' : Ram) (held : Finset ℕ)
      (hrun : psCopyBytes s me pid addr size copyAddr ram ∅ = .ok (0, ram', held)) =>
    copied_of_psCopyBytes h hme hn hpt hpos (fun i hi => (hsrc i hi).1) hdst hk hk' htop hrun
  obtain ⟨q, qpt, -, hfind, hne, hqpt, hmapped, -⟩ := hcopied _ _ _ hrun₀
  have hsame : ∀ ram, ∃ ram' r, size ≤ r ∧ (r < k * pgSize → translate mypt (copyAddr + r) = none)
      ∧ (∀ i, i < r → byteAt mypt ram' (copyAddr + i)
          = byteAt qpt ram (addr / pgSize * pgSize + i))
      ∧ (∀ i, i < size → byteAt mypt ram' (copyAddr + i) = byteAt pt ram (addr + i))
      ∧ ∀ va, va < trapframeVa → va < copyAddr ∨ copyAddr + size ≤ va →
          byteAt mypt ram' va = byteAt mypt ram va := by
    intro ram
    obtain ⟨ram', held, hrun, hbytes, hrest⟩ := hall ram
    obtain ⟨q', qpt', r, hfind', -, hqpt', -, hr, hstop, hfrom⟩ := hcopied _ _ _ hrun
    obtain rfl : q = q' :=
      Option.some.inj (Prod.mk.inj (Except.ok.inj (hfind.symm.trans hfind'))).1
    obtain rfl : qpt = qpt' := Option.some.inj (hqpt.symm.trans hqpt')
    exact ⟨ram', r, hr, hstop, hfrom, hbytes, hrest⟩
  refine ⟨q, hfind, hne, Or.inr ?_⟩
  -- the first byte
  obtain ⟨pte, hm⟩ := hmapped 0 (by omega)
  obtain ⟨hva, pte', hl'⟩ := hsrc 0 hpos
  obtain ⟨rfl, haddr⟩ : q = t ∧ addr / pgSize * pgSize + 0 = addr + 0 := by
    refine hm.eq_of_byteAt h (⟨ht.1, htpt, hva, hl'⟩ : Mapped s t pt (addr + 0) pte') fun ram => ?_
    obtain ⟨ram', r, hr, -, hfrom, hto, -⟩ := hsame ram
    rw [← hfrom 0 (by omega), hto 0 hpos]
  refine ⟨rfl, ?_, ?_⟩
  · have := Nat.div_add_mod' addr pgSize
    omega
  -- the byte behind the last one
  by_contra htail
  obtain ⟨hpart, huser⟩ := not_or.mp htail
  rw [not_not] at huser
  have hlast : size < k * pgSize := by
    rcases hk.lt_or_eq with hlt | heq
    · exact hlt
    · exact absurd (by rw [heq, Nat.mul_mod_left]) hpart
  obtain ⟨pteq, hmq⟩ := hmapped size hlast
  obtain ⟨a, ha⟩ := Option.ne_none_iff_exists'.mp huser.2
  obtain ⟨pteme, hmme, -⟩ := mapped_of_translate hme hpt huser.1 ha
  refine hne (hmq.eq_of_byteAt h hmme fun ram => ?_).1
  obtain ⟨ram', r, hr, hstop, hfrom, -, hrest⟩ := hsame ram
  have hlt : size < r := by
    rcases hr.lt_or_eq with hlt | rfl
    · exact hlt
    · exact absurd (hstop hlast) huser.2
  rw [← hfrom size hlt, hrest _ huser.1 (Or.inr (le_refl _))]

/-- A call that fits copies exactly. -/
theorem copiesExactly_of_fits (h : SysReach boot s) (hme : me < nproc)
    (hn : (s.proc me).node = some n) (hpt : (s.proc me).pagetable = some mypt)
    (htpt : (s.proc t).pagetable = some pt)
    (hsrc : ∀ i, i < size → addr + i < trapframeVa ∧ ∃ pte, pt.lookup (addr + i) = some pte)
    (hdst : ∀ i, i < size → UserByte mypt (copyAddr + i))
    (hfits : CopyFits s me n t pid mypt addr size copyAddr) (ram : Ram) :
    CopiesExactly s me pid mypt pt addr size copyAddr ram := by
  obtain ⟨k, hk, hk', hksize, hexact⟩ := exists_turns size
  obtain ⟨q, hfind, hne, hfits⟩ := hfits
  obtain ⟨-, hq⟩ := findProc_held hfind
  rcases Nat.eq_zero_or_pos size with rfl | hpos
  · refine ⟨ram, ∅, psCopyBytes_of_loop hn hpt hfind hne (psCopyBytesLoop_done (le_refl _) _), ?_⟩
    exact ⟨fun i hi => absurd hi (Nat.not_lt_zero i), fun _ _ _ => rfl⟩
  have htop := copy_top h hme hpt hdst hpos hk'
  obtain ⟨rfl, haddr, hend⟩ := hfits.resolve_left hpos.ne'
  obtain ⟨r, ram', hloop, hr, hr', hfill, -⟩ := psCopyBytesLoop_spec h hme hpt hq htpt hne
    k (size + 1) addr size copyAddr ram hk hk' (by omega)
    (fun j hj => hsrc _ (mul_pgSize_lt_size hk' hj)) hdst htop
  -- nothing is copied behind the last byte
  obtain rfl : r = size := by
    rcases hend with hmod | huser
    · have := hexact hmod
      omega
    · by_contra hlt
      obtain ⟨a, ha⟩ := hfill.placed size (by omega)
      refine huser ⟨?_, fun hnone => ?_⟩
      · omega
      · rw [hnone] at ha
        cases ha
  rw [← htpt] at hloop
  refine ⟨ram', ∅, psCopyBytes_of_loop hn hpt hfind hne hloop, fun i hi => ?_, fun va hva hout => ?_⟩
  · obtain ⟨-, pte, hl⟩ := hsrc i hi
    rw [byteAt_of_filled hfill hi]
    unfold byteAt
    rw [show addr / pgSize * pgSize = addr by
      have := Nat.div_add_mod' addr pgSize
      omega, hl, Option.map_some, Option.getD_some]
  · exact byteAt_of_not_filled h hme hpt hfill (fun i hi => (hdst i hi).1) hme hpt hva
      fun _ => hout

/-- **`ps_copy` copies exactly, whatever the memory holds, if and only if the call fits**, in every
reachable state, for every caller and every visible process, where the range is mapped in the user
memory of both. -/
theorem psCopy_exact_iff (h : SysReach boot s) (hme : me < nproc)
    (hn : (s.proc me).node = some n) (hpt : (s.proc me).pagetable = some mypt)
    (ht : Visible s n pid t) (htpt : (s.proc t).pagetable = some pt)
    (hsrc : ∀ i, i < size → addr + i < trapframeVa ∧ ∃ pte, pt.lookup (addr + i) = some pte)
    (hdst : ∀ i, i < size → UserByte mypt (copyAddr + i)) :
    (∀ ram, CopiesExactly s me pid mypt pt addr size copyAddr ram)
      ↔ CopyFits s me n t pid mypt addr size copyAddr :=
  ⟨copyFits_of_exact h hme hn hpt ht htpt hsrc hdst,
    copiesExactly_of_fits h hme hn hpt htpt hsrc hdst⟩

end Exact

/-- After a `fork` the first process can copy from its child; both have one page of memory. -/
theorem exists_parent_and_child :
    ∃ s mypt pt, SysReach ∅ s ∧ (s.proc 0).node = some 0 ∧ (s.proc 0).pagetable = some mypt
      ∧ Visible s 0 2 1 ∧ (s.proc 1).pagetable = some pt
      ∧ findProc s 2 0 ∅ = .ok (some 1, {1})
      ∧ (∀ i, i < pgSize → 0 + i < trapframeVa ∧ ∃ pte, pt.lookup (0 + i) = some pte)
      ∧ ∀ i, i < pgSize → UserByte mypt (0 + i) := by
  obtain ⟨s, hreach, hcheck⟩ := sysReach_of_run
    [.proc (.dispatch 0), .proc (.fork 0 (tenPages 1))]
    (fun s => (s.proc 0).node = some 0 ∧ Visible s 0 2 1
      ∧ findProc s 2 0 ∅ = .ok (some 1, {1}) ∧ (firstPte s 1).isSome
      ∧ (s.proc 0).pagetable.any (fun pt => walkaddr pt 0 ≠ 0) = true) (by decide +kernel)
  obtain ⟨hn, hvis, hfind, hchild, hfirst⟩ := of_decide_eq_true hcheck
  obtain ⟨mypt, hpt, hwalk⟩ := (Option.any_eq_true _ _).mp hfirst
  obtain ⟨pt, pte, hm⟩ := mapped_of_firstPte (by decide) hchild
  have hpage : ∀ {i}, i < pgSize → (0 + i) / pgSize = 0 / pgSize := by
    intro i hi
    rw [Nat.zero_add, Nat.div_eq_of_lt hi, Nat.zero_div]
  have hlow : ∀ {i}, i < pgSize → 0 + i < trapframeVa := fun hi =>
    (Nat.zero_add _).symm ▸ hi.trans (by decide)
  refine ⟨s, mypt, pt, hreach, hn, hpt, hvis, hm.table, hfind, fun i hi => ⟨hlow hi, pte, ?_⟩,
    fun i hi => ⟨hlow hi, fun hnone => ?_⟩⟩
  · rw [pt.lookup_congr (hpage hi)]
    exact hm.entry
  · rw [translate_eq_none, walkaddr_page mypt (hpage hi)] at hnone
    exact absurd hnone (of_decide_eq_true hwalk)

/-- The whole page of the child is copied exactly. -/
theorem psCopy_exact_page :
    ∃ s mypt pt, SysReach ∅ s ∧ Visible s 0 2 1
      ∧ ∀ ram, CopiesExactly s 0 2 mypt pt 0 pgSize 0 ram := by
  obtain ⟨s, mypt, pt, hreach, hn, hpt, hvis, htpt, hfind, hsrc, hdst⟩ := exists_parent_and_child
  refine ⟨s, mypt, pt, hreach, hvis, ?_⟩
  refine (psCopy_exact_iff hreach (by decide) hn hpt hvis htpt hsrc hdst).mpr ?_
  exact ⟨1, hfind, by decide, Or.inr ⟨rfl, by decide, Or.inl (by decide)⟩⟩

/-- A single byte is not, neither from the start of the page nor from behind it: a whole page is
copied, and its first byte first. -/
theorem psCopy_not_exact :
    ∃ s mypt pt, SysReach ∅ s ∧ Visible s 0 2 1 ∧ (s.proc 0).pagetable = some mypt
      ∧ (s.proc 1).pagetable = some pt
      ∧ (∀ i, i < pgSize → (∃ pte, pt.lookup i = some pte) ∧ UserByte mypt i)
      ∧ (∃ ram, ¬ CopiesExactly s 0 2 mypt pt 0 1 0 ram)
      ∧ ∃ ram, ¬ CopiesExactly s 0 2 mypt pt 1 1 0 ram := by
  obtain ⟨s, mypt, pt, hreach, hn, hpt, hvis, htpt, hfind, hsrc, hdst⟩ := exists_parent_and_child
  have hone : ∀ {addr i}, addr < 2 → i < 1 → addr + i = 0 + (addr + i) ∧ addr + i < pgSize := by
    intro addr i haddr hi
    unfold pgSize
    omega
  -- the first process could write to the byte behind the copy
  have hfits : ∀ addr, addr < 2 → (addr = 1 ∨ UserByte mypt 1) →
      ¬ CopyFits s 0 0 1 2 mypt addr 1 0 := by
    rintro addr haddr hcase ⟨q, -, -, hfit⟩
    obtain ⟨-, hstart, hend⟩ := hfit.resolve_left (by decide)
    rcases hcase with rfl | huser
    · exact absurd hstart (by decide)
    · exact hend.elim (by decide) fun hnot => hnot huser
  have hexact : ∀ addr, addr < 2 → (addr = 1 ∨ UserByte mypt 1) →
      ∃ ram, ¬ CopiesExactly s 0 2 mypt pt addr 1 0 ram := by
    intro addr haddr hcase
    by_contra hnone
    refine hfits addr haddr hcase (copyFits_of_exact hreach (by decide) hn hpt hvis htpt
      (fun i hi => ?_) (fun i hi => hdst i (hi.trans (by decide))) (not_exists_not.mp hnone))
    rw [(hone haddr hi).1]
    exact hsrc _ (hone haddr hi).2
  refine ⟨s, mypt, pt, hreach, hvis, hpt, htpt, fun i hi => ?_,
    hexact 0 (by decide) (Or.inr (hdst 1 (by decide))), hexact 1 (by decide) (Or.inl rfl)⟩
  rw [← Nat.zero_add i]
  exact ⟨(hsrc i hi).2, hdst i hi⟩

end Xv6
