/-
# User pages with their bytes (`kernel/vm.c`)

`uvmalloc` and `uvmcopy` once more, with what they write into the pages they add: `memset` and
`memmove`.  The bytes of the page tables are the tables themselves, so nothing is said about them
here.  Without the bytes both functions are those of `VmModel` (`uvmallocBytes_fst`,
`uvmcopyBytes_fst`).

A page that the allocator hands out is none of those in use, so a call changes no byte of a page in
use (`Keeps`), and pages below the part that grows keep their entries.
-/
import Xv6.UserCopy
import Xv6.VmLife

namespace Xv6

/-! ## The functions -/

/-- `memset(dst, c, n)`. -/
def memset (ram : Ram) (dst : ℕ) (c : UInt8) (n : ℕ) : Ram := memmove ram dst (fun _ => c) n

/-- The loop of `uvmalloc` over `n` pages from `a` on; `oldsz` is rounded up. -/
def uvmallocBytesFrom (oldsz : ℕ) (perm : Perm) : ℕ → ℕ → PageTable → PagePool → Ram →
    Except Fault (Bool × PageTable × PagePool × Ram)
  | 0, _, pt, m, ram => .ok (true, pt, m, ram)
  | n + 1, a, pt, m, ram =>
    match kalloc m with
    | (none, m) => do
      let (_, pt, m) ← uvmdealloc pt m a oldsz
      return (false, pt, m, ram)
    | (some mem, m) => do
      let ram := memset ram mem 0 pgSize
      let (ok, pt, m) ← mappages pt m a pgSize mem perm
      if ok then uvmallocBytesFrom oldsz perm n (a + pgSize) pt m ram
      else
        let m ← kfree m mem
        let (_, pt, m) ← uvmdealloc pt m a oldsz
        return (false, pt, m, ram)

/-- `uvmalloc(pagetable, oldsz, newsz, xperm)`: the new size, or `0`. -/
def uvmallocBytes (pt : PageTable) (m : PagePool) (ram : Ram) (oldsz newsz : ℕ) (w x : Bool) :
    Except Fault (ℕ × PageTable × PagePool × Ram) :=
  if newsz < oldsz then .ok (oldsz, pt, m, ram)
  else do
    let base := pgRoundUp oldsz
    let (ok, pt, m, ram) ←
      uvmallocBytesFrom base (permUser w x) ((newsz - base + pgSize - 1) / pgSize) base pt m ram
    return (if ok then newsz else 0, pt, m, ram)

/-- The loop of `uvmcopy` over `n` pages from page `i` on, with its `err` label. -/
def uvmcopyBytesFrom (old : PageTable) : ℕ → ℕ → PageTable → PagePool → Ram →
    Except Fault (Bool × PageTable × PagePool × Ram)
  | 0, _, new, m, ram => .ok (true, new, m, ram)
  | n + 1, i, new, m, ram => do
    match ← walk old (i * pgSize) with
    | none => .error (.panic "uvmcopy: pte should exist")
    | some none => .error (.panic "uvmcopy: page not present")
    | some (some pte) =>
      match kalloc m with
      | (none, m) =>
        let (new, m) ← uvmunmap new m 0 i true
        return (false, new, m, ram)
      | (some mem, m) =>
        let ram := memmove ram mem (fun o => ram (pte.pa + o)) pgSize
        let (ok, new, m) ← mappages new m (i * pgSize) pgSize mem pte.perm
        if ok then uvmcopyBytesFrom old n (i + 1) new m ram
        else
          let m ← kfree m mem
          let (new, m) ← uvmunmap new m 0 i true
          return (false, new, m, ram)

/-- `uvmcopy(old, new, sz)`: `false` for the result `-1`. -/
def uvmcopyBytes (old new : PageTable) (m : PagePool) (ram : Ram) (sz : ℕ) :
    Except Fault (Bool × PageTable × PagePool × Ram) :=
  uvmcopyBytesFrom old (pgRoundUp sz / pgSize) 0 new m ram

/-! ## Bytes that stay -/

/-- The bytes of every page in `S`, and of every page that the allocator does not have, are the
same. -/
def Keeps (m : PagePool) (S : Multiset ℕ) (ram ram' : Ram) : Prop :=
  ∀ pa, pa % pgSize = 0 → (m.IsPage pa → pa ∈ S) → ∀ o, o < pgSize → ram' (pa + o) = ram (pa + o)

section Bytes

variable {m m' : PagePool} {S : Multiset ℕ} {ram ram' ram'' : Ram} {mem : ℕ}

theorem Keeps.refl (m : PagePool) (S : Multiset ℕ) (ram : Ram) : Keeps m S ram ram :=
  fun _ _ _ _ _ => rfl

theorem Keeps.trans {S' : Multiset ℕ} (h : Keeps m S ram ram') (h' : Keeps m' S' ram' ram'')
    (hkend : m'.kend = m.kend) (hsub : S ⊆ S') : Keeps m S ram ram'' := by
  intro pa hpa hS o ho
  rw [h' pa hpa (fun hpage => hsub (hS ?_)) o ho, h pa hpa hS o ho]
  unfold PagePool.IsPage at hpage ⊢
  rwa [← hkend]

/-- Writing a page that is not in use changes no page in use. -/
theorem Keeps.memmove (h : m.IsPage mem ∧ mem ∉ S) (ram : Ram) (f : ℕ → UInt8) :
    Keeps m S ram (memmove ram mem f pgSize) := by
  intro pa hpa hS o ho
  have hne : mem ≠ pa := by
    rintro rfl
    exact h.2 (hS h.1)
  have hal : mem % pgSize = 0 := h.1.1
  apply if_neg
  unfold pgSize at *
  omega

theorem memmove_at (ram : Ram) (dst : ℕ) (f : ℕ → UInt8) {n o : ℕ} (ho : o < n) :
    Xv6.memmove ram dst f n (dst + o) = f o := by
  unfold Xv6.memmove
  rw [if_pos (by omega), Nat.add_sub_cancel_left]

/-- Filling the new page, and what the rest of the loop does. -/
theorem Keeps.cons {U U' : Multiset ℕ} {B : Multiset ℕ} (h : m.IsPage mem ∧ mem ∉ B + U)
    (huser : U' = U + {mem}) (hkend : m'.kend = m.kend) {f : ℕ → UInt8}
    (hrest : Keeps m' (B + U') (Xv6.memmove ram mem f pgSize) ram') :
    Keeps m (B + U) ram ram' ∧ ∀ o, o < pgSize → ram' (mem + o) = f o := by
  subst huser
  constructor
  · refine (Keeps.memmove h ram f).trans hrest hkend ?_
    rw [← add_assoc]
    exact Multiset.subset_of_le (Multiset.le_add_right _ _)
  · intro o ho
    rw [hrest mem h.1.1 (fun _ => by simp) o ho]
    exact memmove_at ram mem f ho

end Bytes

/-! ## `uvmalloc` -/

/-- Pages `i` to `i + n` have been added: they are new and zero, and nothing else has changed. -/
structure Extended (m : PagePool) (B : Multiset ℕ) (i n : ℕ) (perm : Perm) (pt pt' : PageTable)
    (ram ram' : Ram) : Prop where
  same : ∀ b, b < vaSpan → ¬ (i ≤ b / pgSize ∧ b / pgSize < i + n) → pt'.lookup b = pt.lookup b
  new : ∀ b, b < vaSpan → i ≤ b / pgSize → b / pgSize < i + n →
    ∃ mem, pt'.lookup b = some ⟨mem, perm⟩ ∧ ram' (mem + b % pgSize) = 0
  kept : Keeps m (B + pt.user i) ram ram'

section Alloc

variable {m m₂ : PagePool} {B : Multiset ℕ} {pt pt₂ : PageTable} {ram ram' : Ram} {i k mem : ℕ}
  {perm : Perm}

/-- One more page, and what the rest of the loop adds. -/
theorem Extended.cons (hpage : m.IsPage mem ∧ mem ∉ B + pt.user i)
    (huser : pt₂.user (i + 1) = pt.user i + {mem})
    (hlook : ∀ b, b < vaSpan →
      pt₂.lookup b = if b / pgSize = i then some ⟨mem, perm⟩ else pt.lookup b)
    (hkend : m₂.kend = m.kend) {n : ℕ} {pt' : PageTable}
    (hrest : Extended m₂ B (i + 1) n perm pt₂ pt' (memset ram mem 0 pgSize) ram') :
    Extended m B i (n + 1) perm pt pt' ram ram' := by
  obtain ⟨hkeeps, hnew⟩ := Keeps.cons hpage huser hkend hrest.kept
  constructor
  · intro b hb hbi
    rw [hrest.same b hb (by omega), hlook b hb, if_neg (by omega)]
  · intro b hb hlo hhi
    by_cases hbi : b / pgSize = i
    · refine ⟨mem, ?_, hnew _ (Nat.mod_lt b (by decide))⟩
      rw [hrest.same b hb (by omega), hlook b hb, if_pos hbi]
    · exact hrest.new b hb (by omega) (by omega)
  · exact hkeeps

theorem uvmallocBytesFrom_spec (perm : Perm) (n i : ℕ) {m : PagePool} {pt : PageTable} (ram : Ram)
    (hki : k ≤ i) (h : AddressSpace m B pt i) :
    ∃ ok pt' m' ram',
      uvmallocBytesFrom (k * pgSize) perm n (i * pgSize) pt m ram = .ok (ok, pt', m', ram')
      ∧ m'.kend = m.kend ∧ AddressSpace m' B pt' (if ok then i + n else k)
      ∧ Keeps m (B + pt.user i) ram ram'
      ∧ (∀ b, b < vaSpan → b / pgSize < k → pt'.lookup b = pt.lookup b)
      ∧ (ok = true → Extended m B i n perm pt pt' ram ram') := by
  induction n generalizing i m pt ram with
  | zero =>
    refine ⟨true, pt, m, ram, rfl, rfl, h, Keeps.refl _ _ _, fun _ _ _ => rfl, fun _ => ?_⟩
    exact ⟨fun _ _ _ => rfl, fun b _ hlo hhi => absurd hlo (by omega), Keeps.refl _ _ _⟩
  | succ n ih =>
    unfold uvmallocBytesFrom
    cases h.one_more perm with
    | noPage hk hkend hspace =>
      obtain ⟨pt', m', hrun, hkend', hspace', hsame⟩ := hspace.back hki
      simp only [hk, hrun, ok_bind]
      exact ⟨false, pt', m', ram, rfl, hkend'.trans hkend, hspace', Keeps.refl _ _ _, hsame, by simp⟩
    | @noTable mem m₁ m₂ m₃ pt₂ hk hmap hfree hkend hspace hpage hlook =>
      obtain ⟨pt', m', hrun, hkend', hspace', hsame⟩ := hspace.back hki
      refine ⟨false, pt', m', memset ram mem 0 pgSize, ?_, hkend'.trans hkend, hspace',
        Keeps.memmove hpage ram _, fun b hb hbk => (hsame b hb hbk).trans (hlook b hb), by simp⟩
      simp only [hk, hmap, ok_bind]
      simp [hfree, hrun]
    | @mapped mem m₁ m₂ pt₂ hk hmap hkend hspace hpage huser hlook =>
      obtain ⟨ok, pt', m', ram', hrun, hkend', hspace', hkeeps, hsame, hext⟩ :=
        ih (i + 1) (memset ram mem 0 pgSize) (by omega) hspace
      simp only [hk, hmap, ok_bind, if_true]
      rw [show i * pgSize + pgSize = (i + 1) * pgSize by ring, hrun]
      refine ⟨ok, pt', m', ram', rfl, hkend'.trans hkend, ?_,
        (Keeps.cons hpage huser hkend hkeeps).1, fun b hb hbk => ?_,
        fun hok => Extended.cons hpage huser hlook hkend (hext hok)⟩
      · rwa [show i + (n + 1) = i + 1 + n by omega]
      · rw [hsame b hb hbk, hlook b hb, if_neg (by omega)]

/-- The pages that `uvmalloc` has to add. -/
theorem pageCount_add_turns {oldsz newsz : ℕ} (h : oldsz ≤ newsz) :
    pageCount oldsz + (newsz - pgRoundUp oldsz + pgSize - 1) / pgSize = pageCount newsz := by
  unfold pageCount pgRoundUp pgSize
  omega

/-- **`uvmalloc`** returns the larger size and has added zeroed pages up to it, or returns `0` and
has added none. -/
theorem uvmallocBytes_spec {oldsz : ℕ} (h : AddressSpace m B pt (pageCount oldsz)) (ram : Ram)
    (newsz : ℕ) (w x : Bool) :
    ∃ r pt' m' ram', uvmallocBytes pt m ram oldsz newsz w x = .ok (r, pt', m', ram')
      ∧ m'.kend = m.kend
      ∧ ((r = max oldsz newsz ∧ AddressSpace m' B pt' (pageCount r)
          ∧ Extended m B (pageCount oldsz) (pageCount r - pageCount oldsz) (permUser w x)
            pt pt' ram ram')
        ∨ (r = 0 ∧ AddressSpace m' B pt' (pageCount oldsz)
          ∧ (∀ b, b < vaSpan → b / pgSize < pageCount oldsz → pt'.lookup b = pt.lookup b)
          ∧ Keeps m (B + pt.user (pageCount oldsz)) ram ram')) := by
  unfold uvmallocBytes
  by_cases hlt : newsz < oldsz
  · rw [if_pos hlt]
    refine ⟨oldsz, pt, m, ram, rfl, rfl, Or.inl ⟨(max_eq_left hlt.le).symm, h, ?_⟩⟩
    exact ⟨fun _ _ _ => rfl, fun b _ hlo hhi => absurd hlo (by omega), Keeps.refl _ _ _⟩
  · rw [if_neg hlt]
    have hle : oldsz ≤ newsz := by omega
    obtain ⟨ok, pt', m', ram', hrun, hkend, hspace, hkeeps, hsame, hext⟩ :=
      uvmallocBytesFrom_spec (permUser w x) ((newsz - pgRoundUp oldsz + pgSize - 1) / pgSize)
        (pageCount oldsz) ram le_rfl h
    have hturns := pageCount_add_turns hle
    rw [← pgRoundUp_eq] at hrun
    simp only [hrun, ok_bind]
    refine ⟨_, pt', m', ram', rfl, hkend, ?_⟩
    cases ok with
    | true =>
      refine Or.inl ⟨(max_eq_right hle).symm, ?_, ?_⟩
      · rw [if_pos rfl, ← hturns]
        exact hspace
      · rw [if_pos rfl, ← hturns, Nat.add_sub_cancel_left]
        exact hext rfl
    | false => exact Or.inr ⟨rfl, hspace, hsame, hkeeps⟩

/-- Forget the memory. -/
def dropRam {α : Type} (r : α × PageTable × PagePool × Ram) : α × PageTable × PagePool :=
  (r.1, r.2.1, r.2.2.1)

theorem uvmallocBytesFrom_fst (oldsz : ℕ) (perm : Perm) (n a : ℕ) (pt : PageTable) (m : PagePool)
    (ram : Ram) :
    (uvmallocBytesFrom oldsz perm n a pt m ram).map dropRam = uvmallocFrom oldsz perm n a pt m := by
  induction n generalizing a pt m ram with
  | zero => rfl
  | succ n ih =>
    unfold uvmallocBytesFrom uvmallocFrom
    cases kalloc m with
    | mk page m₁ =>
      cases page with
      | none =>
        dsimp only
        cases uvmdealloc pt m₁ a oldsz <;> rfl
      | some mem =>
        dsimp only
        cases mappages pt m₁ a pgSize mem perm with
        | error e => rfl
        | ok r =>
          obtain ⟨ok, pt₁, m₂⟩ := r
          cases ok with
          | true => exact ih _ _ _ _
          | false =>
            simp only [ok_bind, Bool.false_eq_true, if_false]
            cases kfree m₂ mem with
            | error e => rfl
            | ok m₃ =>
              simp only [ok_bind]
              cases uvmdealloc pt₁ m₃ a oldsz <;> rfl

/-- Without the bytes this is `uvmalloc`. -/
theorem uvmallocBytes_fst (pt : PageTable) (m : PagePool) (ram : Ram) (oldsz newsz : ℕ)
    (w x : Bool) :
    (uvmallocBytes pt m ram oldsz newsz w x).map dropRam = uvmalloc pt m oldsz newsz w x := by
  unfold uvmallocBytes uvmalloc
  split_ifs
  · rfl
  · dsimp only
    rw [← uvmallocBytesFrom_fst _ _ _ _ _ _ ram]
    cases uvmallocBytesFrom (pgRoundUp oldsz) (permUser w x)
      ((newsz - pgRoundUp oldsz + pgSize - 1) / pgSize) (pgRoundUp oldsz) pt m ram <;> rfl

end Alloc

/-! ## `uvmcopy` -/

/-- Pages `i` to `i + n` of `new` are copies of those of `old`. -/
structure Duplicated (m : PagePool) (B : Multiset ℕ) (old : PageTable) (i n : ℕ)
    (new new' : PageTable) (ram ram' : Ram) : Prop where
  same : ∀ b, b < vaSpan → ¬ (i ≤ b / pgSize ∧ b / pgSize < i + n) →
    new'.lookup b = new.lookup b
  copy : ∀ b, b < vaSpan → i ≤ b / pgSize → b / pgSize < i + n →
    ∃ pte mem, old.lookup b = some pte ∧ new'.lookup b = some ⟨mem, pte.perm⟩
      ∧ ram' (mem + b % pgSize) = ram (pte.pa + b % pgSize)
  kept : Keeps m (B + new.user i) ram ram'

/-- No page that `old` maps is free: those of the allocator are in `B`. -/
def Busy (m : PagePool) (B : Multiset ℕ) (old : PageTable) : Prop :=
  ∀ va pte, va < maxVa → old.lookup va = some pte →
    pte.pa % pgSize = 0 ∧ (m.IsPage pte.pa → pte.pa ∈ B)

section Copy

variable {m m₂ : PagePool} {B : Multiset ℕ} {old new new₂ : PageTable} {ram ram' : Ram}
  {i mem : ℕ} {pte : Pte}

/-- One more page, and what the rest of the loop copies. -/
theorem Duplicated.cons (hbusy : Busy m B old) (hl : old.lookup (i * pgSize) = some pte)
    (hpage : m.IsPage mem ∧ mem ∉ B + new.user i) (huser : new₂.user (i + 1) = new.user i + {mem})
    (hlook : ∀ b, b < vaSpan →
      new₂.lookup b = if b / pgSize = i then some ⟨mem, pte.perm⟩ else new.lookup b)
    (hkend : m₂.kend = m.kend) {n : ℕ} (hbound : (i + (n + 1)) * pgSize ≤ maxVa)
    {new' : PageTable} (hrest : Duplicated m₂ B old (i + 1) n new₂ new'
        (memmove ram mem (fun o => ram (pte.pa + o)) pgSize) ram') :
    Duplicated m B old i (n + 1) new new' ram ram' := by
  obtain ⟨hkeeps, hnew⟩ := Keeps.cons hpage huser hkend hrest.kept
  constructor
  · intro b hb hbi
    rw [hrest.same b hb (by omega), hlook b hb, if_neg (by omega)]
  · intro b hb hlo hhi
    by_cases hbi : b / pgSize = i
    · refine ⟨pte, mem, ?_, ?_, hnew _ (Nat.mod_lt b (by decide))⟩
      · rw [← hl]
        apply PageTable.lookup_congr
        rw [hbi, mul_pgSize_div]
      · rw [hrest.same b hb (by omega), hlook b hb, if_pos hbi]
    · -- the source of a later page has not been overwritten
      obtain ⟨pte', mem', hl', hnew', hbyte⟩ := hrest.copy b hb (by omega) (by omega)
      refine ⟨pte', mem', hl', hnew', hbyte.trans ?_⟩
      have hlt : b < maxVa := lt_of_lt_of_le (Nat.lt_mul_of_div_lt hhi (by decide)) hbound
      obtain ⟨hal, hmem⟩ := hbusy b pte' hlt hl'
      refine Keeps.memmove hpage ram _ pte'.pa hal (fun hp => ?_) _ (Nat.mod_lt b (by decide))
      exact Multiset.mem_add.mpr (Or.inl (hmem hp))
  · exact hkeeps

theorem Busy.of_kend (h : Busy m B old) (hkend : m₂.kend = m.kend) : Busy m₂ B old := by
  intro va pte hva hl
  obtain ⟨hal, hmem⟩ := h va pte hva hl
  refine ⟨hal, fun hpage => hmem ?_⟩
  unfold PagePool.IsPage at hpage ⊢
  rwa [← hkend]

theorem uvmcopyBytesFrom_spec (n i : ℕ) {m : PagePool} {new : PageTable} (ram : Ram)
    (hold : ∀ j, i ≤ j → j < i + n → ∃ pte, old.lookup (j * pgSize) = some pte)
    (hbound : (i + n) * pgSize ≤ maxVa) (h : AddressSpace m B new i) :
    ∃ ok new' m' ram', uvmcopyBytesFrom old n i new m ram = .ok (ok, new', m', ram')
      ∧ m'.kend = m.kend ∧ AddressSpace m' B new' (if ok then i + n else 0)
      ∧ Keeps m (B + new.user i) ram ram'
      ∧ (Busy m B old → ok = true → Duplicated m B old i n new new' ram ram') := by
  induction n generalizing i m new ram with
  | zero =>
    refine ⟨true, new, m, ram, rfl, rfl, h, Keeps.refl _ _ _, fun _ _ => ?_⟩
    exact ⟨fun _ _ _ => rfl, fun b _ hlo hhi => absurd hlo (by omega), Keeps.refl _ _ _⟩
  | succ n ih =>
    obtain ⟨pte, hl⟩ := hold i le_rfl (by omega)
    rw [uvmcopyBytesFrom, walk_of_lookup h.next_page.1 hl]
    simp only [ok_bind]
    cases h.one_more pte.perm with
    | noPage hk hkend hspace =>
      obtain ⟨new', m', hrun, hkend', hspace'⟩ := hspace.clear
      simp only [hk, hrun, ok_bind]
      exact ⟨false, new', m', ram, rfl, hkend'.trans hkend, hspace', Keeps.refl _ _ _, by simp⟩
    | @noTable mem m₁ m₂ m₃ new₂ hk hmap hfree hkend hspace hpage hlook =>
      obtain ⟨new', m', hrun, hkend', hspace'⟩ := hspace.clear
      refine ⟨false, new', m', memmove ram mem (fun o => ram (pte.pa + o)) pgSize, ?_,
        hkend'.trans hkend, hspace', Keeps.memmove hpage ram _, by simp⟩
      simp only [hk, hmap, ok_bind]
      simp [hfree, hrun]
    | @mapped mem m₁ m₂ new₂ hk hmap hkend hspace hpage huser hlook =>
      obtain ⟨ok, new', m', ram', hrun, hkend', hspace', hkeeps, hdup⟩ :=
        ih (i + 1) (memmove ram mem (fun o => ram (pte.pa + o)) pgSize)
          (fun j hlo hj => hold j (by omega) (by omega))
          (by rwa [show i + 1 + n = i + (n + 1) by omega]) hspace
      simp only [hk, hmap, ok_bind, if_true]
      rw [hrun]
      refine ⟨ok, new', m', ram', rfl, hkend'.trans hkend, ?_,
        (Keeps.cons hpage huser hkend hkeeps).1, fun hbusy hok =>
          Duplicated.cons hbusy hl hpage huser hlook hkend hbound (hdup (hbusy.of_kend hkend) hok)⟩
      rwa [show i + (n + 1) = i + 1 + n by omega]

/-- **`uvmcopy`** into an empty address space copies every page, or leaves none. -/
theorem uvmcopyBytes_spec {sz : ℕ} (hold : MapsBelow old sz) (ram : Ram)
    (h : AddressSpace m B new 0) :
    ∃ ok new' m' ram', uvmcopyBytes old new m ram sz = .ok (ok, new', m', ram')
      ∧ m'.kend = m.kend ∧ AddressSpace m' B new' (if ok then pageCount sz else 0)
      ∧ Keeps m B ram ram'
      ∧ (Busy m B old → ok = true → Duplicated m B old 0 (pageCount sz) new new' ram ram') := by
  have hbound : (0 + pageCount sz) * pgSize ≤ maxVa := by
    rw [Nat.zero_add]
    exact hold.1.trans trapframeVa_le
  have hrun := uvmcopyBytesFrom_spec (pageCount sz) 0 ram (fun j _ hj => hold.2 j (by omega))
    hbound h
  rw [Nat.zero_add, PageTable.user_zero, add_zero] at hrun
  exact hrun

theorem uvmcopyBytesFrom_fst (old : PageTable) (n i : ℕ) (new : PageTable) (m : PagePool)
    (ram : Ram) :
    (uvmcopyBytesFrom old n i new m ram).map dropRam = uvmcopyFrom old n i new m := by
  induction n generalizing i new m ram with
  | zero => rfl
  | succ n ih =>
    unfold uvmcopyBytesFrom uvmcopyFrom
    cases walk old (i * pgSize) with
    | error e => rfl
    | ok entry =>
      simp only [ok_bind]
      rcases entry with - | - | pte
      · rfl
      · rfl
      · cases kalloc m with
        | mk page m₁ =>
          cases page with
          | none =>
            dsimp only
            cases uvmunmap new m₁ 0 i true <;> rfl
          | some mem =>
            dsimp only
            cases mappages new m₁ (i * pgSize) pgSize mem pte.perm with
            | error e => rfl
            | ok r =>
              obtain ⟨ok, new₁, m₂⟩ := r
              cases ok with
              | true => exact ih _ _ _ _
              | false =>
                simp only [ok_bind, Bool.false_eq_true, if_false]
                cases kfree m₂ mem with
                | error e => rfl
                | ok m₃ =>
                  simp only [ok_bind]
                  cases uvmunmap new₁ m₃ 0 i true <;> rfl

/-- Without the bytes this is `uvmcopy`. -/
theorem uvmcopyBytes_fst (old new : PageTable) (m : PagePool) (ram : Ram) (sz : ℕ) :
    (uvmcopyBytes old new m ram sz).map dropRam = uvmcopy old new m sz :=
  uvmcopyBytesFrom_fst old _ 0 new m ram

end Copy

end Xv6
