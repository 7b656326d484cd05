/-
# Strings from user memory (`copyinstr` of `kernel/vm.c`)

The two loops of `copyinstr` share the budget `max`.  While no null byte has been found, the state
after `j` bytes is `midway`; it ends in `ended` at the first null byte, or it stays `midway` because
the budget is used up or the next byte is not accessible (`copyinstrFrom_spec`).
-/
import Xv6.CopyExact

namespace Xv6.UserMem

open Function

variable {a i j n p : ℕ}

open Sv39 (Word pgRoundDown)

variable {pt : PageTable} {ram : Ram} {dst va size : ℕ}

/-! ## States of the loops -/

/-- Where byte `i` of the string is. -/
def place (pt : PageTable) (va i : ℕ) : ℕ := (translate pt (va + i)).getD 0

/-- The state after `j` bytes, none of them null, with the budget `m`. -/
def midway (pt : PageTable) (ram : Ram) (dst va : ℕ) (m : Word) (j : ℕ) : Str where
  gotNull := false
  ram := memmove ram dst (userBytes pt ram va) j
  dst := dst + j
  max := m
  reads := (List.range j).map (place pt va)

/-- The state after the null byte at `k`. -/
def ended (pt : PageTable) (ram : Ram) (dst va : ℕ) (m : Word) (k : ℕ) : Str where
  gotNull := true
  ram := memmove ram dst (userBytes pt ram va) (k + 1)
  dst := dst + k
  max := m
  reads := (List.range (k + 1)).map (place pt va)

theorem memmove_zero (ram : Ram) (dst : ℕ) (f : ℕ → UInt8) : memmove ram dst f 0 = ram := by
  funext a
  unfold memmove
  exact if_neg (by omega)

theorem memmove_succ (ram : Ram) (dst : ℕ) (f : ℕ → UInt8) (j : ℕ) :
    memmove ram dst f (j + 1) = update (memmove ram dst f j) (dst + j) (f j) := by
  funext a
  by_cases ha : a = dst + j
  · subst ha
    rw [update_self]
    unfold memmove
    rw [if_pos (by omega), Nat.add_sub_cancel_left]
  · rw [update_of_ne ha]
    unfold memmove
    have hiff : (dst ≤ a ∧ a < dst + (j + 1)) ↔ dst ≤ a ∧ a < dst + j := by omega
    simp only [hiff]

theorem Private.memmove_place (h : Private pt dst size) (hj : j ≤ size) (f : ℕ → UInt8)
    (ha : translate pt (va + i) = some a) : memmove ram dst f j a = ram a := by
  unfold memmove
  apply if_neg
  rintro ⟨hle, hlt⟩
  apply h (a - dst) (by omega) (va + i)
  rw [ha, Nat.add_sub_cancel' hle]

theorem userBytes_eq (ha : translate pt (va + i) = some a) : userBytes pt ram va i = ram a := by
  unfold userBytes userByte
  rw [ha]
  rfl

theorem place_eq (ha : translate pt (va + i) = some a) : place pt va i = a := by
  unfold place
  rw [ha]
  rfl

/-! ## The loops -/

theorem copyinstrPage_null (h : Private pt dst size) (hj : j ≤ size)
    (hp : translate pt (va + j) = some p) (hnull : userBytes pt ram va j = 0) (m : Word) :
    copyinstrPage (n + 1) (midway pt ram dst va m j) p = ended pt ram dst va m j := by
  have hread : (midway pt ram dst va m j).ram p = 0 := by
    rw [← hnull, userBytes_eq hp]
    exact h.memmove_place hj _ hp
  rw [copyinstrPage, if_pos hread]
  unfold midway ended
  rw [memmove_succ, hnull, List.range_succ, List.map_append, List.map_singleton, place_eq hp]

theorem copyinstrPage_next (h : Private pt dst size) (hj : j ≤ size)
    (hp : translate pt (va + j) = some p) (hnull : userBytes pt ram va j ≠ 0) (m : Word) :
    copyinstrPage (n + 1) (midway pt ram dst va m j) p
      = copyinstrPage n (midway pt ram dst va (m - 1) (j + 1)) (p + 1) := by
  have hread : (midway pt ram dst va m j).ram p = userBytes pt ram va j := by
    rw [userBytes_eq hp]
    exact h.memmove_place hj _ hp
  rw [copyinstrPage, if_neg (by rwa [hread]), hread]
  unfold midway
  rw [memmove_succ, List.range_succ, List.map_append, List.map_singleton, place_eq hp]
  rfl

/-- The inner loop: it stops behind the first null byte of the page, or takes all `n` bytes. -/
theorem copyinstrPage_spec (h : Private pt dst size) (hsize : j + n ≤ size)
    (hp : ∀ i, i < n → translate pt (va + (j + i)) = some (p + i)) {m : Word} (hm : n ≤ m.toNat) :
    (∃ k m', j ≤ k ∧ k < j + n ∧ userBytes pt ram va k = 0
        ∧ (∀ i, j ≤ i → i < k → userBytes pt ram va i ≠ 0)
        ∧ copyinstrPage n (midway pt ram dst va m j) p = ended pt ram dst va m' k)
      ∨ (∀ i, j ≤ i → i < j + n → userBytes pt ram va i ≠ 0)
        ∧ ∃ m' : Word, m'.toNat + n = m.toNat
          ∧ copyinstrPage n (midway pt ram dst va m j) p = midway pt ram dst va m' (j + n) := by
  induction n generalizing j p m with
  | zero => exact Or.inr ⟨fun i _ _ => by omega, m, rfl, rfl⟩
  | succ n ih =>
    have hfirst : translate pt (va + j) = some p := hp 0 (Nat.succ_pos n)
    by_cases hnull : userBytes pt ram va j = 0
    · refine Or.inl ⟨j, m, le_refl j, by omega, hnull, fun i _ _ => by omega, ?_⟩
      exact copyinstrPage_null h (by omega) hfirst hnull m
    · rw [copyinstrPage_next h (by omega) hfirst hnull m]
      have hm' : (m - 1).toNat = m.toNat - 1 := by
        apply BitVec.toNat_sub_of_le
        rw [BitVec.le_def]
        exact Nat.succ_le_of_lt (by omega)
      have hcons : ∀ b, (∀ i, j + 1 ≤ i → i < b → userBytes pt ram va i ≠ 0) →
          ∀ i, j ≤ i → i < b → userBytes pt ram va i ≠ 0 := by
        intro b hrest i hle hlt
        rcases hle.eq_or_lt with rfl | hlt'
        · exact hnull
        · exact hrest i hlt' hlt
      have hp' : ∀ i, i < n → translate pt (va + (j + 1 + i)) = some (p + 1 + i) := by
        intro i hi
        rw [Nat.add_assoc j, Nat.add_assoc p, Nat.add_comm 1 i]
        exact hp (i + 1) (by omega)
      rcases ih (by omega) hp' (by omega : n ≤ (m - 1).toNat) with
        ⟨k, m', hjk, hk, hzero, hbefore, hrun⟩ | ⟨hall, m', hm'', hrun⟩
      · exact Or.inl ⟨k, m', by omega, by omega, hzero, hcons k hbefore, hrun⟩
      · refine Or.inr ⟨fun i hle hlt => hcons (j + 1 + n) hall i hle (by omega), m', by omega, ?_⟩
        rw [hrun, Nat.add_assoc, Nat.add_comm 1 n]

/-- What the outer loop can end in, from byte `j` on. -/
inductive StrEnd (pt : PageTable) (ram : Ram) (dst va size j : ℕ) :
    Except Fault (Bool × Str) → Prop
  | found {k : ℕ} (m : Word) : j ≤ k → k < size →
      (∀ i, j ≤ i → i ≤ k → translate pt (va + i) ≠ none) → userBytes pt ram va k = 0 →
      (∀ i, j ≤ i → i < k → userBytes pt ram va i ≠ 0) →
      StrEnd pt ram dst va size j (.ok (true, ended pt ram dst va m k))
  | failed {l : ℕ} (m : Word) : j ≤ l → l ≤ size →
      (∀ i, j ≤ i → i < l → userBytes pt ram va i ≠ 0) →
      (l < size → translate pt (va + l) = none) →
      StrEnd pt ram dst va size j (.ok (false, midway pt ram dst va m l))

/-- Bytes that are accessible and not null are passed over. -/
theorem StrEnd.extend {j' : ℕ} {r : Except Fault (Bool × Str)} (h : StrEnd pt ram dst va size j' r)
    (hle : j ≤ j') (hplaced : ∀ i, j ≤ i → i < j' → translate pt (va + i) ≠ none)
    (hbytes : ∀ i, j ≤ i → i < j' → userBytes pt ram va i ≠ 0) : StrEnd pt ram dst va size j r := by
  cases h with
  | found m hjk hk hpl hzero hbefore =>
    refine .found m (hle.trans hjk) hk (fun i hi hik => ?_) hzero fun i hi hik => ?_
    · by_cases hij : i < j'
      · exact hplaced i hi hij
      · exact hpl i (Nat.le_of_not_lt hij) hik
    · by_cases hij : i < j'
      · exact hbytes i hi hij
      · exact hbefore i (Nat.le_of_not_lt hij) hik
  | failed m hjl hl hbefore hstop =>
    refine .failed m (hle.trans hjl) hl (fun i hi hil => ?_) hstop
    by_cases hij : i < j'
    · exact hbytes i hi hij
    · exact hbefore i (Nat.le_of_not_lt hij) hil

theorem copyinstrFrom_ended {fuel : ℕ} (hfuel : 0 < fuel) (m cur : Word) (k : ℕ) :
    copyinstrFrom pt fuel (ended pt ram dst va m k) cur = .ok (true, ended pt ram dst va m k) := by
  obtain ⟨fuel, rfl⟩ := Nat.exists_eq_succ_of_ne_zero hfuel.ne'
  unfold copyinstrFrom
  exact if_neg fun h => absurd h.1 (by simp [ended])

theorem copyinstrFrom_spec (h : Private pt dst size) {fuel : ℕ} {cur m : Word}
    (hfuel : Enough fuel cur) (hcur : m.toNat ≠ 0 → cur.toNat = va + j) (hm : m.toNat + j = size) :
    StrEnd pt ram dst va size j (copyinstrFrom pt fuel (midway pt ram dst va m j) cur) := by
  induction fuel generalizing j cur m with
  | zero => exact absurd hfuel.1 (Nat.lt_irrefl 0)
  | succ fuel ih =>
    unfold copyinstrFrom
    by_cases hzero : m.toNat = 0
    · -- the budget is used up
      rw [if_neg fun hcond => toNat_pos.mp hcond.2 hzero]
      exact .failed m (le_refl j) (by omega) (fun i _ _ => by omega) fun hlt => by omega
    · rw [if_pos ⟨rfl, toNat_pos.mpr hzero⟩]
      dsimp only
      rw [toNat_page, toNat_offset]
      have hva := hcur hzero
      by_cases hpa : walkaddr pt (cur.toNat / pgSize * pgSize) = 0
      · rw [if_pos hpa]
        refine .failed m (le_refl j) (by omega) (fun i _ _ => by omega) fun _ => ?_
        rw [translate_eq_none, ← hva]
        exact (walkaddr_page pt (mul_pgSize_div _).symm).trans hpa
      · rw [if_neg hpa]
        have hlt := walkaddr_page_lt hpa
        have hchunk := toNat_chunk cur m
        have hle := chunk_le cur m
        have hmax : (midway pt ram dst va m j).max = m := rfl
        rw [hmax]
        set n := (chunk cur m).toNat with hn
        have hp : ∀ i, i < n → translate pt (va + (j + i))
            = some (walkaddr pt (cur.toNat / pgSize * pgSize)
              + (cur.toNat - cur.toNat / pgSize * pgSize) + i) := by
          intro i hi
          rw [← Nat.add_assoc, ← hva]
          exact translate_add hpa (by omega)
        have hplaced : ∀ i, j ≤ i → i < j + n → translate pt (va + i) ≠ none := by
          intro i hji hin
          obtain ⟨d, rfl⟩ := Nat.exists_eq_add_of_le hji
          rw [hp d (by omega)]
          exact Option.some_ne_none _
        rcases copyinstrPage_spec h (by omega : j + n ≤ size) hp hle with
          ⟨k, m', hjk, hk, hnull, hbefore, hrun⟩ | ⟨hall, m', hm', hrun⟩
        · rw [hrun, copyinstrFrom_ended (hfuel.next hlt).1]
          exact .found m' hjk (by omega) (fun i hi hik => hplaced i hi (by omega)) hnull hbefore
        · rw [hrun]
          refine (ih (hfuel.next hlt) (fun hne => ?_) (by omega)).extend (Nat.le_add_right j n)
            hplaced hall
          have hnext : m.toNat ≠ n → (pgRoundDown cur + 4096).toNat = cur.toNat + n := next_eq hlt
          rw [hnext (by omega), hva, Nat.add_assoc]

/-! ## `copyinstr` is exact -/

/-- The user sees a string at `va` whose null byte is at `va + k`. -/
structure StringAt (pt : PageTable) (ram : Ram) (va k : ℕ) : Prop where
  mapped : ∀ i, i ≤ k → Accessible pt (va + i)
  null : userByte pt ram (va + k) = some 0
  before : ∀ i, i < k → userByte pt ram (va + i) ≠ some 0

theorem NonZero.translate_isSome (h : NonZero pt) (ha : Accessible pt a) :
    ∃ b, translate pt a = some b :=
  Option.ne_none_iff_exists'.mp (translate_ne_none.mpr (h.walkaddr_ne_zero.mpr ha))

theorem userByte_of_translate (h : translate pt (va + i) ≠ none) :
    userByte pt ram (va + i) = some (userBytes pt ram va i) := by
  obtain ⟨b, hb⟩ := Option.ne_none_iff_exists'.mp h
  unfold userBytes userByte
  rw [hb]
  rfl

theorem StringAt.unique {k k' : ℕ} (h : StringAt pt ram va k) (h' : StringAt pt ram va k') :
    k = k' := by
  rcases lt_trichotomy k k' with hlt | heq | hgt
  · exact absurd h.null (h'.before k hlt)
  · exact heq
  · exact absurd h'.null (h.before k' hgt)

/-- **`copyinstr` is exact.**  It succeeds exactly if the user sees a string of less than `max`
bytes; the buffer then holds it, and no byte behind its null byte has been read.  No byte outside of
the buffer is written. -/
theorem copyinstr_exact (hnz : NonZero pt) (ram : Ram) {dst : ℕ} (srcva max : Word)
    (hdst : Private pt dst max.toNat) :
    ∃ ok st, copyinstr pt ram dst srcva max = .ok (ok, st)
      ∧ (ok = true ↔ ∃ k, k < max.toNat ∧ StringAt pt ram srcva.toNat k)
      ∧ (∀ k, k < max.toNat → StringAt pt ram srcva.toNat k →
        (∀ i, i ≤ k → userByte pt ram (srcva.toNat + i) = some (st.ram (dst + i)))
        ∧ ∀ a ∈ st.reads, ∃ i, i ≤ k ∧ translate pt (srcva.toNat + i) = some a)
      ∧ ∀ a, (∀ i, i < max.toNat → a ≠ dst + i) → st.ram a = ram a := by
  have hstart : (⟨false, ram, dst, max, []⟩ : Str) = midway pt ram dst srcva.toNat max 0 := by
    unfold midway
    rw [memmove_zero]
    rfl
  have hend : StrEnd pt ram dst srcva.toNat max.toNat 0 (copyinstr pt ram dst srcva max) := by
    unfold copyinstr
    rw [hstart]
    exact copyinstrFrom_spec hdst (enough_turns srcva) (fun _ => rfl) rfl
  have hkept : ∀ n, n ≤ max.toNat → ∀ a, (∀ i, i < max.toNat → a ≠ dst + i) →
      memmove ram dst (userBytes pt ram srcva.toNat) n a = ram a := by
    intro n hn a ha
    unfold memmove
    exact if_neg fun hin => ha (a - dst) (by omega) (by omega)
  cases hrun : copyinstr pt ram dst srcva max with
  | error e =>
    rw [hrun] at hend
    cases hend
  | ok r =>
    obtain ⟨ok, st⟩ := r
    rw [hrun] at hend
    cases hend with
    | @found k m hk0 hk hplaced hnull hbefore =>
      have hbyte : ∀ i, i ≤ k → userByte pt ram (srcva.toNat + i)
          = some (userBytes pt ram srcva.toNat i) :=
        fun i hi => userByte_of_translate (hplaced i (Nat.zero_le i) hi)
      have hstr : StringAt pt ram srcva.toNat k := by
        refine ⟨fun i hi => exists_leaf (translate_ne_none.mp (hplaced i (Nat.zero_le i) hi)), ?_,
          fun i hi => ?_⟩
        · rw [hbyte k (le_refl k), hnull]
        · rw [hbyte i hi.le]
          exact fun heq => hbefore i (Nat.zero_le i) hi (Option.some.inj heq)
      refine ⟨true, _, rfl, iff_of_true rfl ⟨k, hk, hstr⟩, fun k' hk' hstr' => ?_,
        hkept (k + 1) (by omega)⟩
      obtain rfl := hstr'.unique hstr
      refine ⟨fun i hi => ?_, fun a ha => ?_⟩
      · rw [hbyte i hi]
        unfold ended memmove
        dsimp only
        rw [if_pos (by omega), Nat.add_sub_cancel_left]
      · obtain ⟨i, hi, rfl⟩ := List.mem_map.mp ha
        have hik : i ≤ k' := Nat.lt_succ_iff.mp (List.mem_range.mp hi)
        obtain ⟨b, hb⟩ := Option.ne_none_iff_exists'.mp (hplaced i (Nat.zero_le i) hik)
        exact ⟨i, hik, by rw [place_eq hb, hb]⟩
    | @failed l m hl0 hl hbefore hstop =>
      have hnone : ∀ k, k < max.toNat → ¬ StringAt pt ram srcva.toNat k := by
        intro k hk hstr
        obtain ⟨b, hb⟩ := hnz.translate_isSome (hstr.mapped k (le_refl k))
        by_cases hkl : k < l
        · apply hbefore k (Nat.zero_le k) hkl
          have hnull := hstr.null
          rw [userByte_of_translate (by rw [hb]; exact Option.some_ne_none b)] at hnull
          exact Option.some.inj hnull
        · obtain ⟨b', hb'⟩ := hnz.translate_isSome (hstr.mapped l (Nat.le_of_not_lt hkl))
          rw [hstop (by omega)] at hb'
          exact absurd hb' (by simp)
      refine ⟨false, _, rfl, iff_of_false (by simp) ?_, fun k hk hstr => absurd hstr (hnone k hk),
        hkept l hl⟩
      rintro ⟨k, hk, hstr⟩
      exact hnone k hk hstr

/-- A string of two bytes at the end of the page of `textTable`. -/
theorem copyinstr_exact_text : ∃ st,
    copyinstr textTable (fun a => if a = 0x87003FFE then 7 else 0) 0x88000000 4094 16
      = .ok (true, st) ∧ st.ram 0x88000000 = 7 := by
  obtain ⟨ok, st, hrun, hok, hbytes, -⟩ := copyinstr_exact textTable_userPages.nonzero
    (fun a => if a = 0x87003FFE then 7 else 0) 4094 16 (textTable_private _)
  have hstr : StringAt textTable (fun a => if a = 0x87003FFE then 7 else 0) 4094 1 := by
    refine ⟨fun i hi => exists_leaf ?_, by decide, fun i hi => ?_⟩
    · interval_cases i <;> decide
    · obtain rfl : i = 0 := by omega
      decide
  obtain rfl : ok = true := hok.mpr ⟨1, by decide, hstr⟩
  refine ⟨st, hrun, ?_⟩
  have hfirst := (hbytes 1 (by decide) hstr).1 0 (by decide)
  exact (Option.some.inj hfirst).symm

end Xv6.UserMem
