/-
# The private copy of `fork` (`uvmcopy` of `kernel/vm.c`)

After `uvmcopy` the two tables show the same bytes with the same permissions on different pages, so
whatever is copied out to one of them later, the other one shows what it showed before
(`uvmcopy_private`).
-/
import Xv6.CopyExact
import Xv6.VmBytes

namespace Xv6

open Sv39 (Word)
open UserMem (UserLeaf userByte)

variable {pt : PageTable} {pte : Pte} {n va : ℕ}

/-! ## Tables that share no page -/

/-- No byte that the user may access through `pt` is one that they may access through `pt'`. -/
def Unshared (pt pt' : PageTable) : Prop :=
  ∀ va va' a, translate pt va = some a → translate pt' va' ≠ some a

theorem Unshared.symm {pt' : PageTable} (h : Unshared pt pt') : Unshared pt' pt :=
  fun va va' a ha ha' => h va' va a ha' ha

/-- `copyout` changes no byte that the user may not access. -/
theorem copyout_unreached {ram : Ram} {dstva len : Word} {s : ℕ → UInt8} {c : UserMem.Copied}
    (hrun : UserMem.copyout pt ram dstva s len = .ok c) {a : ℕ}
    (ha : ∀ va, translate pt va ≠ some a) : c.ram a = ram a := by
  by_contra hne
  obtain ⟨w, hw, hlo, hhi⟩ := UserMem.copyoutFrom_changed ram [] hrun hne
  -- the byte is in the page that was written
  obtain hw | ⟨i, -, hall, hpage⟩ := (UserMem.copyoutFrom_pages ram [] hrun w).mp hw
  · cases hw
  · have hdiv : w.toNat / pgSize * pgSize = w.toNat := by rw [hpage, mul_pgSize_div]
    have hpa : walkaddr pt (w.toNat / pgSize * pgSize) ≠ 0 := by
      rw [hdiv, hpage, walkaddr_page pt (mul_pgSize_div _)]
      exact hall i (le_refl i)
    have hplace := @translate_add w.toNat pt (a - walkaddr pt w.toNat) hpa (by
      rw [hdiv, Nat.sub_self]
      omega)
    rw [hdiv, Nat.sub_self, Nat.add_zero, Nat.add_sub_cancel' hlo] at hplace
    exact ha _ hplace

/-- **What is copied out to one table is not seen through the other.** -/
theorem Unshared.copyout {pt' : PageTable} (h : Unshared pt pt') {ram : Ram} {dstva len : Word}
    {s : ℕ → UInt8} {c : UserMem.Copied} (hrun : UserMem.copyout pt ram dstva s len = .ok c)
    (va : ℕ) : userByte pt' c.ram va = userByte pt' ram va := by
  unfold userByte
  cases hplace : translate pt' va with
  | none => rfl
  | some a =>
    rw [Option.map_some, Option.map_some, copyout_unreached hrun]
    intro va' ha
    exact h va' va a ha hplace

/-! ## The copy -/

/-- `new` is a copy of `old` below `sz`, on pages of its own. -/
structure PrivateCopy (old new : PageTable) (sz : ℕ) (ram ram' : Ram) : Prop where
  /-- The same permissions and the same bytes. -/
  exact : ∀ va, va < pgRoundUp sz → ∃ pte pte', old.lookup va = some pte ∧ new.lookup va = some pte'
    ∧ pte'.perm = pte.perm ∧ ram' (pte'.pa + va % pgSize) = ram' (pte.pa + va % pgSize)
    ∧ ram' (pte.pa + va % pgSize) = ram (pte.pa + va % pgSize)
  disjoint : ∀ va va' pte pte', va < pgRoundUp sz → va' < pgRoundUp sz → old.lookup va = some pte →
    new.lookup va' = some pte' → pte'.pa ≠ pte.pa
  /-- A later `copyout` to one of the tables does not change what the other one shows. -/
  apart : ∀ ram₁ dstva s len c va,
    (UserMem.copyout new ram₁ dstva s len = .ok c → userByte old c.ram va = userByte old ram₁ va)
    ∧ (UserMem.copyout old ram₁ dstva s len = .ok c → userByte new c.ram va = userByte new ram₁ va)

/-- A destination that has just been made: it maps nothing that the user may access. -/
def NoUser (new : PageTable) : Prop := ∀ va pte, ¬ UserLeaf new va pte

section Copy

variable {m m' : PagePool} {B : Multiset ℕ} {old new new' : PageTable} {sz : ℕ} {ram ram' : Ram}

/-- The page of an entry of the copy is one that the allocator handed out, and not in `B`. -/
theorem AddressSpace.user_page (h : AddressSpace m B new n) (hn : va / pgSize < n)
    (hl : new.lookup va = some pte) : m.IsPage pte.pa ∧ pte.pa ∉ B := by
  have hl' : new.lookup (va / pgSize * pgSize) = some pte := by
    rw [← hl]
    apply PageTable.lookup_congr
    rw [mul_pgSize_div]
  constructor
  · obtain ⟨pte', hl'', hpage, -⟩ := h.user.mapped (va / pgSize) (Nat.zero_le _) hn
    rw [hl'] at hl''
    cases hl''
    exact hpage
  · intro hB
    have hnodup := h.holds.nodup
    rw [add_assoc, Multiset.nodup_add] at hnodup
    apply Multiset.disjoint_left.mp hnodup.2.2 hB
    exact Multiset.mem_add.mpr (Or.inr (PageTable.mem_user hn hl'))

/-- The pages of the two tables are different. -/
theorem Busy.pa_ne {va' : ℕ} {pte' : Pte} (hbusy : Busy m B old) (hspace : AddressSpace m' B new' n)
    (hkend : m'.kend = m.kend) (hva : va < maxVa) (hn : va' / pgSize < n)
    (hl : old.lookup va = some pte) (hl' : new'.lookup va' = some pte') : pte'.pa ≠ pte.pa := by
  intro heq
  obtain ⟨hpage, hB⟩ := hspace.user_page hn hl'
  apply hB
  rw [heq] at hpage ⊢
  refine (hbusy va pte hva hl).2 ?_
  unfold PagePool.IsPage at hpage ⊢
  rwa [← hkend]

/-- The user may access the copied pages of the new table, and nothing else through it. -/
theorem Duplicated.user_lt (hdup : Duplicated m B old 0 n new new' ram ram') (hnone : NoUser new)
    (hleaf : UserLeaf new' va pte) : va / pgSize < n := by
  by_contra hge
  obtain ⟨hva, hl, hu⟩ := hleaf
  rw [hdup.same va (lt_vaSpan hva) (by omega)] at hl
  exact hnone va pte ⟨hva, hl, hu⟩

theorem Duplicated.unshared (hdup : Duplicated m B old 0 n new new' ram ram') (hnone : NoUser new)
    (hbusy : Busy m B old) (hspace : AddressSpace m' B new' n) (hkend : m'.kend = m.kend) :
    Unshared old new' := by
  intro va va' a ha ha'
  obtain ⟨pte, hleaf, rfl⟩ := UserMem.exists_leaf_of_translate ha
  obtain ⟨pte', hleaf', heq⟩ := UserMem.exists_leaf_of_translate ha'
  have hn := hdup.user_lt hnone hleaf'
  apply hbusy.pa_ne hspace hkend hleaf.1 hn hleaf.2.1 hleaf'.2.1
  -- pages at different addresses do not overlap
  have hal := (hbusy va pte hleaf.1 hleaf.2.1).1
  have hal' := (hspace.user_page hn hleaf'.2.1).1.1
  unfold pgSize at *
  omega

theorem div_lt_pageCount (h : va < pgRoundUp sz) : va / pgSize < pageCount sz := by
  rw [pgRoundUp_eq] at h
  exact (Nat.div_lt_iff_lt_mul (by decide)).mpr h

theorem Duplicated.privateCopy (hdup : Duplicated m B old 0 (pageCount sz) new new' ram ram')
    (hold : MapsBelow old sz) (hbusy : Busy m B old) (hnone : NoUser new)
    (hspace : AddressSpace m' B new' (pageCount sz)) (hkend : m'.kend = m.kend)
    (hkeeps : Keeps m B ram ram') : PrivateCopy old new' sz ram ram' := by
  have hmax : ∀ va, va < pgRoundUp sz → va < maxVa := by
    intro va hva
    rw [pgRoundUp_eq] at hva
    exact lt_of_lt_of_le hva (hold.1.trans trapframeVa_le)
  have hunshared := hdup.unshared hnone hbusy hspace hkend
  constructor
  · intro va hva
    obtain ⟨pte, mem, hl, hl', hbyte⟩ := hdup.copy va (lt_vaSpan (hmax va hva)) (Nat.zero_le _)
      (by rw [Nat.zero_add]; exact div_lt_pageCount hva)
    obtain ⟨hal, hB⟩ := hbusy va pte (hmax va hva) hl
    have hsrc := hkeeps pte.pa hal hB (va % pgSize) (Nat.mod_lt va (by decide))
    exact ⟨pte, ⟨mem, pte.perm⟩, hl, hl', rfl, hbyte.trans hsrc.symm, hsrc⟩
  · intro va va' pte pte' hva hva' hl hl'
    exact hbusy.pa_ne hspace hkend (hmax va hva) (div_lt_pageCount hva') hl hl'
  · intro ram₁ dstva s len c va
    exact ⟨fun hrun => hunshared.symm.copyout hrun va, fun hrun => hunshared.copyout hrun va⟩

/-- `proc_pagetable` maps nothing that the user may access. -/
theorem procPagetable_noUser {trampoline trapframe : ℕ}
    (hrun : procPagetable trampoline trapframe m = .ok (some pt, m')) : NoUser pt := by
  rcases procPagetable_spec m trampoline trapframe with
    ⟨m₁, hrun', -⟩ | ⟨pt₁, m₁, hrun', -, -, hlook⟩
  · rw [hrun] at hrun'
    cases hrun'
  · rw [hrun] at hrun'
    cases hrun'
    rintro va pte ⟨hva, hl, hu⟩
    rw [hlook va (lt_vaSpan hva)] at hl
    split_ifs at hl
    · cases hl
      cases hu
    · cases hl
      cases hu

/-- **`uvmcopy` makes an exact private copy**, or leaves the destination empty and has freed every
page it took for data. -/
theorem uvmcopy_private (hold : MapsBelow old sz) (hbusy : Busy m B old)
    (h : AddressSpace m B new 0) (hnone : NoUser new) (ram : Ram) :
    ∃ ok new' m' ram', uvmcopyBytes old new m ram sz = .ok (ok, new', m', ram')
      ∧ (ok = true → PrivateCopy old new' sz ram ram')
      ∧ (ok = false → (∀ va, va < trapframeVa → new'.lookup va = none)
        ∧ m'.outstanding.val = B + new'.tables) := by
  obtain ⟨ok, new', m', ram', hrun, hkend, hspace, hkeeps, hdup⟩ := uvmcopyBytes_spec hold ram h
  refine ⟨ok, new', m', ram', hrun, ?_, ?_⟩
  · rintro rfl
    exact (hdup hbusy rfl).privateCopy hold hbusy hnone hspace hkend hkeeps
  · rintro rfl
    have hempty : AddressSpace m' B new' 0 := hspace
    refine ⟨fun va hva => ?_, ?_⟩
    · have hlt : va < vaSpan := lt_of_lt_of_le hva (by decide)
      refine hempty.user.only va hlt (Nat.zero_le _) ?_ ?_ <;>
        unfold trapframeVa trampolineVa maxVa pgSize at * <;> omega
    · have hholds : m'.outstanding.val = B + new'.tables + new'.user 0 := hempty.holds
      rwa [PageTable.user_zero, add_zero] at hholds

/-- The memory of a process with the table `textTable`, and six free pages. -/
def textPool : PagePool :=
  ⟨0x80100000, {0x87003000},
    [0x87010000, 0x87011000, 0x87012000, 0x87013000, 0x87014000, 0x87015000]⟩

/-- The page of `textTable`, copied into a table that `proc_pagetable` has made. -/
theorem uvmcopy_private_text : ∃ new m new' m' ram',
    procPagetable 0x80007000 0x86000000 textPool = .ok (some new, m)
      ∧ uvmcopyBytes UserMem.textTable new m (fun _ => 7) 4096 = .ok (true, new', m', ram')
      ∧ PrivateCopy UserMem.textTable new' 4096 (fun _ => 7) ram' := by
  have hcheck : ((procPagetable 0x80007000 0x86000000 textPool).toOption.bind fun r =>
      r.1.bind fun new => (uvmcopyBytes UserMem.textTable new r.2 (fun _ => 7) 4096).toOption.map
        Prod.fst) = some true := by decide
  have hold : MapsBelow UserMem.textTable 4096 := by
    refine ⟨by decide, fun i hi => ?_⟩
    obtain rfl : i = 0 := Nat.lt_one_iff.mp hi
    exact ⟨⟨0x87003000, permUser false true⟩, rfl⟩
  have hholds : Holds textPool {0x87003000} := rfl
  rcases procPagetable_space hholds 0x80007000 0x86000000 with
    ⟨m, hrun, -, -⟩ | ⟨new, m, hrun, hkend, hspace⟩
  · rw [hrun] at hcheck
    cases hcheck
  · have hbusy : Busy m {0x87003000} UserMem.textTable := by
      intro va pte hva hl
      obtain ⟨-, rfl⟩ := UserMem.textTable_lookup hva hl
      exact ⟨by decide, fun _ => Multiset.mem_singleton_self _⟩
    obtain ⟨ok, new', m', ram', hcopy, hexact, -⟩ :=
      uvmcopy_private hold hbusy hspace (procPagetable_noUser hrun) fun _ => 7
    rw [hrun] at hcheck
    simp only [Except.toOption, Option.bind_some, hcopy, Option.map_some] at hcheck
    obtain rfl : ok = true := Option.some.inj hcheck
    exact ⟨new, m, new', m', ram', hrun, hcopy, hexact rfl⟩

end Copy

end Xv6
