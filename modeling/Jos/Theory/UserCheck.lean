import Mathlib.Order.Bounds.Basic
import Jos.Theory.PageOps

/-!
# Checking the Ranges of User Memory

`user_mem_check` looks at one address on every page of a range and asks for the
same flags on each. The sum of the start and the length is a 64-bit sum, and the
address it reports on a failure is the start of the range or of a page.

An address is mapped with some flags when the walk finds a page table for it
and the entry there has them. That is the same for all addresses of a page, so
the loop can be read as a statement about every address: it is successful when
all pages it visits are mapped, and what it reports otherwise is the first
visited page that is not.

## Main definitions

* `Vm.Mapped`, `Vm.Accessible`: What the check is for.
* `Vm.Wraps`: The ranges that pass although they leave the user's memory.
* `Vm.Reports`: When the first address that is not accessible is reported.

## Theorems

* `mapped_iff_translate`: What the hardware makes of a mapped address.
* `userMemCheck_eq_report`: The result of the check is that of its report.
* `userMemReportFrom_pass`, `userMemReportFrom_ok`: The loop over mapped pages.
* `userMemCheck_sound_iff`: When a range that passes is accessible.
* `userMemReport_lowest_iff`: When the lowest bad address is reported.
-/

namespace Jos
namespace Vm

/-- The walk finds a page table for `a` and the entry in it has the flags `perm`
    and `PTE_P`. -/
def Mapped (m : Vm) (root : Nat) (perm : BitVec 32) (a : Nat) : Prop :=
  ∃ pt, m.pml4eWalk root a false = some (some pt, m) ∧
    hasFlags (m.mem pt (ptx a)) ((perm ||| 1).signExtend 64) = true

/-- The two tests that `user_mem_check` is to make of an address. -/
def Accessible (m : Vm) (root : Nat) (perm : BitVec 32) (a : Nat) : Prop :=
  a < ulim ∧ m.Mapped root perm a

variable (m : Vm)

/-- The walk and the slot it ends at depend on the page of an address only. -/
theorem walk_page {a b : Nat} (root : Nat) (h : a / pgSize = b / pgSize) :
    m.pml4eWalk root a false = m.pml4eWalk root b false ∧ ptx a = ptx b := by
  simp only [pgSize] at h
  have hidx : pml4 a = pml4 b ∧ pdpe a = pdpe b ∧ pdx a = pdx b ∧ ptx a = ptx b := by
    simp only [pml4, pdpe, pdx, ptx]
    omega
  refine ⟨?_, hidx.2.2.2⟩
  simp only [pml4eWalk, pdpeWalk, pgdirWalk, hidx]

theorem mapped_page (root : Nat) (perm : BitVec 32) (a b : Nat)
    (h : a / pgSize = b / pgSize) : m.Mapped root perm a ↔ m.Mapped root perm b := by
  rcases m.walk_page root h with ⟨hwalk, hslot⟩
  unfold Mapped
  rw [hwalk, hslot]

/-! ## Mapped addresses and the hardware -/

/-- An address is mapped exactly if the hardware has a translation for it that has the
    flags, where no table on the way takes a right away. -/
theorem mapped_iff_translate {root a : Nat} (perm : BitVec 32)
    (hwalk : m.pml4eWalk root a false ≠ none)
    (hup : ∀ k π t, k :: π <:+ ptPath a → Lib.Radix.node ppn m.mem root π = some t →
      m.mem t k ≠ 0 → hasFlags (m.mem t k) 7 = true) :
    m.Mapped root perm a ↔
      ∃ e, m.translate root a = some (e, hasFlags e pteW, hasFlags e pteU) ∧
        hasFlags e ((perm ||| 1).signExtend 64) = true := by
  constructor
  · rintro ⟨pt, hrun, hflags⟩
    rcases Lib.Radix.node_cons_eq_some.1 (m.pml4eWalk_keep hrun).2.symm with ⟨t2, h2, hz3, rfl⟩
    rcases Lib.Radix.node_cons_eq_some.1 h2 with ⟨t1, h1, hz2, rfl⟩
    rcases Lib.Radix.node_cons_eq_some.1 h1 with ⟨t0, h0, hz1, rfl⟩
    have hf3 := hup _ _ _ List.suffix_rfl h2 hz3
    have hf2 := hup _ _ _ (List.suffix_cons _ _) h1 hz2
    have hf1 := hup _ _ _ ⟨[pdx a, pdpe a], rfl⟩ h0 hz1
    cases h0
    have hall : ∀ {e : Pte}, hasFlags e 7 = true →
        hasFlags e pteP = true ∧ hasFlags e pteW = true ∧ hasFlags e pteU = true := fun h =>
      ⟨hasFlags_of_and h (by decide), hasFlags_of_and h (by decide), hasFlags_of_and h (by decide)⟩
    refine ⟨_, ?_, hflags⟩
    simp only [translate, hall hf1, hall hf2, hall hf3, hasFlags_of_and hflags (flags_present perm),
      if_true, Option.bind_some, Option.map_some, Bool.true_and]
  · rintro ⟨e, htr, hflags⟩
    rcases m.translate_node htr with ⟨pt, hnode, rfl, -⟩
    rcases Option.ne_none_iff_exists'.1 hwalk with ⟨⟨r, m'⟩, hrun⟩
    rcases m.pml4eWalk_keep hrun with ⟨rfl, rfl⟩
    rw [hnode] at hrun
    exact ⟨pt, hrun, hflags⟩

/-! ## The loop -/

theorem userMemCheckFrom_eq_report (cur root va : Nat) (perm : BitVec 32) (n : Nat) :
    ∀ addr, m.userMemCheckFrom cur root perm n addr =
      (m.userMemReportFrom root va perm n addr).bind (MemCheck.result m cur) := by
  induction n with
  | zero => intro addr; rfl
  | succ n ih =>
    intro addr
    rw [userMemCheckFrom, userMemReportFrom, Option.bind_assoc]
    refine congrArg _ (funext fun r => ?_)
    rcases r with ⟨o, m'⟩
    cases o with
    | none => rfl
    | some pt =>
      dsimp only
      by_cases hf : hasFlags (m.mem pt (ptx addr)) ((perm ||| 1).signExtend 64) = true
      · rw [if_pos hf, if_pos hf]
        exact ih _
      · rw [if_neg hf, if_neg hf]
        rfl

/-- The check with its result alone is the check with its report. -/
theorem userMemCheck_eq_report (cur root va len : Nat) (perm : BitVec 32) :
    m.userMemCheck cur root va len perm =
      (m.userMemReport root va len perm).bind (MemCheck.result m cur) := by
  unfold userMemCheck userMemReport
  dsimp only
  by_cases h : ulim ≤ (va + len) % 2 ^ 64
  · rw [if_pos h, if_pos h]
    rfl
  · rw [if_neg h, if_neg h]
    exact m.userMemCheckFrom_eq_report cur root va perm _ va

theorem result_eq_true (cur : Nat) (r : MemCheck) :
    r.result m cur = some true ↔ r = .ok := by
  rcases r with _ | ⟨addr, _ | _⟩ <;> simp [MemCheck.result]

theorem userMemCheck_eq_true (cur root va len : Nat) (perm : BitVec 32) :
    m.userMemCheck cur root va len perm = some true ↔
      m.userMemReport root va len perm = some .ok := by
  rw [userMemCheck_eq_report, Option.bind_eq_some_iff]
  simp only [result_eq_true, exists_eq_right]

variable {perm : BitVec 32}

/-- One round over a mapped page goes on with the next page. -/
theorem userMemReportFrom_mapped {root : Nat} (va : Nat) {addr : Nat} (n : Nat)
    (h : m.Mapped root perm addr) :
    m.userMemReportFrom root va perm (n + 1) addr =
      m.userMemReportFrom root va perm n (addr + pgSize) := by
  rcases h with ⟨pt, hwalk, hflags⟩
  rw [userMemReportFrom, hwalk, Option.bind_some]
  dsimp only
  rw [if_pos hflags]

/-- One round over a page that is not mapped ends the loop, with a read through a
    null pointer if there is no page table. -/
theorem userMemReportFrom_unmapped {root : Nat} (va : Nat) {addr : Nat} (n : Nat)
    (h : ¬ m.Mapped root perm addr) :
    m.userMemReportFrom root va perm (n + 1) addr =
      (m.pml4eWalk root addr false).map fun r =>
        .fault (if addr = va then va else addr / pgSize * pgSize) r.1.isNone := by
  rw [userMemReportFrom]
  cases hwalk : m.pml4eWalk root addr false with
  | none => rfl
  | some r =>
    rcases r with ⟨o, m'⟩
    rcases m.pml4eWalk_keep hwalk with ⟨rfl, -⟩
    cases o with
    | none => rfl
    | some pt =>
      have hf : ¬ hasFlags (m'.mem pt (ptx addr)) ((perm ||| 1).signExtend 64) = true :=
        fun hf => h ⟨pt, hwalk, hf⟩
      rw [Option.bind_some]
      dsimp only
      rw [if_neg hf]
      rfl

/-- The loop passes over the mapped pages at the front. -/
theorem userMemReportFrom_pass {root : Nat} (va : Nat) {j : Nat} (n : Nat) :
    ∀ addr, (∀ k < j, m.Mapped root perm (addr + k * pgSize)) →
      m.userMemReportFrom root va perm (j + n) addr =
        m.userMemReportFrom root va perm n (addr + j * pgSize) := by
  induction j with
  | zero => intro addr _; rw [Nat.zero_add, Nat.zero_mul, Nat.add_zero]
  | succ j ih =>
    intro addr h
    have h0 : m.Mapped root perm addr := by
      have h0 := h 0 (Nat.succ_pos j)
      rwa [Nat.zero_mul, Nat.add_zero] at h0
    rw [Nat.add_right_comm, m.userMemReportFrom_mapped va _ h0, ih]
    · rw [Nat.add_assoc, Nat.succ_mul, Nat.add_comm pgSize]
    · intro k hk
      have hk' := h (k + 1) (Nat.succ_lt_succ hk)
      rwa [Nat.succ_mul, Nat.add_comm (k * pgSize), ← Nat.add_assoc] at hk'

/-- The loop gets to its end exactly if every page it would visit is mapped. -/
theorem userMemReportFrom_ok (root va : Nat) (perm : BitVec 32) (n addr : Nat) :
    m.userMemReportFrom root va perm n addr = some .ok ↔
      ∀ k < n, m.Mapped root perm (addr + k * pgSize) := by
  constructor
  · intro hok k
    -- Up to the first page that is not mapped the loop passes, and there it stops.
    induction k using Nat.strong_induction_on with
    | _ k ih =>
      intro hk
      by_contra hbad
      have hsplit : n = k + ((n - k - 1) + 1) := by omega
      rw [hsplit, m.userMemReportFrom_pass va _ addr
        fun i hi => ih i hi (by omega)] at hok
      rw [m.userMemReportFrom_unmapped va _ hbad] at hok
      rcases Option.map_eq_some_iff.1 hok with ⟨r, -, hr⟩
      cases hr
  · intro h
    have hpass := m.userMemReportFrom_pass va 0 addr h
    rwa [Nat.add_zero] at hpass

/-! ## The pages of a range -/

/-- The number of rounds of the loop, for a range from `va` to `sum`. -/
def rounds (va sum : Nat) : Nat :=
  ((sum + (pgSize - 1)) / pgSize * pgSize - va + (pgSize - 1)) / pgSize

/-- Every address of the range has a round for its page. -/
theorem round_of_mem (va sum a : Nat) (hva : va ≤ a) (ha : a < sum) :
    a / pgSize - va / pgSize < rounds va sum ∧
      (va + (a / pgSize - va / pgSize) * pgSize) / pgSize = a / pgSize := by
  simp only [rounds, pgSize]
  omega

theorem userMemReport_below (root va len : Nat) (perm : BitVec 32)
    (h : (va + len) % 2 ^ 64 < ulim) :
    m.userMemReport root va len perm =
      m.userMemReportFrom root va perm (rounds va ((va + len) % 2 ^ 64)) va := by
  unfold userMemReport
  dsimp only
  rw [if_neg (Nat.not_le.2 h)]
  rfl

theorem userMemReport_above (root va len : Nat) (perm : BitVec 32)
    (h : ulim ≤ (va + len) % 2 ^ 64) :
    m.userMemReport root va len perm = some (.fault va false) := by
  unfold userMemReport
  dsimp only
  rw [if_pos h]

/-! ## Ranges that pass -/

/-- The end of the range, as a 64-bit sum, is a small number again, and there is
    no page to look at, or only the first page, which is mapped. -/
def Wraps (m : Vm) (root : Nat) (perm : BitVec 32) (va len : BitVec 64) : Prop :=
  2 ^ 64 ≤ va.toNat + len.toNat ∧ (va + len).toNat < ulim ∧
    ((va + len).toNat ≤ va.toNat / pgSize * pgSize ∨ m.Mapped root perm va.toNat)

/-- A wrapped sum is below the start, so that at most one page is visited. -/
theorem rounds_wrapped (va sum : Nat) (h : sum < va) :
    (sum ≤ va / pgSize * pgSize → rounds va sum = 0) ∧ rounds va sum ≤ 1 := by
  simp only [rounds, pgSize]
  omega

/-- A range that passes is accessible, unless its end wraps around. -/
theorem userMemCheck_sound_iff (cur root : Nat) (va len : BitVec 64) (perm : BitVec 32) :
    (m.userMemCheck cur root va.toNat len.toNat perm = some true →
      ∀ a, va.toNat ≤ a → a < va.toNat + len.toNat → m.Accessible root perm a) ↔
    ¬ m.Wraps root perm va len := by
  have hva := va.isLt
  have hlen := len.isLt
  rw [userMemCheck_eq_true]
  unfold Wraps
  rw [BitVec.toNat_add]
  constructor
  · rintro hsound ⟨hend, hsum, hpages⟩
    -- The last address there is belongs to the range and is no user address.
    have hlast := hsound ?_ (2 ^ 64 - 1) (by omega) (by omega)
    · have hlt := hlast.1
      simp only [ulim] at hlt
      omega
    · rw [m.userMemReport_below root _ _ perm hsum, userMemReportFrom_ok]
      intro k hk
      rcases rounds_wrapped va.toNat ((va.toNat + len.toNat) % 2 ^ 64) (by omega) with ⟨h0, h1⟩
      rcases hpages with hnone | hfirst
      · rw [h0 hnone] at hk
        omega
      · have hk0 : k = 0 := by omega
        rwa [hk0, Nat.zero_mul, Nat.add_zero]
  · intro hwraps hok a hle hlt
    have hsum : (va.toNat + len.toNat) % 2 ^ 64 < ulim := by
      by_contra hge
      rw [m.userMemReport_above root _ _ perm (Nat.not_lt.1 hge)] at hok
      cases hok
    rw [m.userMemReport_below root _ _ perm hsum, userMemReportFrom_ok] at hok
    by_cases hend : 2 ^ 64 ≤ va.toNat + len.toNat
    · -- The visited page of a wrapped range is its first one.
      refine absurd ⟨hend, hsum, ?_⟩ hwraps
      by_cases hnone : (va.toNat + len.toNat) % 2 ^ 64 ≤ va.toNat / pgSize * pgSize
      · exact .inl hnone
      · refine .inr ?_
        have h0 := hok 0 (by simp only [rounds, pgSize] at hnone ⊢; omega)
        rwa [Nat.zero_mul, Nat.add_zero] at h0
    · rw [Nat.mod_eq_of_lt (Nat.not_le.1 hend)] at hsum hok
      rcases round_of_mem _ _ a hle hlt with ⟨hk, hpage⟩
      exact ⟨hlt.trans hsum, (m.mapped_page root perm _ _ hpage).1 (hok _ hk)⟩

/-- A memory of zeros, in which page 1 is a root without any tables. -/
def blank : Vm := ⟨8, fun _ => 0, [], fun _ _ => 0⟩

/-- The range from `KERNBASE` to the end of the address space passes, with no
    table at all. -/
theorem userMemCheck_unsound :
    ¬ (blank.userMemCheck 1 1 (0xf0000000 : BitVec 64).toNat
        (0xffffffff10000000 : BitVec 64).toNat 4 = some true →
      ∀ a, (0xf0000000 : BitVec 64).toNat ≤ a →
        a < (0xf0000000 : BitVec 64).toNat + (0xffffffff10000000 : BitVec 64).toNat →
        blank.Accessible 1 4 a) := by
  intro h
  have hlt := (h (by decide) 0xf0000000 (by decide) (by decide)).1
  exact absurd hlt (by decide)

/-! ## Ranges that fail -/

/-- The addresses of a range that the environment may not use. -/
def Denied (m : Vm) (root : Nat) (perm : BitVec 32) (va len : BitVec 64) : Set Nat :=
  { a | va.toNat ≤ a ∧ a < va.toNat + len.toNat ∧ ¬ m.Accessible root perm a }

/-- The end of the range is no multiple of `2 ^ 64`; a range that reaches `ULIM`
    is bad at its start already, and one that does not has a page table for the
    first bad address `l`. -/
def Reports (m : Vm) (root : Nat) (va len : BitVec 64) (l : Nat) : Prop :=
  va.toNat + len.toNat < 2 ^ 64 ∧ (ulim ≤ va.toNat + len.toNat → l = va.toNat) ∧
    (va.toNat + len.toNat < ulim → ∃ pt, m.pml4eWalk root l false = some (some pt, m))

/-- Below `ULIM` the pages before the first bad address are mapped, and the bad
    address is the one that the round for its page would report. -/
theorem lowest_round {root : Nat} {va len : BitVec 64} {l : Nat}
    (hsum : va.toNat + len.toNat < ulim) (hl : IsLeast (m.Denied root perm va len) l) :
    (∀ k < l / pgSize - va.toNat / pgSize, m.Mapped root perm (va.toNat + k * pgSize)) ∧
      (if va.toNat + (l / pgSize - va.toNat / pgSize) * pgSize = va.toNat then va.toNat
        else (va.toNat + (l / pgSize - va.toNat / pgSize) * pgSize) / pgSize * pgSize) = l := by
  rcases hl with ⟨⟨hva, hend, hbad⟩, hleast⟩
  have hmapped : ∀ a, va.toNat ≤ a → a < l → m.Mapped root perm a := by
    intro a ha hal
    by_contra hno
    have := hleast ⟨ha, hal.trans hend, fun hacc => hno hacc.2⟩
    omega
  have hunmapped : ∀ a, a / pgSize = l / pgSize → va.toNat ≤ a → a ≤ l → a = l := by
    intro a hpage ha hal
    by_contra hne
    have hm := hmapped a ha (by omega)
    exact hbad ⟨hend.trans hsum, (m.mapped_page root perm a l hpage).1 hm⟩
  constructor
  · intro k hk
    -- The page of an earlier round has an address of the range on it.
    by_cases h0 : k = 0
    · rw [h0, Nat.zero_mul, Nat.add_zero]
      refine hmapped _ le_rfl ?_
      simp only [pgSize] at hk
      omega
    · have hpage : ((va.toNat + k * pgSize) / pgSize * pgSize) / pgSize =
          (va.toNat + k * pgSize) / pgSize := by
        simp only [pgSize]
        omega
      refine (m.mapped_page root perm _ _ hpage).1 (hmapped _ ?_ ?_) <;>
      · simp only [pgSize] at hk ⊢
        omega
  · by_cases h0 : l / pgSize - va.toNat / pgSize = 0
    · rw [h0, Nat.zero_mul, Nat.add_zero, if_pos rfl]
      refine hunmapped _ ?_ le_rfl hva
      simp only [pgSize] at h0 ⊢
      omega
    · rw [if_neg (by simp only [pgSize] at h0 ⊢; omega)]
      refine hunmapped _ ?_ ?_ ?_ <;>
      · simp only [pgSize] at h0 ⊢
        omega

/-- The check fails with the lowest address of the range that is not accessible,
    and without a read through a null pointer, exactly under `Reports`. -/
theorem userMemReport_lowest_iff (root : Nat) (va len : BitVec 64) (perm : BitVec 32) (l : Nat)
    (hend : va.toNat + len.toNat ≤ 2 ^ 64) (hl : IsLeast (m.Denied root perm va len) l) :
    m.userMemReport root va.toNat len.toNat perm = some (.fault l false) ↔
      m.Reports root va len l := by
  unfold Reports
  by_cases htop : va.toNat + len.toNat = 2 ^ 64
  · -- The sum is 0 and there is no round.
    have hmod : (va.toNat + len.toNat) % 2 ^ 64 = 0 := by rw [htop, Nat.mod_self]
    have hnone : rounds va.toNat 0 = 0 := by
      simp only [rounds, pgSize]
      omega
    rw [m.userMemReport_below root _ _ perm (by rw [hmod]; decide), hmod, hnone, userMemReportFrom]
    simp [htop]
  have hlt : va.toNat + len.toNat < 2 ^ 64 := by omega
  have hmod := Nat.mod_eq_of_lt hlt
  by_cases hsum : ulim ≤ va.toNat + len.toNat
  · rw [m.userMemReport_above root _ _ perm (by rwa [hmod])]
    simp only [Option.some.injEq, MemCheck.fault.injEq, and_true, hlt, hsum, true_and,
      forall_const, Nat.not_lt.2 hsum, false_imp_iff]
    exact eq_comm
  · have hbelow := Nat.not_le.1 hsum
    rcases m.lowest_round hbelow hl with ⟨hpass, haddr⟩
    rcases round_of_mem _ _ l hl.1.1 hl.1.2.1 with ⟨hk, hpage⟩
    have hbad : ¬ m.Mapped root perm
        (va.toNat + (l / pgSize - va.toNat / pgSize) * pgSize) := fun hm =>
      hl.1.2.2 ⟨hl.1.2.1.trans hbelow, (m.mapped_page root perm _ _ hpage).1 hm⟩
    obtain ⟨n, hn⟩ := Nat.exists_eq_add_of_lt hk
    rw [m.userMemReport_below root _ _ perm (by rwa [hmod]), hmod, hn, Nat.add_assoc,
      m.userMemReportFrom_pass _ (n + 1) _ hpass,
      m.userMemReportFrom_unmapped _ n hbad, haddr, (m.walk_page root hpage).1]
    simp only [hlt, hsum, hbelow, true_and, false_imp_iff, forall_const]
    cases hwalk : m.pml4eWalk root l false with
    | none => simp
    | some r =>
      rcases r with ⟨o, m'⟩
      rcases m.pml4eWalk_keep hwalk with ⟨rfl, -⟩
      cases o <;> simp

/-- The tables for the first addresses of a program, with an empty page table. -/
def tabled : Vm :=
  { blank with
    mem := fun p i =>
      if (p, i) = (1, 0) then page2pa 2 ||| 7
      else if (p, i) = (2, 0) then page2pa 3 ||| 7
      else if (p, i) = (3, 4) then page2pa 4 ||| 7 else 0 }

theorem userMemReport_lowest_utext :
    tabled.userMemReport 1 (0x800000 : BitVec 64).toNat (1 : BitVec 64).toNat 4 =
      some (.fault 0x800000 false) := by
  refine (userMemReport_lowest_iff tabled 1 0x800000 1 4 0x800000 (by decide) ?_).2
    ⟨by decide, by decide, fun _ => ⟨4, by rfl⟩⟩
  refine ⟨⟨by decide, by decide, ?_⟩, fun a ha => ha.1⟩
  rintro ⟨-, pt, hwalk, hflags⟩
  have hpt : tabled.pml4eWalk 1 0x800000 false = some (some 4, tabled) := by rfl
  rw [hpt] at hwalk
  simp only [Option.some.injEq, Prod.mk.injEq, and_true] at hwalk
  rw [← hwalk] at hflags
  cases hflags

/-- Without tables the first byte of a range is not accessible, and the check
    reads through a null pointer before it fails. -/
theorem userMemReport_null :
    (∃ a, a ∈ blank.Denied 1 4 0x800000 1) ∧
      ¬ ∃ l, IsLeast (blank.Denied 1 4 0x800000 1) l ∧
        blank.userMemReport 1 (0x800000 : BitVec 64).toNat (1 : BitVec 64).toNat 4 =
          some (.fault l false) := by
  have hreport : blank.userMemReport 1 (0x800000 : BitVec 64).toNat (1 : BitVec 64).toNat 4 =
      some (.fault 0x800000 true) := by decide
  refine ⟨⟨0x800000, by decide, by decide, ?_⟩, ?_⟩
  · rintro ⟨-, pt, hwalk, -⟩
    have hnone : blank.pml4eWalk 1 0x800000 false = some (none, blank) := by rfl
    rw [hnone] at hwalk
    cases hwalk
  · rintro ⟨l, -, hl⟩
    rw [hreport] at hl
    cases hl

end Vm
end Jos
