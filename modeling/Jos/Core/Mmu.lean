import Mathlib.Algebra.Ring.Nat
import Mathlib.Data.BitVec
import Jos.Lib.Radix

/-!
# Paging Hardware and Memory Layout

The constants and macros of `inc/mmu.h` and `inc/memlayout.h` the kernel's
memory management uses: how a linear address splits into four table indices and
an offset, the bits of a page-table entry, and the landmarks of the address
space. Addresses and page numbers are natural numbers; entries are the 64-bit
words the hardware reads.

## Main definitions

* `Pte`, `ppn`, `pteAddr`, `page2pa`: Entries and the pages they name.
* `pml4`, `pdpe`, `pdx`, `ptx`: The table indices of a linear address.
* `leafPath`: The path to a leaf entry, deepest index first.

## Theorems

* `ppn_mk`, `mk_ne_zero`: The page and the presence of a constructed entry.
* `pteAddr_eq_iff`: Comparing addresses is comparing page numbers.
-/

namespace Jos

/-- A page-table entry (`pte_t`, `pde_t`, `pdpe_t`, `pml4e_t`). -/
abbrev Pte := BitVec 64

/-! ## Memory layout -/

def pgSize : Nat := 4096

/-- `ULIM`, the end of what user programs may touch at all. -/
def ulim : Nat := 0xefc00000

/-- `UTOP`, the end of what user programs may map themselves. -/
def utop : Nat := 0xef800000

/-- `UXSTACKTOP`, the top of the one-page user exception stack. -/
def uxstacktop : Nat := utop

/-- `USTACKTOP`, the top of the normal user stack, one guard page below. -/
def ustacktop : Nat := utop - 2 * pgSize

/-- `UTEXT`, where user programs generally begin. -/
def utext : Nat := 0x800000

/-- `UVPT`, the self-map of the page tables. -/
def uvpt : Nat := 0x10000000000

/-- `vpt` of `lib/entry.S`, the page-table entries as one array. -/
def vpt : Nat := uvpt

/-- `vpd`, the page-directory entries. -/
def vpd : Nat := vpt + 0x80000000

/-- `vpde`, the entries of the page directory pointers. -/
def vpde : Nat := vpd + 0x400000

/-- `vpml4e`, the entries of the root. -/
def vpml4e : Nat := vpde + 0x2000

/-- `KERNBASE`, where all of physical memory is mapped. -/
def kernbase : Nat := 0xf0000000

/-! ## Entries -/

def pteP : Pte := 0x001
def pteW : Pte := 0x002
def pteU : Pte := 0x004
def pteA : Pte := 0x020
def pteD : Pte := 0x040

/-- `PTE_SYSCALL`, the only flags user code may ask for. -/
def pteSyscall : Pte := 0xE07

/-- `PPN` of the address an entry holds. -/
def ppn (e : Pte) : Nat := (e >>> 12).toNat

/-- `PTE_ADDR`, the entry without its flag bits. -/
def pteAddr (e : Pte) : Pte := e &&& ~~~0xFFF

/-- `page2pa`, the physical address of a page. -/
def page2pa (p : Nat) : Pte := BitVec.ofNat 64 p <<< 12

/-- All of the flags `f` are set in `e`. -/
def hasFlags (e f : Pte) : Bool := e &&& f == f

/-! ## Linear addresses -/

def pml4 (la : Nat) : Nat := la / 2 ^ 39 % 512
def pdpe (la : Nat) : Nat := la / 2 ^ 30 % 512
def pdx (la : Nat) : Nat := la / 2 ^ 21 % 512
def ptx (la : Nat) : Nat := la / 2 ^ 12 % 512

/-- `VPN`, `VPD`, `VPDPE` and `VPML4E`, the indices into the arrays `vpt`, `vpd`, `vpde` and
    `vpml4e`. -/
def vpnOf (la : Nat) : Nat := la / 2 ^ 12
def vpdOf (la : Nat) : Nat := la / 2 ^ 21
def vpdpeOf (la : Nat) : Nat := la / 2 ^ 30
def vpml4eOf (la : Nat) : Nat := la / 2 ^ 39

/-- `PGADDR`, the address with the given indices. The fields are disjoint, so
    the source's bitwise ors are sums. -/
def pgaddr (m p d t o : Nat) : Nat := m * 2 ^ 39 + p * 2 ^ 30 + d * 2 ^ 21 + t * 2 ^ 12 + o

/-- The indices of an address, deepest first. -/
def leafPath (va : Nat) : List Nat := [ptx va, pdx va, pdpe va, pml4 va]

/-- The table slots that belong to an environment's own part of the address
    space, everything below `UTOP`: one entry of the root, four of the page
    directory pointers, and of the fourth directory only the part below `UTOP`.
    The other slots hold the entries shared with the kernel. -/
def UserIdx : List Nat → Nat → Prop
  | [], k => k = 0
  | [_], k => k < 4
  | [i, _], k => k < 512 ∧ (i = 3 → k < 380)
  | [_, _, _], k => k < 512
  | _, _ => False

instance (π : List Nat) : DecidablePred (UserIdx π) := fun k => by
  rcases π with _ | ⟨a, _ | ⟨b, _ | ⟨c, _ | ⟨d, π⟩⟩⟩⟩ <;> unfold UserIdx <;> infer_instance

theorem userIdx_lt (π : List Nat) (k : Nat) (h : UserIdx π k) : k < 512 := by
  rcases π with _ | ⟨a, _ | ⟨b, _ | ⟨c, _ | ⟨d, π⟩⟩⟩⟩ <;> simp only [UserIdx] at h <;> omega

variable {va p i : Nat}

theorem leafPath_ok (h : va < utop) : Lib.Radix.OkPath UserIdx (leafPath va) := by
  simp only [utop] at h
  simp only [Lib.Radix.OkPath, leafPath, UserIdx, pml4, pdpe, pdx, ptx, true_and]
  omega

/-- Below `UTOP` the path of an address determines its page. -/
theorem leafPath_inj {va' : Nat} (h : va < utop) (h' : va' < utop)
    (he : leafPath va = leafPath va') : va / pgSize = va' / pgSize := by
  simp only [leafPath, List.cons.injEq, pml4, pdpe, pdx, ptx, and_true] at he
  simp only [utop] at h h'
  simp only [pgSize]
  omega

/-! ## Constructed entries -/

variable (e : Pte)

theorem ppn_lt : ppn e < 2 ^ 52 := by
  unfold ppn
  rw [BitVec.toNat_ushiftRight, Nat.shiftRight_eq_div_pow]
  have := e.isLt
  omega

@[simp] theorem ppn_zero : ppn 0 = 0 := by decide

theorem page2pa_shift (hp : p < 2 ^ 52) : page2pa p >>> 12 = BitVec.ofNat 64 p := by
  apply BitVec.eq_of_toNat_eq
  simp only [page2pa, BitVec.toNat_ushiftRight, BitVec.toNat_shiftLeft, BitVec.toNat_ofNat,
    Nat.shiftLeft_eq, Nat.shiftRight_eq_div_pow]
  omega

theorem ppn_page2pa (hp : p < 2 ^ 52) : ppn (page2pa p) = p := by
  unfold ppn
  rw [page2pa_shift hp, BitVec.toNat_ofNat]
  omega

theorem ppn_or {f : Pte} (hf : f.toNat < 4096) : ppn (e ||| f) = ppn e := by
  have hz : f >>> 12 = 0#64 := by
    apply BitVec.eq_of_toNat_eq
    rw [BitVec.toNat_ushiftRight, Nat.shiftRight_eq_div_pow, BitVec.toNat_ofNat]
    omega
  unfold ppn
  rw [BitVec.ushiftRight_or_distrib, hz, BitVec.or_zero]

/-- An entry made from a page and flags names that page. -/
theorem ppn_mk {f : Pte} (hp : p < 2 ^ 52) (hf : f.toNat < 4096) : ppn (page2pa p ||| f) = p := by
  rw [ppn_or _ hf, ppn_page2pa hp]

/-- Masking the flags is shifting them out and back. -/
theorem pteAddr_eq_shift : pteAddr e = e >>> 12 <<< 12 := by
  have hmask : ∀ i : Fin 64, (~~~(0xFFF : Pte)).getLsbD i = decide (12 ≤ i.val) := by decide
  unfold pteAddr
  ext i hi
  rw [BitVec.getElem_and, BitVec.getElem_shiftLeft, ← BitVec.getLsbD_eq_getElem hi,
    ← BitVec.getLsbD_eq_getElem hi]
  have hm := hmask ⟨i, hi⟩
  simp only at hm
  rw [hm]
  by_cases h : i < 12
  · simp [h, Nat.not_le.2 h]
  · simp [h, Nat.not_lt.1 h]

theorem pteAddr_eq_page2pa : pteAddr e = page2pa (ppn e) := by
  rw [pteAddr_eq_shift]
  unfold page2pa ppn
  rw [BitVec.ofNat_toNat, BitVec.setWidth_eq]

/-- Two entries hold the same address exactly when they name the same page. -/
theorem pteAddr_eq_iff (hp : p < 2 ^ 52) : pteAddr e = page2pa p ↔ ppn e = p := by
  rw [pteAddr_eq_page2pa]
  constructor
  · intro h
    rw [← ppn_page2pa (ppn_lt e), h, ppn_page2pa hp]
  · intro h
    rw [h]

/-- Flags with `PTE_P` among them make a non-zero entry. -/
theorem or_ne_zero {f : Pte} (hf : f &&& pteP = pteP) : e ||| f ≠ 0 := by
  intro h
  have hz : f = 0#64 := by
    ext i hi
    have hi' := congrArg (fun w : Pte => w.getLsbD i) h
    simp only [BitVec.getLsbD_or] at hi'
    rw [← BitVec.getLsbD_eq_getElem hi]
    simp_all
  rw [hz] at hf
  cases hf

theorem or_present {f : Pte} (hf : f &&& pteP = pteP) : (e ||| f) &&& pteP = pteP := by
  rw [BitVec.and_or_distrib_right, hf]
  ext i hi
  simp only [BitVec.getElem_or, BitVec.getElem_and]
  cases pteP[i] <;> simp

/-- Further flags do not make a present entry absent. -/
theorem hasFlags_or {e : Pte} (f : Pte) (h : hasFlags e pteP = true) :
    hasFlags (e ||| f) pteP = true := by
  simp only [hasFlags, beq_iff_eq] at h ⊢
  rw [BitVec.or_comm]
  exact or_present f h

/-- Flags that are among those of an entry. -/
theorem hasFlags_of_and {e f g : Pte} (h : hasFlags e f = true) (hg : f &&& g = g) :
    hasFlags e g = true := by
  simp only [hasFlags, beq_iff_eq] at h ⊢
  rw [← hg, ← BitVec.and_assoc, h]

theorem ne_zero_of_present {e : Pte} (h : hasFlags e pteP = true) : e ≠ 0 := by
  intro hz
  rw [hz] at h
  cases h

theorem twoPow_ne_zero (hi : i < 64) : BitVec.twoPow 64 i ≠ 0 := by
  intro h
  have hbit := congrArg (fun v : BitVec 64 => v.getLsbD i) h
  simp [hi] at hbit

/-- A flag that is one bit. -/
theorem and_twoPow_bne (w : Pte) (hi : i < 64) : (w &&& BitVec.twoPow 64 i != 0) = w.getLsbD i := by
  rw [BitVec.and_twoPow]
  cases w.getLsbD i with
  | false => simp
  | true =>
    rw [if_pos rfl, bne_iff_ne]
    exact twoPow_ne_zero hi

theorem hasFlags_twoPow (w : Pte) (hi : i < 64) :
    hasFlags w (BitVec.twoPow 64 i) = w.getLsbD i := by
  rw [hasFlags, BitVec.and_twoPow]
  cases w.getLsbD i with
  | true => simp
  | false =>
    rw [if_neg Bool.false_ne_true, beq_eq_false_iff_ne]
    exact (twoPow_ne_zero hi).symm

/-- No bit of `w` is outside of `f`. -/
theorem and_not_eq_zero_iff {n : Nat} (w f : BitVec n) :
    w &&& ~~~f = 0 ↔ ∀ i, w.getLsbD i = true → f.getLsbD i = true := by
  constructor
  · intro h i hw
    have hbit := congrArg (fun v : BitVec n => v.getLsbD i) h
    simp only [BitVec.getLsbD_and, BitVec.getLsbD_not, hw, BitVec.lt_of_getLsbD hw, decide_true,
      Bool.true_and] at hbit
    cases hf : f.getLsbD i with
    | false =>
      rw [hf] at hbit
      exact absurd hbit (by simp)
    | true => rfl
  · intro h
    apply BitVec.eq_of_getLsbD_eq
    intro i hi
    simp only [BitVec.getLsbD_and, BitVec.getLsbD_not, hi, decide_true, Bool.true_and]
    cases hw : w.getLsbD i with
    | false => simp
    | true => simp [h i hw]

end Jos
