import Jos.Theory.Setup

/-!
# The Window onto the Page Tables

The entry of the root at `UVPT` names the root itself, so that a walk which begins with
this entry is where it began, one level late: the tables take the place of the
pages, and the pages that the arrays `vpt`, `vpd`, `vpde` and `vpml4e` lie on are the tables of
the four levels.

A walk is a list of indices here. Going through the entry at `UVPT` drops the first index of the
list, and the addresses in the arrays are made so that the other indices are those of the
address whose entry is looked for.

## Main definitions

* `Vm.descend`: The last of the present entries along a list of indices.
* `Vm.location`: The page and the offset that an address stands for.
* `Vm.SelfMapped`: The entry at `UVPT`.

## Theorems

* `Vm.translate_eq_descend`: The hardware's walk.
* `Vm.SelfMapped.descend_cons`: A walk through the entry at `UVPT`.
* `Vm.window_eq`: The four arrays.
-/

namespace Jos

namespace Vm

/-- The entry, if it is present. -/
def present (m : Vm) (t i : Nat) : Option Pte :=
  if hasFlags (m.mem t i) pteP then some (m.mem t i) else none

/-- Follow present entries along the indices; the last entry is the result. -/
def descend (m : Vm) (t : Nat) : List Nat → Option Pte
  | [] => none
  | [i] => m.present t i
  | i :: j :: is => (m.present t i).bind fun e => m.descend (ppn e) (j :: is)

/-- The page and the offset in it that the hardware accesses. -/
def location (m : Vm) (root va : Nat) : Option (Nat × Nat) :=
  (m.translate root va).map fun (e, _, _) => (ppn e, va % pgSize)

variable {m : Vm} {t i va : Nat}

theorem present_eq (h : hasFlags (m.mem t i) pteP = true) :
    m.present t i = some (m.mem t i) := if_pos h

/-- The hardware follows the four indices of an address. -/
theorem translate_eq_descend (m : Vm) (root va : Nat) :
    (m.translate root va).map Prod.fst = m.descend root [pml4 va, pdpe va, pdx va, ptx va] := by
  unfold translate
  simp only [descend, present, Option.map_bind, Option.map_map, Function.comp_def, Option.map_id']

theorem location_eq {root : Nat} {e : Pte}
    (h : m.descend root [pml4 va, pdpe va, pdx va, ptx va] = some e) :
    m.location root va = some (ppn e, va % pgSize) := by
  rw [← translate_eq_descend] at h
  rcases Option.map_eq_some_iff.1 h with ⟨x, hx, rfl⟩
  rw [location, hx]
  rfl

/-- The entry at `UVPT` is present and names the root. -/
structure SelfMapped (m : Vm) (root : Nat) : Prop where
  present : hasFlags (m.mem root (pml4 uvpt)) pteP = true
  page : ppn (m.mem root (pml4 uvpt)) = root

namespace SelfMapped

variable {m : Vm} {root : Nat} (h : m.SelfMapped root)
include h

/-- Through the entry at `UVPT` the walk begins again. -/
theorem descend_cons (i : Nat) (is : List Nat) :
    m.descend root (pml4 uvpt :: i :: is) = m.descend root (i :: is) := by
  rw [descend, present_eq h.present, Option.bind_some, h.page]

theorem descend_single :
    m.descend root [pml4 uvpt] = some (m.mem root (pml4 uvpt)) :=
  present_eq h.present

end SelfMapped

/-! ## The entries on the way to an address -/

/-- The root's entry for an address, and below it those of the next two levels. -/
def pml4Entry (m : Vm) (root va : Nat) : Pte := m.mem root (pml4 va)
def pdpEntry (m : Vm) (root va : Nat) : Pte := m.mem (ppn (m.pml4Entry root va)) (pdpe va)
def pdEntry (m : Vm) (root va : Nat) : Pte := m.mem (ppn (m.pdpEntry root va)) (pdx va)

theorem vpd_eq : vpd = 0x10080000000 := rfl
theorem vpde_eq : vpde = 0x10080400000 := rfl
theorem vpml4e_eq : vpml4e = 0x10080402000 := rfl

/-- The indices of the addresses in the four arrays. -/
theorem vpt_indices (hva : va < 2 ^ 48) :
    pml4 (vpt + 8 * vpnOf va) = pml4 uvpt ∧ pdpe (vpt + 8 * vpnOf va) = pml4 va ∧
    pdx (vpt + 8 * vpnOf va) = pdpe va ∧ ptx (vpt + 8 * vpnOf va) = pdx va ∧
    (vpt + 8 * vpnOf va) % pgSize = 8 * ptx va := by
  simp only [vpt, uvpt, vpnOf, pml4, pdpe, pdx, ptx, pgSize]
  omega

theorem vpd_indices (hva : va < 2 ^ 48) :
    pml4 (vpd + 8 * vpdOf va) = pml4 uvpt ∧ pdpe (vpd + 8 * vpdOf va) = pml4 uvpt ∧
    pdx (vpd + 8 * vpdOf va) = pml4 va ∧ ptx (vpd + 8 * vpdOf va) = pdpe va ∧
    (vpd + 8 * vpdOf va) % pgSize = 8 * pdx va := by
  rw [vpd_eq]
  simp only [uvpt, vpdOf, pml4, pdpe, pdx, ptx, pgSize]
  omega

theorem vpde_indices (hva : va < 2 ^ 48) :
    pml4 (vpde + 8 * vpdpeOf va) = pml4 uvpt ∧ pdpe (vpde + 8 * vpdpeOf va) = pml4 uvpt ∧
    pdx (vpde + 8 * vpdpeOf va) = pml4 uvpt ∧ ptx (vpde + 8 * vpdpeOf va) = pml4 va ∧
    (vpde + 8 * vpdpeOf va) % pgSize = 8 * pdpe va := by
  rw [vpde_eq]
  simp only [uvpt, vpdpeOf, pml4, pdpe, pdx, ptx, pgSize]
  omega

theorem vpml4e_indices (hva : va < 2 ^ 48) :
    pml4 (vpml4e + 8 * vpml4eOf va) = pml4 uvpt ∧ pdpe (vpml4e + 8 * vpml4eOf va) = pml4 uvpt ∧
    pdx (vpml4e + 8 * vpml4eOf va) = pml4 uvpt ∧ ptx (vpml4e + 8 * vpml4eOf va) = pml4 uvpt ∧
    (vpml4e + 8 * vpml4eOf va) % pgSize = 8 * pml4 va := by
  rw [vpml4e_eq]
  simp only [uvpt, vpml4eOf, pml4, pdpe, pdx, ptx, pgSize]
  omega

/-- A walk without `create` goes through a present entry. -/
theorem walkLevel_present (next : Vm → Nat → Option (Option Nat × Vm))
    (hp : hasFlags (m.mem t i) pteP = true) (hpage : ppn (m.mem t i) < m.npages) :
    m.walkLevel t i false next = next m (ppn (m.mem t i)) := by
  rw [walkLevel, if_neg (ne_zero_of_present hp), kaddr, if_pos hpage, Option.bind_some]

/-- In an address space that has the window, the addresses that user programs compute
    from `vpt`, `vpd`, `vpde` and `vpml4e` are those of the entries for `va`: the slot `PTX(va)` of
    the page table, which is the table that `pml4e_walk`, `pdpe_walk` and `pgdir_walk` find, and
    the slots of the tables above. -/
theorem window_eq (m : Vm) (root va : Nat) (hself : m.SelfMapped root) (hva : va < 2 ^ 48)
    (h1 : hasFlags (m.pml4Entry root va) pteP = true)
    (h2 : hasFlags (m.pdpEntry root va) pteP = true)
    (h3 : hasFlags (m.pdEntry root va) pteP = true) :
    m.location root (vpt + 8 * vpnOf va) = some (ppn (m.pdEntry root va), 8 * ptx va) ∧
    m.location root (vpd + 8 * vpdOf va) = some (ppn (m.pdpEntry root va), 8 * pdx va) ∧
    m.location root (vpde + 8 * vpdpeOf va) = some (ppn (m.pml4Entry root va), 8 * pdpe va) ∧
    m.location root (vpml4e + 8 * vpml4eOf va) = some (root, 8 * pml4 va) ∧
    (ppn (m.pml4Entry root va) < m.npages → ppn (m.pdpEntry root va) < m.npages →
      ppn (m.pdEntry root va) < m.npages →
      m.pml4eWalk root va false = some (some (ppn (m.pdEntry root va)), m) ∧
      m.pdpeWalk (ppn (m.pml4Entry root va)) va false = some (some (ppn (m.pdEntry root va)), m) ∧
      m.pgdirWalk (ppn (m.pdpEntry root va)) va false =
        some (some (ppn (m.pdEntry root va)), m)) := by
  have p1 : m.present root (pml4 va) = some (m.pml4Entry root va) := present_eq h1
  have p2 : m.present (ppn (m.pml4Entry root va)) (pdpe va) = some (m.pdpEntry root va) :=
    present_eq h2
  have p3 : m.present (ppn (m.pdpEntry root va)) (pdx va) = some (m.pdEntry root va) :=
    present_eq h3
  refine ⟨?_, ?_, ?_, ?_, ?_⟩
  -- each array is one more time through the entry at `UVPT`
  · rcases vpt_indices hva with ⟨hi, hj, hk, hl, hoff⟩
    rw [← hoff]
    refine location_eq ?_
    rw [hi, hj, hk, hl, hself.descend_cons, descend, p1, Option.bind_some, descend, p2,
      Option.bind_some, descend, p3]
  · rcases vpd_indices hva with ⟨hi, hj, hk, hl, hoff⟩
    rw [← hoff]
    refine location_eq ?_
    rw [hi, hj, hk, hl, hself.descend_cons, hself.descend_cons, descend, p1, Option.bind_some,
      descend, p2]
  · rcases vpde_indices hva with ⟨hi, hj, hk, hl, hoff⟩
    rw [← hoff]
    refine location_eq ?_
    rw [hi, hj, hk, hl, hself.descend_cons, hself.descend_cons, hself.descend_cons, descend, p1]
  · rcases vpml4e_indices hva with ⟨hi, hj, hk, hl, hoff⟩
    have hloc : m.location root (vpml4e + 8 * vpml4eOf va) =
        some (ppn (m.mem root (pml4 uvpt)), (vpml4e + 8 * vpml4eOf va) % pgSize) := by
      refine location_eq ?_
      rw [hi, hj, hk, hl, hself.descend_cons, hself.descend_cons, hself.descend_cons,
        hself.descend_single]
    rwa [hself.page, hoff] at hloc
  · intro n1 n2 n3
    have hdir : m.pgdirWalk (ppn (m.pdpEntry root va)) va false =
        some (some (ppn (m.pdEntry root va)), m) := by
      rw [pgdirWalk, walkLevel_present _ h3 n3]
      rfl
    have hpdp : m.pdpeWalk (ppn (m.pml4Entry root va)) va false =
        some (some (ppn (m.pdEntry root va)), m) := by
      rwa [pdpeWalk, walkLevel_present _ h2 n2]
    refine ⟨?_, hpdp, hdir⟩
    rwa [pml4eWalk, walkLevel_present _ h1 n1]

/-- An address space with four tables, the pages 1 to 4. -/
def windowVm : Vm where
  npages := 5
  ppRef := fun _ => 1
  pageFreeList := []
  mem := fun p i =>
    if p = 1 ∧ i = 2 then 0x1005
    else if i = 0 ∧ p < 4 then page2pa (p + 1) ||| 7
    else 0

/-- The entry for address `0x5000` is the sixth of page 4. -/
theorem window_eq_fifth : windowVm.location 1 (vpt + 8 * vpnOf 0x5000) = some (4, 40) :=
  (windowVm.window_eq 1 0x5000 ⟨by decide, by decide⟩ (by decide) (by decide) (by decide)
    (by decide)).1

end Vm

end Jos
