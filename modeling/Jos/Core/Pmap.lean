import Jos.Core.Mmu
import Jos.Lib.Loop

/-!
# Physical Pages and Page Tables

The page allocator and the page-table operations of `kern/pmap.c`. The state
they share is a `Vm`: the number of physical pages, the `pages` array with its
reference counts, the free list, and physical memory as pages of 64-bit words,
in which the page tables live.

A physical page is named by its page number, `none` stands for a null
`struct Page *`. An operation that can `panic` (an entry that names a page
outside physical memory) returns an `Option`, with `none` for the panic.

## Main definitions

* `Vm`: Physical memory and its allocator.
* `Vm.pageAlloc`, `Vm.pageFree`, `Vm.pageDecref`: The allocator.
* `Vm.pml4eWalk`, `Vm.pdpeWalk`, `Vm.pgdirWalk`: The page-table walk.
* `Vm.pageInsert`, `Vm.pageLookup`, `Vm.pageRemove`: Mapping and unmapping.
* `Vm.translate`: What the hardware makes of an address.
* `Vm.loadBytes`, `Vm.storeBytes`: Kernel accesses through a page table.
* `Vm.userMemCheck`, `Vm.userMemReport`: The check of ranges that users name.
-/

namespace Jos

open Lib.Radix (setSlot clearPage)

/-- Physical memory and the allocator's data. `npages` is the variable of that
    name and bounds the page numbers, `ppRef` the `pp_ref` fields, and
    `pageFreeList` the list behind `page_free_list`. -/
structure Vm where
  npages : Nat
  ppRef : Nat → BitVec 16
  pageFreeList : List Nat
  mem : Nat → Nat → BitVec 64

namespace Vm

/-- Store an entry. -/
def setEntry (m : Vm) (p i : Nat) (v : Pte) : Vm :=
  { m with mem := setSlot m.mem p i v }

/-- `memset(page2kva(p), 0, PGSIZE)`. -/
def zeroPage (m : Vm) (p : Nat) : Vm :=
  { m with mem := clearPage m.mem p }

/-- Assign a `pp_ref` field. -/
def setRef (m : Vm) (p : Nat) (v : BitVec 16) : Vm :=
  { m with ppRef := Function.update m.ppRef p v }

section

variable (m : Vm) (p i : Nat) (v : Pte) (r : BitVec 16)

@[simp] theorem setEntry_mem : (m.setEntry p i v).mem = setSlot m.mem p i v := rfl
@[simp] theorem setEntry_ppRef : (m.setEntry p i v).ppRef = m.ppRef := rfl
@[simp] theorem setEntry_pageFreeList : (m.setEntry p i v).pageFreeList = m.pageFreeList := rfl
@[simp] theorem setEntry_npages : (m.setEntry p i v).npages = m.npages := rfl
@[simp] theorem zeroPage_mem : (m.zeroPage p).mem = clearPage m.mem p := rfl
@[simp] theorem zeroPage_ppRef : (m.zeroPage p).ppRef = m.ppRef := rfl
@[simp] theorem zeroPage_pageFreeList : (m.zeroPage p).pageFreeList = m.pageFreeList := rfl
@[simp] theorem zeroPage_npages : (m.zeroPage p).npages = m.npages := rfl
@[simp] theorem setRef_mem : (m.setRef p r).mem = m.mem := rfl
@[simp] theorem setRef_ppRef : (m.setRef p r).ppRef = Function.update m.ppRef p r := rfl
@[simp] theorem setRef_pageFreeList : (m.setRef p r).pageFreeList = m.pageFreeList := rfl
@[simp] theorem setRef_npages : (m.setRef p r).npages = m.npages := rfl

end

/-! ## The allocator -/

/-- `page_init`: whether page `i` goes on the free list, given where the
    kernel's image and boot allocations end. The pages left out are page 0, the
    I/O hole, the kernel, the boot page tables and the page at `MPENTRY_PADDR`. -/
def pageInitFree (kernelEnd i : Nat) : Bool :=
  let pageStart := i * pgSize
  let pageEnd := pageStart + (pgSize - 1)
  let within := fun lo hi => (lo ≤ pageStart && pageStart < hi) || (lo ≤ pageEnd && pageEnd < hi)
  !(i == 0 || within 0x0A0000 0x100000 || within 0x100000 kernelEnd ||
    within 0x8000 0xE000 || pageStart == 0x7000)

/-- `page_init`: each free page is pushed, so the list is in descending order. -/
def pageInit (npages kernelEnd : Nat) : List Nat :=
  ((List.range npages).filter (pageInitFree kernelEnd)).reverse

/-- `i386_detect_memory`: `npages_basemem` and `npages` for what the CMOS reports in kilobytes. -/
def detectMemory (base ext : BitVec 16) : Nat × Nat :=
  let npagesBasemem := base.toNat * 1024 / pgSize
  let npagesExtmem := ext.toNat * 1024 / pgSize
  (npagesBasemem, if npagesExtmem ≠ 0 then 0x100000 / pgSize + npagesExtmem else npagesBasemem)

/-- `page_alloc`: take the head of the free list, zeroed on `ALLOC_ZERO`. -/
def pageAlloc (m : Vm) (allocZero : Bool) : Option Nat × Vm :=
  match m.pageFreeList with
  | [] => (none, m)
  | p :: rest =>
    let m := if allocZero then m.zeroPage p else m
    (some p, { m with pageFreeList := rest })

/-- `page_free`: nothing happens for a page that is in use or free already. -/
def pageFree (m : Vm) (p : Nat) : Vm :=
  if m.ppRef p ≠ 0 then m
  else if p ∈ m.pageFreeList then m
  else { m with pageFreeList := p :: m.pageFreeList }

/-- `page_decref`: the count is a `uint16_t`, so it wraps below zero. -/
def pageDecref (m : Vm) (p : Nat) : Vm :=
  let m := m.setRef p (m.ppRef p - 1)
  if m.ppRef p = 0 then m.pageFree p else m

/-- `KADDR(PTE_ADDR(e))`: the page of a table, with a panic for a page that
    does not exist. The macro has the page number in a `uint32_t`; here it is not cut. -/
def kaddr (m : Vm) (e : Pte) : Option Nat :=
  if ppn e < m.npages then some (ppn e) else none

/-- `pa2page`, with the same panic. -/
def pa2page (m : Vm) (e : Pte) : Option Nat :=
  if ppn e < m.npages then some (ppn e) else none

/-! ## The walk -/

/-- One level of the walk, which `pml4e_walk`, `pdpe_walk` and `pgdir_walk`
    share: go through slot `i` of the table `t` to the next level, making a
    table there if asked to, and take a new table back if the rest of the walk
    finds none. -/
def walkLevel (m : Vm) (t i : Nat) (create : Bool)
    (next : Vm → Nat → Option (Option Nat × Vm)) : Option (Option Nat × Vm) :=
  if m.mem t i = 0 then
    if !create then some (none, m)
    else
      match m.pageAlloc false with
      | (none, m) => some (none, m)
      | (some newPage, m) =>
        let m := m.setRef newPage (m.ppRef newPage + 1)
        let m := m.setEntry t i (page2pa newPage ||| 7)
        let m := m.zeroPage newPage
        (m.kaddr (m.mem t i)).bind fun t' =>
          (next m t').map fun r =>
            match r with
            | (some pt, m) => (some pt, m)
            | (none, m) => (none, ((m.setEntry t i 0).setRef newPage 0).pageFree newPage)
  else (m.kaddr (m.mem t i)).bind (next m)

/-- `pgdir_walk`: the page table below a page directory. -/
def pgdirWalk (m : Vm) (pgdir va : Nat) (create : Bool) : Option (Option Nat × Vm) :=
  m.walkLevel pgdir (pdx va) create fun m pt => some (some pt, m)

/-- `pdpe_walk`. -/
def pdpeWalk (m : Vm) (pdp va : Nat) (create : Bool) : Option (Option Nat × Vm) :=
  m.walkLevel pdp (pdpe va) create fun m pde => m.pgdirWalk pde va create

/-- `pml4e_walk`: the page table for `va`; the entry the source returns a
    pointer to is its slot `PTX(va)`. -/
def pml4eWalk (m : Vm) (pml4e va : Nat) (create : Bool) : Option (Option Nat × Vm) :=
  m.walkLevel pml4e (pml4 va) create fun m pdp => m.pdpeWalk pdp va create

/-! ## Mapping and unmapping -/

/-- `page_lookup`: the page that the entry for `va` names, with the page table
    that holds the entry. An entry that is zero names page 0. -/
def pageLookup (m : Vm) (pml4e va : Nat) : Option (Option (Nat × Nat)) :=
  (m.pml4eWalk pml4e va false).bind fun r =>
    match r.1 with
    | none => some none
    | some pt => (m.pa2page (m.mem pt (ptx va))).map fun p => some (p, pt)

/-- `page_remove`. -/
def pageRemove (m : Vm) (pml4e va : Nat) : Option Vm :=
  (m.pageLookup pml4e va).map fun r =>
    match r with
    | none => m
    | some (p, pt) => (m.pageDecref p).setEntry pt (ptx va) 0

/-- `-E_NO_MEM` -/
def eNoMem : Int := -4

/-- `page_insert`: the permission word is an `int`, so it is sign-extended
    when it is or-ed into the entry. -/
def pageInsert (m : Vm) (pml4e pp va : Nat) (perm : BitVec 32) : Option (Int × Vm) :=
  (m.pml4eWalk pml4e va true).bind fun r =>
    match r with
    | (none, m) => some (eNoMem, m)
    | (some pt, m) =>
      let target : Option Vm :=
        if pteAddr (m.mem pt (ptx va)) ≠ page2pa pp then
          (if m.mem pt (ptx va) ≠ 0 then m.pageRemove pml4e va else some m).map fun m =>
            (m.setEntry pt (ptx va) (page2pa pp)).setRef pp (m.ppRef pp + 1)
        else some (m.setEntry pt (ptx va) (pteAddr (m.mem pt (ptx va))))
      target.map fun m =>
        (0, m.setEntry pt (ptx va) (m.mem pt (ptx va) ||| (perm ||| 1).signExtend 64))

/-! ## Accesses through a page table -/

/-- What the hardware makes of an address: the leaf entry and whether all four
    levels allow writes and user accesses. An entry without `PTE_P` on the way
    means that the address is not mapped. -/
def translate (m : Vm) (root va : Nat) : Option (Pte × Bool × Bool) :=
  let go := fun (t : Nat) (i : Nat) => let e := m.mem t i; if hasFlags e pteP then some e else none
  (go root (pml4 va)).bind fun e1 =>
  (go (ppn e1) (pdpe va)).bind fun e2 =>
  (go (ppn e2) (pdx va)).bind fun e3 =>
  (go (ppn e3) (ptx va)).map fun e4 =>
    let all := fun f => hasFlags e1 f && hasFlags e2 f && hasFlags e3 f && hasFlags e4 f
    (e4, all pteW, all pteU)

/-- A byte the kernel loads through a page table; `none` is the page fault in
    kernel mode, which panics. -/
def loadByte (m : Vm) (root va : Nat) : Option (BitVec 8) :=
  (m.translate root va).map fun (e, _, _) =>
    (m.mem (ppn e) (va % pgSize / 8) >>> (8 * (va % 8))).setWidth 8

/-- A byte the kernel stores; `CR0_WP` makes it heed the write permission. -/
def storeByte (m : Vm) (root va : Nat) (b : BitVec 8) : Option Vm :=
  (m.translate root va).bind fun (e, w, _) =>
    if w then
      let i := va % pgSize / 8
      let sh := 8 * (va % 8)
      let old := m.mem (ppn e) i &&& ~~~((0xFF : BitVec 64) <<< sh)
      some (m.setEntry (ppn e) i (old ||| (b.setWidth 64 <<< sh)))
    else none

/-- The next `n` bytes from `va`, as one little-endian number. -/
def loadBytes (m : Vm) (root : Nat) : Nat → Nat → Option (BitVec 64)
  | 0, _ => some 0
  | n + 1, va =>
    (m.loadByte root va).bind fun b =>
      (m.loadBytes root n (va + 1)).map fun (w : BitVec 64) => (w <<< 8) ||| b.setWidth 64

/-- Store the low `n` bytes of a word from `va` on. -/
def storeBytes (m : Vm) (root : Nat) : Nat → Nat → BitVec 64 → Option Vm
  | 0, _, _ => some m
  | n + 1, va, w =>
    (m.storeByte root va (w.setWidth 8)).bind fun m => m.storeBytes root n (va + 1) (w >>> 8)

/-- `user_mem_check` on the pages from `va` on: `n` more pages are looked at.
    `cur` is the page table in use. The source prints `*ppte` on a failure, also
    when `ppte` is null, which faults in the kernel unless address 0 is mapped. -/
def userMemCheckFrom (m : Vm) (cur pml4e : Nat) (perm : BitVec 32) : Nat → Nat → Option Bool
  | 0, _ => some true
  | n + 1, va =>
    (m.pml4eWalk pml4e va false).bind fun r =>
      match r.1 with
      | none => (m.loadByte cur 0).map fun _ => false
      | some pt =>
        if hasFlags (m.mem pt (ptx va)) ((perm ||| 1).signExtend 64) then
          m.userMemCheckFrom cur pml4e perm n (va + pgSize)
        else some false

/-- `user_mem_check`: the sum `va + len` is taken modulo `2 ^ 64`. -/
def userMemCheck (m : Vm) (cur pml4e va len : Nat) (perm : BitVec 32) : Option Bool :=
  let sum := (va + len) % 2 ^ 64
  let stop := (sum + (pgSize - 1)) / pgSize * pgSize
  if ulim ≤ sum then some false
  else m.userMemCheckFrom cur pml4e perm ((stop - va + (pgSize - 1)) / pgSize) va

/-- What a call of `user_mem_check` does: it returns 0, or it returns `-E_FAULT`
    with an address in `user_mem_check_addr`, after it has read `*ppte` through a
    null pointer or not. -/
inductive MemCheck
  | ok
  | fault (addr : Nat) (nullPte : Bool)
  deriving DecidableEq

/-- The loop of `user_mem_check` for the range at `va`, from `addr` on: `n` more
    pages are looked at. -/
def userMemReportFrom (m : Vm) (pml4e va : Nat) (perm : BitVec 32) : Nat → Nat → Option MemCheck
  | 0, _ => some .ok
  | n + 1, addr =>
    (m.pml4eWalk pml4e addr false).bind fun r =>
      match r.1 with
      | none => some (.fault (if addr = va then va else addr / pgSize * pgSize) true)
      | some pt =>
        if hasFlags (m.mem pt (ptx addr)) ((perm ||| 1).signExtend 64) then
          m.userMemReportFrom pml4e va perm n (addr + pgSize)
        else some (.fault (if addr = va then va else addr / pgSize * pgSize) false)

/-- `user_mem_check` with the address that it reports. -/
def userMemReport (m : Vm) (pml4e va len : Nat) (perm : BitVec 32) : Option MemCheck :=
  let sum := (va + len) % 2 ^ 64
  let stop := (sum + (pgSize - 1)) / pgSize * pgSize
  if ulim ≤ sum then some (.fault va false)
  else m.userMemReportFrom pml4e va perm ((stop - va + (pgSize - 1)) / pgSize) va

/-- The result for the caller: reading through a null pointer faults unless
    address 0 is mapped by the page table in use. -/
def MemCheck.result (m : Vm) (cur : Nat) : MemCheck → Option Bool
  | .ok => some true
  | .fault _ false => some false
  | .fault _ true => (m.loadByte cur 0).map fun _ => false

end Vm
end Jos
