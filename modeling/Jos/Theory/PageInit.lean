import Jos.Theory.Isolation

/-!
# The First Free List

Which pages `page_init` puts on the free list. It takes all of base memory up to the I/O
hole, and not what was reported of it. So the list is right for a machine that has exactly
640 KiB of base memory, or no more than that and nothing else.

## Theorems

* `mem_pageInit`: The pages on the list.
* `pageInit_unused_iff`: The machines for which these are the unused ones.
-/

namespace Jos.Vm

/-- A page is memory that nothing uses: `kernelEnd` is where the boot allocations end. -/
def Unused (npagesBasemem npages kernelEnd i : Nat) : Prop :=
  0 < i ∧ i < npages ∧ (i < npagesBasemem ∨ max 0x100000 kernelEnd / pgSize ≤ i) ∧
    ¬(0x8000 ≤ i * pgSize ∧ i * pgSize < 0xE000) ∧ i * pgSize ≠ 0x7000

/-- The pages on the list: those below the I/O hole and those behind the kernel. -/
theorem mem_pageInit {kernelEnd : Nat} (npages i : Nat) (h : kernelEnd % pgSize = 0) :
    i ∈ pageInit npages kernelEnd ↔ Unused 160 npages kernelEnd i := by
  unfold pageInit pageInitFree Unused pgSize at *
  simp only [List.mem_reverse, List.mem_filter, List.mem_range, Bool.not_eq_true',
    Bool.or_eq_false_iff, Bool.and_eq_false_iff, decide_eq_false_iff_not, beq_eq_false_iff_ne]
  omega

/-- The list has the unused pages, each once, exactly if the reported base memory ends with
    the I/O hole or is less and all there is. The boot allocations end below 4 GiB, or there
    is no memory behind what is left of the address in 32 bits. -/
theorem pageInit_unused_iff (base ext : BitVec 16) (kernelEnd : Nat) (h : kernelEnd % pgSize = 0) :
    ((pageInit (detectMemory base ext).2 (kernelEnd % 2 ^ 32)).Nodup ∧
      ∀ i, i ∈ pageInit (detectMemory base ext).2 (kernelEnd % 2 ^ 32) ↔
        Unused (detectMemory base ext).1 (detectMemory base ext).2 kernelEnd i) ↔
    (ext.toNat < 4 ∧ base.toNat < 644) ∨
      (4 ≤ ext.toNat ∧ 640 ≤ base.toNat ∧ base.toNat < 644 ∧
        (kernelEnd < 2 ^ 32 ∨ (0x400 + ext.toNat) / 4 * pgSize ≤ kernelEnd % 2 ^ 32)) := by
  rw [and_iff_right (Mem.pageInit_spec _ _).1]
  have hbase := base.isLt
  have hext := ext.isLt
  have hmod : kernelEnd % 2 ^ 32 % pgSize = 0 := by
    unfold pgSize at *
    omega
  simp only [mem_pageInit _ _ hmod, detectMemory]
  by_cases hx : ext.toNat * 1024 / pgSize ≠ 0
  · simp only [if_pos hx]
    unfold Unused pgSize at *
    constructor
    · intro hall
      have h159 := hall 159
      have h160 := hall 160
      have hlast := hall (255 + ext.toNat / 4)
      omega
    · intro hcond i
      omega
  · simp only [if_neg hx]
    unfold Unused pgSize at *
    constructor
    · intro hall
      have h160 := hall 160
      omega
    · intro hcond i
      omega

theorem pageInit_unused_iff_large :
    ((pageInit (detectMemory 640 65535).2 (0x400000 % 2 ^ 32)).Nodup ∧
      ∀ i, i ∈ pageInit (detectMemory 640 65535).2 (0x400000 % 2 ^ 32) ↔
        Unused (detectMemory 640 65535).1 (detectMemory 640 65535).2 0x400000 i) :=
  (pageInit_unused_iff 640 65535 0x400000 (by decide)).2 (.inr (by decide))

/-- A machine with 639 KiB of base memory: its last page is not all memory. -/
theorem pageInit_not_unused : 159 ∈ pageInit (detectMemory 639 65535).2 (0x400000 % 2 ^ 32) ∧
    ¬ Unused (detectMemory 639 65535).1 (detectMemory 639 65535).2 0x400000 159 := by
  refine ⟨(mem_pageInit _ _ (by decide)).2 ?_, ?_⟩
  · unfold Unused
    decide
  · unfold Unused
    decide

end Jos.Vm
