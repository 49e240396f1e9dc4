import Jos.Theory.Memory

/-!
# Counts and Isolation in Every Run

The system that user programs drive through the page calls: environments are
created at boot, programs store to their memory, the hardware marks entries as
accessed, and any environment traps with one of the calls at any time.

In runs of tame calls the reference counts are right and no page on the free
list is in use. If the calls also ask only for flags that user programs may set,
and not for write access to what is mapped read-only, the maps of the
environments are isolated from the kernel. Without these conditions neither
holds: `sys_page_map` takes an empty slot for a mapping of page 0 and stores the
upper bits of `perm` into the address of the entry.

## Main definitions

* `Mem.step`: The system.
* `Mem.Booted`: The states after `page_init` and `env_init`.
* `Mem.Tame`, `Mem.Strict`: The conditions on the calls.
* `Mem.UserEntry`: What a user mapping may be.

## Theorems

* `Mem.step_inv`, `Mem.run_inv`: One step and every run.
* `Mem.ppRef_eq_refCount`: The counts are right.
* `Mem.maps_isolated`: User mappings are isolated.
-/

namespace Jos

open Lib (Run runEvents)
open Lib.Radix (OkPath entry)

namespace Mem

variable {pool : Nat → Prop} {mem0 : Nat → Nat → Pte} {P : Pte → Prop} {s s' : Kernel}
  {kernelEnd : Nat}

/-- What happens next: the kernel creates an environment at boot from an image,
    a program stores a byte, the hardware notes an access, or an environment
    makes a call on some CPU. -/
inductive Event
  | create (type : EnvType) (entry : BitVec 64) (segs : List (Nat × Nat))
  | store (e va : Nat) (b : BitVec 8)
  | touch (e va : Nat) (dirty : Bool)
  | call (c e : Nat) (tf : Trapframe)

/-- One step. Images lie below `UTOP`, and so do the addresses user programs
    can store to. -/
def step (s : Kernel) : Event → Option Kernel
  | .create type entry segs =>
    if segs.all fun sg => sg.1 + sg.2 ≤ utop then s.envCreate type entry segs else none
  | .store e va b =>
    if va < utop then
      (s.roots e).bind fun root =>
        match s.vm.translate root va with
        | some (_, _, true) => (s.vm.storeByte root va b).map fun m => { s with vm := m }
        | _ => none
    else none
  | .touch e va dirty =>
    if va < utop then
      (s.roots e).bind fun root =>
        (s.vm.markAccess root va dirty).map fun m => { s with vm := m }
    else none
  | .call c e tf =>
    if (s.envs e).envStatus ≠ .free ∧ tf.trapno.toNat = 48 ∧ (Call.decode tf.regs).onPages then
      ((s.setCpuEnv c (some e)).trap c tf 0).exit?
    else none

theorem step_create {type : EnvType} {entry : BitVec 64} {segs : List (Nat × Nat)}
    (h : step s (.create type entry segs) = some s') :
    (∀ sg ∈ segs, sg.1 + sg.2 ≤ utop) ∧ s.envCreate type entry segs = some s' := by
  simp only [step] at h
  rcases Option.ite_none_right_eq_some.1 h with ⟨hsegs, h⟩
  rw [List.all_eq_true] at hsegs
  exact ⟨fun sg hsg => of_decide_eq_true (hsegs sg hsg), h⟩

section

variable {e va : Nat}

theorem step_store {b : BitVec 8} (h : step s (.store e va b) = some s') :
    va < utop ∧ ∃ root m, s.roots e = some root ∧ s.vm.storeByte root va b = some m ∧
      s' = { s with vm := m } := by
  simp only [step] at h
  rcases Option.ite_none_right_eq_some.1 h with ⟨hva, h⟩
  rcases Option.bind_eq_some_iff.1 h with ⟨root, hroot, h⟩
  split at h
  · rcases Option.map_eq_some_iff.1 h with ⟨m, hm, rfl⟩
    exact ⟨hva, root, m, hroot, hm, rfl⟩
  · cases h

theorem step_touch {dirty : Bool} (h : step s (.touch e va dirty) = some s') :
    va < utop ∧ ∃ root m, s.roots e = some root ∧ s.vm.markAccess root va dirty = some m ∧
      s' = { s with vm := m } := by
  simp only [step] at h
  rcases Option.ite_none_right_eq_some.1 h with ⟨hva, h⟩
  rcases Option.bind_eq_some_iff.1 h with ⟨root, hroot, h⟩
  rcases Option.map_eq_some_iff.1 h with ⟨m, hm, rfl⟩
  exact ⟨hva, root, m, hroot, hm, rfl⟩

end

/-- The kernel when the call of `e` on `c` is dispatched. -/
def entered (s : Kernel) (c e : Nat) (tf : Trapframe) : Kernel :=
  (s.setCpuEnv c (some e)).setEnv e { s.envs e with envTf := tf }

/-- The step keeps the counts right: a call is tame, and an environment that
    dies has nothing where `env_free` does not look. -/
def Tame (s : Kernel) : Event → Prop
  | .call c e tf =>
    ((s.envs e).envStatus = .dying → s.vm.TailFree s.roots e) ∧
      (entered s c e tf).Tame e (Call.decode tf.regs)
  | _ => True

/-- For the trap of a tame call only the call matters. -/
theorem tameTrap_of {c e : Nat} {tf : Trapframe} (hno : tf.trapno.toNat = 48)
    (h : Tame s (.call c e tf)) : (s.setCpuEnv c (some e)).TameTrap e tf :=
  ⟨h.1, fun h14 => by omega, fun n hn _ _ h48 => absurd (hn.symm.trans hno) h48, fun _ => h.2⟩

/-- The call of the step stores only flags that `P` allows. -/
def PermOk (P : Pte → Prop) (s : Kernel) : Event → Prop
  | .call c e tf => Kernel.PermOk P (entered s c e tf) e (Call.decode tf.regs)
  | _ => True

/-- What `P` must allow anyway, with the hardware's notes. -/
structure Allows (P : Pte → Prop) : Prop extends Kernel.Permits P where
  access : ∀ w (dirty : Bool), P w → P (w ||| if dirty then pteA ||| pteD else pteA)

theorem step_inv (hP : Allows P) {ev : Event} (h : s.MemInv pool mem0 P) (htame : Tame s ev)
    (hperm : PermOk P s ev) (hstep : step s ev = some s') : s'.MemInv pool mem0 P := by
  cases ev with
  | create type entry segs =>
    rcases step_create hstep with ⟨hsegs, hrun⟩
    exact Kernel.envCreate_inv h hsegs
      (fun pp => ⟨hP.syscall pp 7 (by decide), hP.syscall pp 6 (by decide)⟩) hrun
  | store e va b =>
    rcases step_store hstep with ⟨hva, root, m, hroot, hm, rfl⟩
    exact Kernel.MemInv.storeByte hroot s.vm m va b h hva hm
  | touch e va dirty =>
    rcases step_touch hstep with ⟨hva, root, m, hroot, hm, rfl⟩
    rcases h.wf with ⟨kind, hwf, hpdp⟩
    rcases hwf.markAccess hroot hva hm with ⟨hwf', hmap⟩
    refine h.setVm ⟨kind, hwf', hpdp⟩ ?_
    -- the flags of the one entry are those that `P` allows
    intro x
    rw [hmap]
    by_cases hx : x = (e, va / pgSize)
    · rw [hx, Function.update_self]
      exact hP.access _ dirty (h.leaves _)
    · rw [Function.update_of_ne hx]
      exact h.leaves x
  | call c e tf =>
    simp only [step] at hstep
    rcases Option.ite_none_right_eq_some.1 hstep with ⟨hcond, hstep⟩
    rw [Lib.Flow.exit?_eq_some] at hstep
    have h1 : (s.setCpuEnv c (some e)).MemInv pool mem0 P :=
      h.congr (.setCpuEnv s c (some e))
    have hsat := Kernel.trap_inv (c := c) hP.toPermits h1 tf 0 (by simp)
      (tameTrap_of hcond.2.1 htame) fun _ => hperm
    rwa [hstep] at hsat

/-- A state after `page_init` and `env_init`: the free pages are some of those
    that `page_init` finds free and have no references, the kernel's tables are
    not among them, and there are no environments. -/
structure Booted (kernelEnd : Nat) (s : Kernel) : Prop where
  envs : s = Kernel.envInit s.vm s.bootPml4e
  list : s.vm.pageFreeList.Sublist (Vm.pageInit s.vm.npages kernelEnd)
  refs : ∀ p, p ∈ s.vm.pageFreeList → s.vm.ppRef p = 0
  tables : BootTables (fun p => p ∈ s.vm.pageFreeList) s.vm.mem s.bootPml4e
  size : s.vm.npages ≤ 2 ^ 52

/-- `page_init` lists each page once and leaves page 0 out. -/
theorem pageInit_spec (npages kernelEnd : Nat) :
    (Vm.pageInit npages kernelEnd).Nodup ∧
      ∀ p, p ∈ Vm.pageInit npages kernelEnd → 0 < p ∧ p < npages := by
  refine ⟨?_, ?_⟩
  · unfold Vm.pageInit
    rw [List.nodup_reverse]
    exact List.nodup_range.filter _
  · intro p hp
    unfold Vm.pageInit at hp
    rw [List.mem_reverse, List.mem_filter, List.mem_range] at hp
    refine ⟨?_, hp.1⟩
    by_contra hz
    have h0 : p = 0 := by omega
    rw [h0] at hp
    exact absurd hp.2 (by simp [Vm.pageInitFree])

/-- Nothing is mapped and nothing refers to a page when the system starts. -/
theorem booted_inv (hzero : P 0) (hb : Booted kernelEnd s) :
    s.MemInv (fun p => p ∈ s.vm.pageFreeList) s.vm.mem P := by
  have hroots : ∀ e, s.roots e = none := by
    intro e
    rw [hb.envs]
    rfl
  have hent : ∀ x, entry ppn s.roots s.vm.mem x = 0 := by
    intro x
    simp [entry, hroots]
  have hspec := pageInit_spec s.vm.npages kernelEnd
  have hlist : s.envFreeList = List.range nenv := by
    rw [hb.envs, Kernel.envInit]
  have hlab : ∀ p, labels (fun p => if p ∈ s.vm.pageFreeList then Kind.free else .kernel) p =
      none := by
    intro p
    simp only [labels]
    split <;> rfl
  -- without address spaces a page is free or the kernel's
  refine ⟨⟨fun p => if p ∈ s.vm.pageFreeList then .free else .kernel, ?_, ?_⟩, ?_, ?_, ?_,
    hb.tables, ?_⟩
  · refine ⟨⟨?_, ?_, ?_⟩, ?_, ?_, fun _ _ _ => rfl, ?_, hb.size, hb.list.nodup hspec.1, ?_, ?_, ?_,
      ?_⟩
    · intro e r
      rw [hroots, hlab]
      simp
    · intro p e π k hp
      rw [hlab] at hp
      cases hp
    · intro p e k π hp
      rw [hlab] at hp
      cases hp
    · intro e r hr
      rw [hroots] at hr
      cases hr
    · intro p
      by_cases hp : p ∈ s.vm.pageFreeList
      · simp [hp]
      · simp [hp]
    · intro p hp
      exact hspec.2 p (hb.list.subset hp)
    · intro p
      by_cases hp : p ∈ s.vm.pageFreeList
      · simp [hp]
      · simp [hp]
    · intro e π _ _ hne
      exact absurd (hent _) hne
    · intro e π _ _ hne
      exact absurd (hent _) hne
    · intro p hp
      have hz : s.vm.refCount s.roots p = 0 := by
        rw [Vm.refCount, Lib.Refs.count_eq_zero]
        intro x _ hc
        unfold Vm.ref at hc
        split at hc
        · rw [hroots] at hc
          cases hc
        · rw [hent, target_zero] at hc
          cases hc
      rw [hb.refs p hp, hz]
      rfl
  · intro e r hr
    rw [hroots] at hr
    cases hr
  · intro e r hr
    rw [hroots] at hr
    cases hr
  · rw [hlist]
    exact List.nodup_range
  · intro e he
    rw [hlist, List.mem_range] at he
    exact ⟨hroots e, he⟩
  · intro x
    unfold Kernel.maps Vm.leafMap
    rw [hent]
    simp only [ite_self]
    exact hzero

/-- In every run whose calls are tame and store only allowed flags, memory is in
    order. -/
theorem run_inv (hP : Allows P) {s0 : Kernel} (hb : Booted kernelEnd s0)
    (hrun : Run step (fun s ev => Tame s ev ∧ PermOk P s ev) s0 s) :
    s.MemInv (fun p => p ∈ s0.vm.pageFreeList) s0.vm.mem P :=
  Run.invariant (Kernel.MemInv (fun p => p ∈ s0.vm.pageFreeList) s0.vm.mem P)
    (fun _ _ _ h hc hs => step_inv hP h hc.1 hc.2 hs) hrun
    (booted_inv hP.zero hb)

/-! ## Concrete runs -/

/-- The small machine with an empty table. -/
def start : Kernel := Kernel.envInit bootVm 1

theorem booted_start : Booted 0x100000 start := by
  have hdir : ppn (bootVm.mem (ppn (bootVm.mem 1 0)) 3) = 3 := by decide
  refine ⟨rfl, by decide, fun _ _ => rfl, ⟨?_, ?_, ?_, ?_⟩, by decide⟩
  · change ¬1 ∈ bootVm.pageFreeList
    decide
  · change ¬ppn (bootVm.mem 1 0) ∈ bootVm.pageFreeList
    decide
  · change ¬ppn (bootVm.mem (ppn (bootVm.mem 1 0)) 3) ∈ bootVm.pageFreeList
    decide
  · intro i hi
    change bootVm.mem (ppn (bootVm.mem (ppn (bootVm.mem 1 0)) 3)) i = 0
    have hne : i ≠ 380 := by omega
    rw [hdir]
    simp [bootVm, hne]

/-- The frame with which a program asks `sys_page_map` for another mapping of its
    own memory. -/
def remapFrame (srcva dstva : Nat) (perm : BitVec 64) : Trapframe :=
  { Kernel.initialTf with
    trapno := 48
    regs := { rax := 5, rcx := BitVec.ofNat 64 srcva, rdi := BitVec.ofNat 64 dstva, rsi := perm } }

/-- The first environment does so. -/
def remap (srcva dstva : Nat) (perm : BitVec 64) : Event := .call 0 0 (remapFrame srcva dstva perm)

/-- The stack page of an environment, and two pages below it that are not mapped. -/
def stackva : Nat := ustacktop - pgSize
def emptyva : Nat := ustacktop - 2 * pgSize
def lowva : Nat := ustacktop - 3 * pgSize

/-- An environment starts and maps its stack page a second time. -/
theorem run_remap : ∃ s1 s, step start (.create .user 0x800020 []) = some s1 ∧
    (s1.envs 0).envStatus = .runnable ∧
    (∀ g ∈ (entered s1 0 0 (remapFrame stackva lowva 7)).inserting 0
      (Call.decode (remapFrame stackva lowva 7).regs),
        (entered s1 0 0 (remapFrame stackva lowva 7)).CanMap g) ∧
    (∀ g ∈ (entered s1 0 0 (remapFrame stackva lowva 7)).inserting 0
      (Call.decode (remapFrame stackva lowva 7).regs),
        g.perm &&& ~~~0xE07 = 0 ∧ (g.perm &&& 2 ≠ 0 → hasFlags (g.source s1) pteW = true)) ∧
    step s1 (remap stackva lowva 7) = some s ∧ s.vm.ppRef 56 = 2 ∧
    s.maps (0, lowva / pgSize) = 0x38007 := by
  have hobs : (step start (.create .user 0x800020 [])).map (fun s1 =>
      ((s1.envs 0).envStatus,
        decide (∀ g ∈ (entered s1 0 0 (remapFrame stackva lowva 7)).inserting 0
          (Call.decode (remapFrame stackva lowva 7).regs),
            (entered s1 0 0 (remapFrame stackva lowva 7)).CanMap g),
        decide (∀ g ∈ (entered s1 0 0 (remapFrame stackva lowva 7)).inserting 0
          (Call.decode (remapFrame stackva lowva 7).regs),
            g.perm &&& ~~~0xE07 = 0 ∧ (g.perm &&& 2 ≠ 0 → hasFlags (g.source s1) pteW = true)),
        (step s1 (remap stackva lowva 7)).map fun s =>
          (s.vm.ppRef 56, s.maps (0, lowva / pgSize)))) =
      some (EnvStatus.runnable, true, true, some (2, 0x38007)) := by
    decide +kernel
  rw [Option.map_eq_some_iff] at hobs
  rcases hobs with ⟨s1, hcreate, hobs⟩
  simp only [Prod.mk.injEq, Option.map_eq_some_iff, decide_eq_true_eq] at hobs
  rcases hobs with ⟨halive, hcan, hstrict, s, hcall, href, hmap⟩
  exact ⟨s1, s, hcreate, halive, hcan, hstrict, hcall, href, hmap⟩

theorem tame_remap (halive : (s.envs 0).envStatus = .runnable)
    (hcan : ∀ g ∈ (entered s 0 0 (remapFrame stackva lowva 7)).inserting 0
      (Call.decode (remapFrame stackva lowva 7).regs),
        (entered s 0 0 (remapFrame stackva lowva 7)).CanMap g) :
    Tame s (remap stackva lowva 7) := by
  refine ⟨fun hdy => ?_, hcan, trivial⟩
  rw [halive] at hdy
  cases hdy

/-! ## Reference counts -/

/-- A page of the allocator has as many references as there are places that
    refer to it, and nothing refers to a page on the free list. -/
structure Counted (pool : Nat → Prop) (s : Kernel) : Prop where
  refs : ∀ p, pool p → (s.vm.ppRef p).toNat = s.vm.refCount s.roots p
  free : ∀ p, p ∈ s.vm.pageFreeList → ∀ x ∈ places, s.vm.ref s.roots x ≠ some p

theorem allows_all : Allows (fun _ => True) :=
  ⟨⟨trivial, fun _ _ _ => trivial⟩, fun _ _ _ => trivial⟩

/-- In every run of tame calls the reference counts are right. -/
theorem ppRef_eq_refCount (kernelEnd : Nat) (s0 s : Kernel) (hb : Booted kernelEnd s0)
    (hrun : Run step Tame s0 s) : Counted (fun p => p ∈ s0.vm.pageFreeList) s := by
  have hrun' : Run step (fun s ev => Tame s ev ∧ PermOk (fun _ => True) s ev) s0 s := by
    refine hrun.mono ?_
    intro s ev h
    refine ⟨h, ?_⟩
    cases ev with
    | call c e tf => exact fun _ _ _ => trivial
    | _ => trivial
  rcases (run_inv allows_all hb hrun').wf with ⟨kind, hwf, _⟩
  refine ⟨?_, ?_⟩
  · intro p hp
    rw [hwf.count p hp, if_neg (by simp), Nat.add_zero]
  · intro p hp x hx href
    have hfree := (hwf.free p).1 hp
    rcases hwf.kind_of_ref hx href with hk | hk
    · rw [hfree] at hk
      simp at hk
    · rw [hfree] at hk
      cases hk

/-- An environment starts and maps its stack page, page 56, a second time: the
    page has two references and two places. -/
theorem ppRef_eq_refCount_remap : ∃ s, Run step Tame start s ∧ (s.vm.ppRef 56).toNat = 2 ∧
    s.vm.refCount s.roots 56 = 2 := by
  rcases run_remap with ⟨s1, s, hcreate, halive, hcan, _, hcall, href, _⟩
  have hrun : Run step Tame start s :=
    (Relation.ReflTransGen.single ⟨.create .user 0x800020 [], trivial, hcreate⟩).tail
      ⟨remap stackva lowva 7, tame_remap halive hcan, hcall⟩
  have hcount := ppRef_eq_refCount 0x100000 start s booted_start hrun
  have hpool : 56 ∈ start.vm.pageFreeList := by decide
  have htwo : (s.vm.ppRef 56).toNat = 2 := by
    rw [href]
    rfl
  exact ⟨s, hrun, htwo, (hcount.refs 56 hpool).symm.trans htwo⟩

/-- `sys_page_map` with the address of page 21 in `perm` and a source that is not
    mapped: page 21 is on the free list and mapped. -/
theorem ppRef_ne_refCount : ∃ s, Booted 0x100000 start ∧
    Run step (fun _ _ => True) start s ∧ 21 ∈ s.vm.pageFreeList ∧
    ¬Counted (fun p => p ∈ start.vm.pageFreeList) s := by
  have hrun : (runEvents step start [.create .user 0x800020 [],
      remap emptyva lowva 0x15007]).map (fun s =>
        (decide (21 ∈ s.vm.pageFreeList),
          s.vm.ref s.roots (0, leafPath lowva))) = some (true, some 21) := by
    decide +kernel
  rw [Option.map_eq_some_iff] at hrun
  rcases hrun with ⟨s, hs, hobs⟩
  rw [Prod.mk.injEq, decide_eq_true_eq] at hobs
  refine ⟨s, booted_start, Run.of_runEvents _ _ hs, hobs.1, ?_⟩
  intro hc
  have hplace : (0, leafPath lowva) ∈ places :=
    (mem_places _).2 ⟨by decide, leafPath_ok (by decide), by decide⟩
  exact hc.free 21 hobs.1 _ hplace hobs.2

/-! ## Isolation -/

/-- The low bits are among those user programs may set and those the hardware
    sets. -/
def UserFlags (w : Pte) : Prop := w &&& 0xFFF &&& ~~~(pteSyscall ||| pteA ||| pteD) = 0

instance (w : Pte) : Decidable (UserFlags w) := inferInstanceAs (Decidable (_ = _))

theorem userFlags_iff (w : Pte) :
    UserFlags w ↔ ∀ i, i < 12 → w.getLsbD i = true →
      (pteSyscall ||| pteA ||| pteD).getLsbD i = true := by
  have hlow : ∀ j : Fin 64, (0xFFF : Pte).getLsbD j = decide (j.val < 12) := by decide
  rw [UserFlags, and_not_eq_zero_iff]
  constructor
  · intro h i hi hw
    refine h i ?_
    rw [BitVec.getLsbD_and, hw, hlow ⟨i, by omega⟩]
    simpa using hi
  · intro h i hw
    rw [BitVec.getLsbD_and, Bool.and_eq_true] at hw
    have hi := hlow ⟨i, BitVec.lt_of_getLsbD hw.1⟩
    exact h i (of_decide_eq_true (hi.symm.trans hw.2)) hw.1

/-- The bits of the entry that `page_insert` stores, below the address. -/
theorem insertedEntry_bit (pp : Nat) (perm : BitVec 32) (i : Nat) (hi : i < 12) :
    (Vm.insertedEntry pp perm).getLsbD i = (perm ||| 1).getLsbD i := by
  rw [Vm.insertedEntry, BitVec.getLsbD_or, page2pa, BitVec.getLsbD_shiftLeft,
    BitVec.getLsbD_signExtend]
  have h32 : i < 32 := by omega
  have h64 : i < 64 := by omega
  simp [hi, h32, h64]

theorem allows_userFlags : Allows UserFlags := by
  refine ⟨⟨by decide, ?_⟩, ?_⟩
  · intro pp perm hperm
    rw [userFlags_iff]
    intro i hi hw
    rw [insertedEntry_bit pp perm i hi, BitVec.getLsbD_or, Bool.or_eq_true] at hw
    have hmask : ∀ j : Fin 12, (0xE07 : BitVec 32).getLsbD j = true ∨
        (1 : BitVec 32).getLsbD j = true → (pteSyscall ||| pteA ||| pteD).getLsbD j = true := by
      decide
    exact hmask ⟨i, hi⟩ (hw.imp_left ((and_not_eq_zero_iff perm 0xE07).1 hperm i))
  · intro w dirty hw
    rw [userFlags_iff] at hw ⊢
    intro i hi hbit
    rw [BitVec.getLsbD_or, Bool.or_eq_true] at hbit
    rcases hbit with hbit | hbit
    · exact hw i hi hbit
    · -- what the hardware sets is allowed
      have hmask : ∀ (d : Bool) (j : Fin 12), (if d then pteA ||| pteD else pteA).getLsbD j = true →
          (pteSyscall ||| pteA ||| pteD).getLsbD j = true := by
        decide
      exact hmask dirty ⟨i, hi⟩ hbit

theorem hasFlags_insertedEntry (pp : Nat) (perm : BitVec 32)
    (h : hasFlags (Vm.insertedEntry pp perm) pteW = true) : perm &&& 2 ≠ 0 := by
  intro hz
  rw [hasFlags, beq_iff_eq] at h
  have hbit := congrArg (fun v : BitVec 64 => v.getLsbD 1) h
  have hperm := congrArg (fun v : BitVec 32 => v.getLsbD 1) hz
  simp only [BitVec.getLsbD_and, insertedEntry_bit pp perm 1 (by omega), BitVec.getLsbD_or] at hbit
  simp only [BitVec.getLsbD_and] at hperm
  have hw : pteW.getLsbD 1 = true := by decide
  have h1 : (1 : BitVec 32).getLsbD 1 = false := by decide
  have h2 : (2 : BitVec 32).getLsbD 1 = true := by decide
  rw [hw, h1, Bool.or_false, Bool.and_true] at hbit
  rw [hbit, h2] at hperm
  cases hperm

/-- What a user mapping may be: its page is one of the allocator's, handed out
    and not used for a page table, and its flags are those of users. -/
structure UserEntry (pool : Nat → Prop) (s : Kernel) (w : Pte) : Prop where
  pool : pool (ppn w)
  zero : ppn w ≠ 0
  used : ppn w ∉ s.vm.pageFreeList
  table : ∀ x ∈ places, x.2.length < 4 → s.vm.ref s.roots x ≠ some (ppn w)
  flags : UserFlags w

/-- The call asks only for flags that user programs may set, and for write access
    only to what is mapped writable. -/
def Strict (s : Kernel) : Event → Prop
  | .call c e tf => ∀ g ∈ (entered s c e tf).inserting e (Call.decode tf.regs),
      g.perm &&& ~~~0xE07 = 0 ∧ (g.perm &&& 2 ≠ 0 → hasFlags (g.source s) pteW = true)
  | _ => True

/-- The calls that map a page of one environment in another. -/
def Maps : Call → Bool
  | .pageMap _ _ _ _ _ | .ipcTrySend _ _ _ _ => true
  | _ => false

theorem sameMem_entered (s : Kernel) (c e : Nat) (tf : Trapframe) : s.SameMem (entered s c e tf) :=
  ⟨rfl, (Kernel.SameMem.setEnv { s.envs e with envTf := tf } rfl
    rfl).root, (Kernel.SameMem.setEnv { s.envs e with envTf := tf } rfl
    rfl).cr3, rfl, rfl⟩

/-- What holds of memory after the call, or after a dying environment was freed, holds
    when the CPU is back in user mode. -/
theorem call_rule {c e : Nat} {tf : Trapframe} (J : Kernel → Prop)
    (hJ : ∀ t t' : Kernel, t.SameMem t' → J t → J t')
    (hquit : (s.envs e).envStatus = .dying → ((s.setCpuEnv c (some e)).envQuit c e).Sat
      (fun (_ : Unit) _ => False) J (fun _ => True))
    (hcall : (s.envs e).envStatus ≠ .dying →
      ((entered s c e tf).syscall c e (Call.decode tf.regs)).Ensures J)
    (hstep : step s (.call c e tf) = some s') : J s' := by
  simp only [step] at hstep
  rcases Option.ite_none_right_eq_some.1 hstep with ⟨hcond, hstep⟩
  rw [Lib.Flow.exit?_eq_some] at hstep
  have htf : ((entered s c e tf).envs e).envTf = tf := by
    rw [entered, Kernel.setEnv_envs, Function.update_self]
  have hsat : ((s.setCpuEnv c (some e)).trap c tf 0).Sat (fun _ _ => False) J
      (fun _ => True) := by
    by_cases hdy : (s.envs e).envStatus = .dying
    · rw [Kernel.trap_dying (s := s.setCpuEnv c (some e)) tf 0 (by simp) hdy]
      exact hquit hdy
    · exact Kernel.trap_rule (s := s.setCpuEnv c (some e)) (c := c) 0 (by simp) hdy J hJ
        (Kernel.trapDispatch_call (s := entered s c e tf) 0 (by rw [htf]; exact hcond.2.1) hJ
          (by rw [htf]; exact hcall hdy))
  rwa [hstep] at hsat

/-- What a call that maps a page does to the maps, seen from user mode. -/
theorem step_maps {c e : Nat} {tf : Trapframe} (h : s.MemInv pool mem0 P)
    (htame : Tame s (.call c e tf)) (hperm : PermOk P s (.call c e tf))
    (halive : (s.envs e).envStatus ≠ .dying) (hmaps : Maps (Call.decode tf.regs) = true)
    (hstep : step s (.call c e tf) = some s') :
    (entered s c e tf).MapEffect e (Call.decode tf.regs) s' := by
  refine call_rule _ (fun _ _ hs ht => ht.congr hs) (fun hdy => absurd hdy halive) (fun _ => ?_)
    hstep
  have h1 := h.congr (sameMem_entered s c e tf)
  have htame1 := htame.2
  have hperm1 : Kernel.PermOk P (entered s c e tf) e (Call.decode tf.regs) := hperm
  generalize Call.decode tf.regs = call at *
  cases call with
  | pageMap srcenvid srcva dstenvid dstva perm =>
    exact (Kernel.sysPageMap_step _ e srcenvid srcva dstenvid dstva perm).mono
      (fun _ _ hs => (hs.inv h1 htame1 hperm1).2) (fun _ hf => hf.elim) (fun _ ht => ht)
  | ipcTrySend envid value srcva perm =>
    exact (Kernel.sysIpcTrySend_step _ e envid value srcva perm).mono
      (fun _ _ hs => (hs.inv h1 htame1 hperm1).2) (fun _ hf => hf.elim) (fun _ ht => ht)
  | _ => exact absurd hmaps (by simp [Maps])

/-- In every run of tame and strict calls every user mapping is isolated, and a
    further such call changes at most the entry it asks for, to the page of its
    source, writable only if the source is. -/
theorem maps_isolated (kernelEnd : Nat) (s0 s : Kernel) (hb : Booted kernelEnd s0)
    (hrun : Run step (fun s ev => Tame s ev ∧ Strict s ev) s0 s) :
    (∀ e va, va < utop → hasFlags (s.maps (e, va / pgSize)) (pteP ||| pteU) = true →
      UserEntry (fun p => p ∈ s0.vm.pageFreeList) s (s.maps (e, va / pgSize))) ∧
    ∀ c e tf s', Tame s (.call c e tf) → Strict s (.call c e tf) →
      (s.envs e).envStatus ≠ .dying → Maps (Call.decode tf.regs) = true →
      step s (.call c e tf) = some s' → ∀ x, s'.maps x = s.maps x ∨
        ∃ g ∈ (entered s c e tf).mapping e (Call.decode tf.regs), x = g.dest ∧
          ppn (s'.maps x) = ppn (g.source s) ∧
          (hasFlags (s'.maps x) pteW = true → hasFlags (g.source s) pteW = true) := by
  have hok : ∀ s ev, Strict s ev → PermOk UserFlags s ev := by
    intro s ev hev
    cases ev with
    | call c e tf => exact fun g hg pp => allows_userFlags.syscall pp g.perm (hev g hg).1
    | _ => trivial
  have hinv := run_inv allows_userFlags hb
    (hrun.mono fun s ev h => ⟨h.1, hok s ev h.2⟩)
  refine ⟨?_, ?_⟩
  · intro e va hva hpres
    rcases hinv.wf with ⟨kind, hwf, _⟩
    have hne : s.maps (e, va / pgSize) ≠ 0 := by
      intro hz
      rw [hz] at hpres
      cases hpres
    have huser := hwf.kind_of_leafMap hva hne
    have hpool := hwf.pool_of_kind (by rw [huser]; simp)
    refine ⟨hpool, (hwf.bound _ hpool).1.ne', ?_, ?_, hinv.leaves _⟩
    · intro hfree
      rw [hwf.free] at hfree
      cases (huser.symm.trans hfree)
    · -- a place above the leaves refers to a table
      intro x hx hlen href
      rcases hwf.kind_of_ref hx href with ⟨_, h4⟩ | hk
      · omega
      · cases (huser.symm.trans hk)
  · intro c e tf s' htame hstrict halive hmaps hstep x
    have hsame := sameMem_entered s c e tf
    have hsource : ∀ g : Kernel.Mapping, g.source (entered s c e tf) = g.source s := by
      intro g
      rw [Kernel.Mapping.source, hsame.maps]
      rfl
    rcases step_maps hinv htame (hok s _ hstrict) halive hmaps hstep with
      heq | ⟨g, hg, hmapped⟩
    · rw [heq, hsame.maps]
      exact .inl rfl
    · have hmap := Kernel.mapping_of_inserting hg
      rw [Kernel.Mapped, hsource, hsame.maps] at hmapped
      by_cases hx : x = g.dest
      · have hentry : s'.maps x = Vm.insertedEntry (ppn (g.source s)) g.perm := by
          rw [hmapped, hx, Function.update_self]
        have hspec := Vm.insertedEntry_spec (ppn (g.source s)) g.perm (ppn_lt _)
          (htame.2.1 g hg).flags
        refine .inr ⟨g, hmap, hx, hentry ▸ hspec.1, ?_⟩
        intro hw
        rw [hentry] at hw
        exact (hstrict g hg).2 (hasFlags_insertedEntry _ _ hw)
      · rw [hmapped, Function.update_of_ne hx]
        exact .inl rfl

/-- An environment starts and maps its stack page a second time: the new mapping
    is isolated. -/
theorem maps_isolated_remap : ∃ s,
    Run step (fun s ev => Tame s ev ∧ Strict s ev) start s ∧
    s.maps (0, lowva / pgSize) = 0x38007 ∧
    UserEntry (fun p => p ∈ start.vm.pageFreeList) s (s.maps (0, lowva / pgSize)) := by
  rcases run_remap with ⟨s1, s, hcreate, halive, hcan, hstrict, hcall, _, hmap⟩
  have hrun : Run step (fun s ev => Tame s ev ∧ Strict s ev) start s :=
    (Relation.ReflTransGen.single
      ⟨.create .user 0x800020 [], ⟨trivial, trivial⟩, hcreate⟩).tail
      ⟨remap stackva lowva 7, ⟨tame_remap halive hcan, hstrict⟩, hcall⟩
  refine ⟨s, hrun, hmap, ?_⟩
  refine (maps_isolated 0x100000 start s booted_start hrun).1 0 lowva (by decide) ?_
  rw [hmap]
  decide

/-- `sys_page_map` from a slot that is empty: page 0 is mapped for the user to
    write to. -/
theorem maps_not_isolated : ∃ s, Booted 0x100000 start ∧
    Run step (fun _ _ => True) start s ∧
    hasFlags (s.maps (0, lowva / pgSize)) (pteP ||| pteU ||| pteW) = true ∧
    ppn (s.maps (0, lowva / pgSize)) = 0 ∧
    ¬UserEntry (fun p => p ∈ start.vm.pageFreeList) s (s.maps (0, lowva / pgSize)) := by
  have hrun : (runEvents step start [.create .user 0x800020 [],
      remap emptyva lowva 7]).map (fun s => s.maps (0, lowva / pgSize)) = some 7 := by
    decide +kernel
  rw [Option.map_eq_some_iff] at hrun
  rcases hrun with ⟨s, hs, hmap⟩
  refine ⟨s, booted_start, Run.of_runEvents _ _ hs, ?_, ?_, ?_⟩
  · rw [hmap]
    decide
  · rw [hmap]
    decide
  · intro hentry
    refine hentry.zero ?_
    rw [hmap]
    decide

end Mem
end Jos
