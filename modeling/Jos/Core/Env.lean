import Jos.Core.Pmap
import Jos.Lib.Flow

/-!
# Environments

The environment table of `kern/env.c` and the scheduler of `kern/sched.c`. The
state of the machine is a `Kernel`: the page tables, the `envs` array with its
free list, and for each CPU the environment it runs (`cpu_env`).

A kernel function need not return to its caller. It may leave the kernel
through `env_run`, or stop the machine by a panic or in the monitor; `Flow` has
a case for each. The big kernel lock is held from the entry of a CPU to its
`env_run`, so each entry is one step of the machine.

The fields that no modelled function reads are left out: `env_runs`,
`env_cpunum`, and the `env_link` pointers, which `envFreeList` replaces.

## Main definitions

* `Trapframe`, `Env`, `Kernel`, `Flow`: The state.
* `Kernel.envid2env`, `Kernel.envAlloc`, `Kernel.envCreate`: Making and naming
  environments.
* `Kernel.envFree`, `Kernel.envDestroy`: Destroying them.
* `Kernel.envRun`, `Kernel.schedYield`: Running them.
-/

namespace Jos

def nenv : Nat := 1024

/-- `NCPU`, which is also the number of idle environments. -/
def ncpu : Nat := 8

inductive EnvStatus
  | free | dying | runnable | running | notRunnable
  deriving DecidableEq, Repr

inductive EnvType
  | user | idle | fs | ns
  deriving DecidableEq, Repr

/-- `struct PushRegs` -/
structure PushRegs where
  r15 : BitVec 64 := 0
  r14 : BitVec 64 := 0
  r13 : BitVec 64 := 0
  r12 : BitVec 64 := 0
  r11 : BitVec 64 := 0
  r10 : BitVec 64 := 0
  r9 : BitVec 64 := 0
  r8 : BitVec 64 := 0
  rsi : BitVec 64 := 0
  rdi : BitVec 64 := 0
  rbp : BitVec 64 := 0
  rdx : BitVec 64 := 0
  rcx : BitVec 64 := 0
  rbx : BitVec 64 := 0
  rax : BitVec 64 := 0
  deriving DecidableEq

/-- `struct Trapframe`, without its padding. -/
structure Trapframe where
  regs : PushRegs := {}
  es : BitVec 16 := 0
  ds : BitVec 16 := 0
  trapno : BitVec 64 := 0
  err : BitVec 64 := 0
  rip : BitVec 64 := 0
  cs : BitVec 16 := 0
  eflags : BitVec 64 := 0
  rsp : BitVec 64 := 0
  ss : BitVec 16 := 0
  deriving DecidableEq

/-- `struct Env`. `envPml4e` is the page the pointer of that name leads to and
    `envCr3` the page `env_cr3` names. -/
structure Env where
  envTf : Trapframe := {}
  envId : BitVec 32 := 0
  envParentId : BitVec 32 := 0
  envType : EnvType := .user
  envStatus : EnvStatus := .free
  envPml4e : Option Nat := none
  envCr3 : Nat := 0
  envPgfaultUpcall : BitVec 64 := 0
  envIpcRecving : Bool := false
  envIpcDstva : Nat := 0
  envIpcValue : BitVec 32 := 0
  envIpcFrom : BitVec 32 := 0
  envIpcPerm : BitVec 32 := 0

/-- One call of `env_free`: by which CPU, for which environment, and what each
    CPU was running. -/
structure FreeEvent where
  cpu : Nat
  env : Nat
  cpuEnv : Nat → Option Nat

/-- The rings of `kern/e1000.c`: the tail registers and the descriptors with
    their packet buffers. -/
structure E1000 where
  tdt : Nat
  rdt : Nat
  txDd : Nat → Bool
  txPkt : Nat → List (BitVec 8)
  rcvDd : Nat → Bool
  rcvEop : Nat → Bool
  rcvPkt : Nat → List (BitVec 8)

/-- The state of the machine. The slots of `envs` from `nenv` on stand for the
    memory behind the array, which the scheduler can reach. `freed` records the
    calls of `env_free`; nothing reads it. -/
structure Kernel where
  vm : Vm
  bootPml4e : Nat
  envs : Nat → Env
  envFreeList : List Nat
  cpuEnv : Nat → Option Nat
  ticks : BitVec 32
  cons : List (BitVec 8)
  e1000 : E1000
  freed : List FreeEvent

/-- `env_init`: all slots are free and chained in order, no CPU runs anything.
    The memory behind the array is taken to be zero. -/
def Kernel.envInit (m : Vm) (bootPml4e : Nat) : Kernel where
  vm := m
  bootPml4e := bootPml4e
  envs := fun _ => {}
  envFreeList := List.range nenv
  cpuEnv := fun _ => none
  ticks := 0
  cons := []
  e1000 := ⟨0, 0, fun _ => true, fun _ => [], fun _ => false, fun _ => false, fun _ => []⟩
  freed := []

/-- The outcome of a kernel function: it returns to its caller, it leaves the
    kernel for user mode through `env_run`, or the machine stops. -/
abbrev Flow (α : Type) := Lib.Flow Kernel α

namespace Kernel

/-- Replace an entry of `envs`. -/
def setEnv (s : Kernel) (e : Nat) (v : Env) : Kernel :=
  { s with envs := Function.update s.envs e v }

/-- Assign an `env_status`. -/
def setStatus (s : Kernel) (e : Nat) (st : EnvStatus) : Kernel :=
  s.setEnv e { s.envs e with envStatus := st }

/-- Assign `curenv` of a CPU. -/
def setCpuEnv (s : Kernel) (c : Nat) (e : Option Nat) : Kernel :=
  { s with cpuEnv := Function.update s.cpuEnv c e }

section

variable (s : Kernel) (e c : Nat) (v : Env) (cur : Option Nat)

@[simp] theorem setEnv_envs : (s.setEnv e v).envs = Function.update s.envs e v := rfl
@[simp] theorem setEnv_cpuEnv : (s.setEnv e v).cpuEnv = s.cpuEnv := rfl
@[simp] theorem setEnv_envFreeList : (s.setEnv e v).envFreeList = s.envFreeList := rfl
@[simp] theorem setEnv_vm : (s.setEnv e v).vm = s.vm := rfl
@[simp] theorem setEnv_bootPml4e : (s.setEnv e v).bootPml4e = s.bootPml4e := rfl
@[simp] theorem setEnv_freed : (s.setEnv e v).freed = s.freed := rfl
@[simp] theorem setCpuEnv_envs : (s.setCpuEnv c cur).envs = s.envs := rfl
@[simp] theorem setCpuEnv_cpuEnv :
    (s.setCpuEnv c cur).cpuEnv = Function.update s.cpuEnv c cur := rfl
@[simp] theorem setCpuEnv_envFreeList : (s.setCpuEnv c cur).envFreeList = s.envFreeList := rfl
@[simp] theorem setCpuEnv_vm : (s.setCpuEnv c cur).vm = s.vm := rfl
@[simp] theorem setCpuEnv_freed : (s.setCpuEnv c cur).freed = s.freed := rfl

end

/-! ## Names of environments -/

/-- `envid2env`, with `none` for `-E_BAD_ENV`; `cur` is the current environment. -/
def envid2env (s : Kernel) (cur : Nat) (envid : BitVec 32) (checkperm : Bool) : Option Nat :=
  if envid = 0 then some cur
  else
    let e := envid.toNat % nenv
    if (s.envs e).envStatus = .free ∨ (s.envs e).envId ≠ envid then none
    else if checkperm ∧ e ≠ cur ∧ (s.envs e).envParentId ≠ (s.envs cur).envId then none
    else some e

/-! ## Creation -/

end Kernel

namespace Vm

/-- `for (i = lo; i < NPDENTRIES; i++) dst[i] = src[i];` -/
def copyEntries (m : Vm) (dst src lo : Nat) : Vm :=
  { m with mem := fun q i => if q = dst ∧ lo ≤ i ∧ i < 512 then m.mem src i else m.mem q i }

/-- `env_setup_vm`: the root of a new address space, or `none` for `-E_NO_MEM`.
    The pages taken before a failed allocation are not given back. The copied
    range starts at `PTX(UTOP)`, which is 0. -/
def envSetupVm (m : Vm) (bootPml4e : Nat) : Option (Option Nat × Vm) :=
  match m.pageAlloc true with
  | (none, m) => some (none, m)
  | (some p, m) =>
    match m.pageAlloc true with
    | (none, m) => some (none, m)
    | (some p2, m) =>
      match m.pageAlloc true with
      | (none, m) => some (none, m)
      | (some p3, m) =>
        let m := m.setEntry p (pml4 utop) (page2pa p2 ||| 7)
        let m := m.setEntry p2 (pdpe utop) (page2pa p3 ||| 7)
        let m := m.setRef p (m.ppRef p + 1)
        let m := m.setRef p2 (m.ppRef p2 + 1)
        let m := m.setRef p3 (m.ppRef p3 + 1)
        (m.kaddr (m.mem bootPml4e (pml4 utop))).bind fun kernelPdpe =>
          (m.kaddr (m.mem kernelPdpe (pdpe utop))).map fun kernelPgdir =>
            let m := m.copyEntries p3 kernelPgdir (ptx utop)
            (some p, m.setEntry p (pml4 uvpt) (page2pa p ||| 5))

/-- `region_alloc`: the return value of `page_insert` is dropped. -/
def regionAlloc (m : Vm) (pml4e va len : Nat) : Option Vm :=
  let start := va / pgSize * pgSize
  let stop := (va + len + (pgSize - 1)) / pgSize * pgSize
  Lib.forUpto (fun i m =>
    match m.pageAlloc true with
    | (none, _) => none
    | (some p, m) => (m.pageInsert pml4e p (start + i * pgSize) 7).map Prod.snd)
    ((stop - start) / pgSize) m

/-- `load_icode`: map the loadable segments, given as address and size in
    memory, and one page of stack. The bytes copied into them are left out. -/
def loadIcode (m : Vm) (pml4e : Nat) : List (Nat × Nat) → Option Vm
  | [] =>
    match m.pageAlloc false with
    | (none, _) => none
    | (some p, m) => (m.pageInsert pml4e p (ustacktop - pgSize) 6).map Prod.snd
  | (va, memsz) :: segs => (m.regionAlloc pml4e va memsz).bind fun m => m.loadIcode pml4e segs

end Vm

namespace Kernel

/-- The trap frame `env_alloc` gives a new environment. -/
def initialTf : Trapframe :=
  { ds := 0x23, es := 0x23, ss := 0x23, rsp := BitVec.ofNat 64 ustacktop, cs := 0x1b,
    eflags := 0x200 }

/-- The `env_id` the slot `e` gets when it is allocated next. -/
def nextEnvId (old : BitVec 32) (e : Nat) : BitVec 32 :=
  let generation := (old + 4096) &&& ~~~1023
  (if generation.toInt ≤ 0 then 4096 else generation) ||| BitVec.ofNat 32 e

/-- The slot `e` as `env_alloc` fills it for a new address space; the fields of
    the last message stay as they were. -/
def newEnv (old : Env) (e root : Nat) (parentId : BitVec 32) : Env :=
  { old with
    envPml4e := some root, envCr3 := root, envId := nextEnvId old.envId e,
    envParentId := parentId, envType := .user, envStatus := .runnable,
    envTf := initialTf, envPgfaultUpcall := 0, envIpcRecving := false }

/-- `env_alloc`: the new environment, or the error. -/
def envAlloc (s : Kernel) (parentId : BitVec 32) : Option (Except Int Nat × Kernel) :=
  match s.envFreeList with
  | [] => some (.error (-5), s)
  | e :: rest =>
    (s.vm.envSetupVm s.bootPml4e).map fun r =>
      match r with
      | (none, m) => (.error (-4), { s with vm := m })
      | (some p, m) =>
        (.ok e, { s.setEnv e (newEnv (s.envs e) e p parentId) with
          vm := m, envFreeList := rest })

/-- `env_create`: only the kernel's own initialisation calls it, so a failed
    `env_alloc` stops the machine. -/
def envCreate (s : Kernel) (type : EnvType) (entry : BitVec 64) (segs : List (Nat × Nat)) :
    Option Kernel :=
  (s.envAlloc 0).bind fun r =>
    match r with
    | (.error _, _) => none
    | (.ok e, s) =>
      let env := s.envs e
      let eflags := if type = .fs then env.envTf.eflags ||| 0x3000 else env.envTf.eflags
      let tf := { env.envTf with eflags := eflags, rip := entry }
      (s.vm.loadIcode env.envCr3 segs).map fun m =>
        { s.setEnv e { env with envTf := tf, envType := type } with vm := m }

end Kernel

/-! ## Destruction -/

namespace Vm

/-- The innermost loop of `env_free`: unmap what one page table maps. It stops
    before the last entry, since its bound is `PTX(~0)`. -/
def envFreePt (m : Vm) (pml4e i pdeno pt : Nat) : Option Vm :=
  Lib.forUpto (fun pteno m =>
    if hasFlags (m.mem pt pteno) pteP then m.pageRemove pml4e (pgaddr 0 i pdeno pteno 0)
    else some m) 511 m

/-- The loop of `env_free` over one page directory: empty and free each page
    table. Below the last directory the bound is `PDX(0xFFFFFFFF)`, so the last
    entry is left out there as well. -/
def envFreePgdir (m : Vm) (pml4e i pgdir : Nat) : Option Vm :=
  Lib.forUpto (fun pdeno m =>
    if hasFlags (m.mem pgdir pdeno) pteP then
      let pa := m.mem pgdir pdeno
      (m.kaddr pa).bind fun pt =>
        (m.envFreePt pml4e i pdeno pt).bind fun m =>
          (m.pa2page pa).map fun p => (m.setEntry pgdir pdeno 0).pageDecref p
    else some m) (if i = 3 then pdx utop else 511) m

/-- `env_free` on the page tables: the four directories, the page directory
    pointers and the root. -/
def envFree (m : Vm) (pml4e cr3 : Nat) : Option Vm :=
  (m.kaddr (m.mem pml4e 0)).bind fun pdp =>
    (Lib.forUpto (fun i m =>
      if hasFlags (m.mem pdp i) pteP then
        (m.kaddr (m.mem pdp i)).bind fun pgdir =>
          (m.envFreePgdir pml4e i pgdir).bind fun m =>
            (m.pa2page (m.mem pdp i)).map fun p => (m.setEntry pdp i 0).pageDecref p
      else some m) 4 m).bind fun m =>
        (m.pa2page (m.mem pml4e 0)).map fun p =>
          ((m.pageDecref p).setEntry pml4e 0 0).pageDecref cr3

end Vm

namespace Kernel

/-- `env_free`: an environment whose `env_pml4e` is null makes the kernel
    fault. -/
def envFree (s : Kernel) (c e : Nat) : Flow Unit :=
  let s := { s with freed := ⟨c, e, s.cpuEnv⟩ :: s.freed }
  match (s.envs e).envPml4e.bind fun root => s.vm.envFree root (s.envs e).envCr3 with
  | none => .halt s
  | some m =>
    let env := { s.envs e with envPml4e := none, envCr3 := 0, envStatus := .free }
    .ret () { s.setEnv e env with vm := m, envFreeList := e :: s.envFreeList }

/-! ## Scheduling -/

/-- `env_run`: the CPU leaves the kernel and runs `e`. -/
def envRun (s : Kernel) (c e : Nat) : Kernel :=
  let s : Kernel := match s.cpuEnv c with
    | some cur => if (s.envs cur).envStatus = .running then s.setStatus cur .runnable else s
    | none => s
  (s.setCpuEnv c (some e)).setStatus e .running

theorem envRun_cpuEnv (s : Kernel) (c e : Nat) :
    (s.envRun c e).cpuEnv = Function.update s.cpuEnv c (some e) := by
  unfold envRun setStatus
  cases s.cpuEnv c with
  | none => rfl
  | some cur => by_cases h : (s.envs cur).envStatus = .running <;> simp [h]

/-- `env_run` changes nothing of the table but two statuses: that of the
    environment the CPU leaves, if it was running, and that of the new one. -/
theorem envRun_envs (s : Kernel) (c e i : Nat) :
    (s.envRun c e).envs i = { s.envs i with
      envStatus :=
        if i = e then .running
        else if s.cpuEnv c = some i ∧ (s.envs i).envStatus = .running then .runnable
        else (s.envs i).envStatus } := by
  unfold envRun setStatus
  cases hc : s.cpuEnv c with
  | none =>
    by_cases hi : i = e
    · subst hi; simp
    · simp [hi]
  | some cur =>
    by_cases hr : (s.envs cur).envStatus = .running
    · by_cases hi : i = e
      · subst hi
        by_cases hcur : i = cur
        · subst hcur; simp [hr]
        · simp [hr, hcur]
      · by_cases hcur : i = cur
        · subst hcur; simp [hr, hi]
        · simp [hr, hi, hcur, Ne.symm hcur]
    · by_cases hi : i = e
      · subst hi; simp [hr]
      · by_cases hcur : i = cur
        · subst hcur; simp [hr, hi]
        · simp [hr, hi, Ne.symm hcur]

theorem envRun_frame (s : Kernel) (c e : Nat) :
    (s.envRun c e).vm = s.vm ∧ (s.envRun c e).envFreeList = s.envFreeList ∧
      (s.envRun c e).freed = s.freed ∧ (s.envRun c e).bootPml4e = s.bootPml4e := by
  unfold envRun setStatus
  cases s.cpuEnv c with
  | none => exact ⟨rfl, rfl, rfl, rfl⟩
  | some cur =>
    by_cases h : (s.envs cur).envStatus = .running
    · simp only [h, if_true]; exact ⟨rfl, rfl, rfl, rfl⟩
    · simp only [h, if_false]; exact ⟨rfl, rfl, rfl, rfl⟩

/-- The search of `sched_yield`: look at `n` slots, starting at `k`. The
    counter returns to 0 only when an increment makes it `nenv`. -/
def schedScan (envs : Nat → Env) : Nat → Nat → Option Nat
  | 0, _ => none
  | n + 1, k =>
    if (envs k).envStatus = .runnable ∧ (envs k).envType ≠ .idle then some k
    else schedScan envs n (if k + 1 = nenv then 0 else k + 1)

/-- The end of `sched_yield`: run this CPU's idle environment. The machine
    stops if nothing but idle environments is left, in the monitor, and if there
    is no idle environment, with a panic. -/
@[irreducible] def schedIdle {α : Type} (s : Kernel) (c : Nat) : Flow α :=
  if (List.range nenv).any (fun i => (s.envs i).envType ≠ .idle ∧
      ((s.envs i).envStatus = .runnable ∨ (s.envs i).envStatus = .running)) then
    if (s.envs c).envStatus = .runnable ∨ (s.envs c).envStatus = .running then .user (s.envRun c c)
    else .halt s
  else .halt s

/-- `sched_yield` -/
def schedYield {α : Type} (s : Kernel) (c : Nat) : Flow α :=
  let i := (s.cpuEnv c).getD 1
  match schedScan s.envs (nenv - 1) (i + 1) with
  | some k => .user (s.envRun c k)
  | none =>
    match s.cpuEnv c with
    | some e => if (s.envs e).envStatus = .running then .user (s.envRun c e) else s.schedIdle c
    | none => s.schedIdle c

/-- `env_destroy` -/
def envDestroy (s : Kernel) (c e : Nat) : Flow Unit :=
  if (s.envs e).envStatus = .running ∧ s.cpuEnv c ≠ some e then .ret () (s.setStatus e .dying)
  else
    (s.envFree c e).bind fun _ s =>
      if s.cpuEnv c = some e then (s.setCpuEnv c none).schedYield c else .ret () s

end Kernel
end Jos
