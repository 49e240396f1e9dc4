import Jos.Core.Env

/-!
# System Calls and Traps

The system calls of `kern/syscall.c`, the packet rings of `kern/e1000.c` behind
two of them, and the trap entry of `kern/trap.c`. Every function takes the CPU
`c` it runs on and, where the source uses `curenv`, the current environment.

A pointer argument is followed through the page table of the current
environment, as the kernel does; an address that is not mapped makes the kernel
fault, which stops the machine.

## Main definitions

* `Call`, `Call.decode`: The calls and their arguments.
* `Kernel.sysPageAlloc` … `Kernel.sysNetTryReceive`: The calls.
* `Kernel.syscall`: The dispatcher.
* `Kernel.trap`: A trap from user mode, until the CPU is back in user mode.
-/

namespace Jos

/-- A system call with its arguments as the handlers take them. -/
inductive Call
  | cputs (str len : Nat)
  | cgetc
  | getenvid
  | envDestroy (envid : BitVec 32)
  | pageAlloc (envid : BitVec 32) (va : Nat) (perm : BitVec 32)
  | pageMap (srcenvid : BitVec 32) (srcva : Nat) (dstenvid : BitVec 32) (dstva : Nat)
      (perm : BitVec 32)
  | pageUnmap (envid : BitVec 32) (va : Nat)
  | exofork
  | envSetStatus (envid status : BitVec 32)
  | envSetTrapframe (envid : BitVec 32) (tf : Nat)
  | envSetPgfaultUpcall (envid : BitVec 32) (func : BitVec 64)
  | yield
  | ipcTrySend (envid value : BitVec 32) (srcva : Nat) (perm : BitVec 32)
  | ipcRecv (dstva : Nat)
  | timeMsec
  | netTrySend (data : Nat) (len : BitVec 32)
  | netTryReceive (data len : Nat)
  | unknown

/-- The call a trap frame asks for: the number in `rax` and the casts of the
    dispatcher. -/
def Call.decode (r : PushRegs) : Call :=
  let int := fun (w : BitVec 64) => w.setWidth 32
  match r.rax.toNat with
  | 0 => .cputs r.rdx.toNat r.rcx.toNat
  | 1 => .cgetc
  | 2 => .getenvid
  | 3 => .envDestroy (int r.rdx)
  | 4 => .pageAlloc (int r.rdx) r.rcx.toNat (int r.rbx)
  | 5 => .pageMap (int r.rdx) r.rcx.toNat (int r.rbx) r.rdi.toNat (int r.rsi)
  | 6 => .pageUnmap (int r.rdx) r.rcx.toNat
  | 7 => .exofork
  | 8 => .envSetStatus (int r.rdx) (int r.rcx)
  | 9 => .envSetTrapframe (int r.rdx) r.rcx.toNat
  | 10 => .envSetPgfaultUpcall (int r.rdx) r.rcx
  | 11 => .yield
  | 12 => .ipcTrySend (int r.rdx) (int r.rcx) r.rbx.toNat (int r.rdi)
  | 13 => .ipcRecv r.rdx.toNat
  | 14 => .timeMsec
  | 15 => .netTrySend r.rdx.toNat (int r.rcx)
  | 16 => .netTryReceive r.rdx.toNat r.rcx.toNat
  | _ => .unknown

/-! ## Frames in user memory -/

namespace Vm

/-- The 24 words of a `struct Trapframe` at `va`. -/
def loadTrapframe (m : Vm) (root va : Nat) : Option Trapframe :=
  ((List.range 24).mapM fun i => m.loadBytes root 8 (va + 8 * i)).map fun ws =>
    let w := fun i => ws.getD i 0
    { regs := {
        r15 := w 0, r14 := w 1, r13 := w 2, r12 := w 3, r11 := w 4, r10 := w 5, r9 := w 6,
        r8 := w 7, rsi := w 8, rdi := w 9, rbp := w 10, rdx := w 11, rcx := w 12, rbx := w 13,
        rax := w 14 },
      es := (w 15).setWidth 16, ds := (w 16).setWidth 16, trapno := w 17, err := w 18,
      rip := w 19, cs := (w 20).setWidth 16, eflags := w 21, rsp := w 22,
      ss := (w 23).setWidth 16 }

/-- Store words one after the other. -/
def storeWords (m : Vm) (root : Nat) : Nat → List (BitVec 64) → Option Vm
  | _, [] => some m
  | va, w :: ws => (m.storeBytes root 8 va w).bind fun m => m.storeWords root (va + 8) ws

/-- The addresses that the loop for `%s` in `vprintfmt` loads from: it ends with
    a NUL, with a fault, or after `n` bytes. -/
def stringLoads (m : Vm) (root : Nat) : Nat → Nat → List Nat
  | 0, _ => []
  | n + 1, va =>
    va :: match m.loadByte root va with
      | none => []
      | some b => if b = 0 then [] else m.stringLoads root n (va + 1)

/-- `memmove` to user memory, byte by byte. -/
def storeBuf (m : Vm) (root : Nat) : Nat → List (BitVec 8) → Option Vm
  | _, [] => some m
  | va, b :: bs => (m.storeByte root va b).bind fun m => m.storeBuf root (va + 1) bs

end Vm

/-- The 20 words of the `struct UTrapframe` for a page fault at `faultVa`. -/
def utrapframe (tf : Trapframe) (faultVa : BitVec 64) : List (BitVec 64) :=
  let r := tf.regs
  [faultVa, tf.err, r.r15, r.r14, r.r13, r.r12, r.r11, r.r10, r.r9, r.r8, r.rsi, r.rdi, r.rbp,
    r.rdx, r.rcx, r.rbx, r.rax, tf.rip, tf.eflags, tf.rsp]

/-- Where `page_fault_handler` puts the frame for a stack pointer: at the top of the
    exception stack, or one word below the stack pointer if that is there already. -/
def Upcall.utf (rsp : Nat) : Nat :=
  (if rsp < uxstacktop ∧ uxstacktop - pgSize ≤ rsp then rsp - 8 else uxstacktop) - 160

namespace Kernel

/-- The page table in use while `cur` is the current environment. -/
def curRoot (s : Kernel) (cur : Nat) : Nat := (s.envs cur).envCr3

/-- Run an operation on the address space of `e`; a null `env_pml4e` makes the
    kernel fault. -/
def onPml4e {α : Type} (s : Kernel) (e : Nat) (op : Nat → Option α) : Option α :=
  (s.envs e).envPml4e.bind op

/-! ## Console, time and network -/

/-- `user_mem_check` for the current environment, as `user_mem_assert` calls it. -/
def userMemCheck (s : Kernel) (cur va len : Nat) (perm : BitVec 32) : Option Bool :=
  s.onPml4e cur fun root => s.vm.userMemCheck (s.curRoot cur) root va len (perm ||| 4)

/-- `user_mem_assert` for the current environment. -/
def userMemAssert (s : Kernel) (c cur va len : Nat) (perm : BitVec 32) : Flow Unit :=
  match s.userMemCheck cur va len perm with
  | none => .halt s
  | some true => .ret () s
  | some false => s.envDestroy c cur

/-- The loads of `cprintf("%.*s", len, str)`: the precision is `len` as an `int`,
    a negative one is no limit, and a null pointer prints `(null)`. The loop
    loads the byte at the precision before it compares. -/
def printLoads (s : Kernel) (cur str len : Nat) : List Nat :=
  let precision := BitVec.ofNat 32 len
  if str = 0 then []
  else
    s.vm.stringLoads (s.curRoot cur)
      (if precision.toInt < 0 then 2 ^ 64 else precision.toNat + 1) str

/-- `sys_cputs`: printing changes nothing here, unless it faults. -/
def sysCputs (s : Kernel) (c cur str len : Nat) : Flow Int :=
  (s.userMemAssert c cur str len 4).bind fun _ s =>
    if (s.printLoads cur str len).all fun a => (s.vm.loadByte (s.curRoot cur) a).isSome then
      .ret 0 s
    else .halt s

/-- `sys_cgetc`: the next character of the console's buffer, or 0. -/
def sysCgetc (s : Kernel) : Flow Int :=
  match s.cons with
  | [] => .ret 0 s
  | b :: bs => .ret b.toNat { s with cons := bs }

/-- `time_msec` in an `unsigned int`, returned as an `int`. -/
def sysTimeMsec (s : Kernel) : Flow Int :=
  .ret (s.ticks * 10).toInt s

/-- `sys_net_try_send` with `e1000_transmit`. A negative length becomes a huge
    `size_t`, so that copy runs into memory that is not mapped. -/
def sysNetTrySend (s : Kernel) (cur data : Nat) (len : BitVec 32) : Flow Int :=
  if utop ≤ data then .ret (-3) s
  else if 1518 < len.toInt then .ret (-18) s
  else
    let d := s.e1000
    if d.txDd d.tdt then
      if len.toInt < 0 then .halt s
      else
        match (List.range len.toNat).mapM fun i => s.vm.loadByte (s.curRoot cur) (data + i) with
        | none => .halt s
        | some pkt =>
          .ret 0 { s with e1000 := { d with
            txPkt := Function.update d.txPkt d.tdt pkt
            txDd := Function.update d.txDd d.tdt false
            tdt := (d.tdt + 1) % 64 } }
    else .ret (-16) s

/-- `e1000_receive`: the length of the packet copied to `data`. -/
def e1000Receive (s : Kernel) (cur data : Nat) : Option (Int × Kernel) :=
  let d := s.e1000
  if d.rcvDd d.rdt then
    if d.rcvEop d.rdt then
      (s.vm.storeBuf (s.curRoot cur) data (d.rcvPkt d.rdt)).map fun m =>
        ((d.rcvPkt d.rdt).length, { s with
          vm := m
          e1000 := { d with
            rcvDd := Function.update d.rcvDd d.rdt false
            rcvEop := Function.update d.rcvEop d.rdt false
            rdt := (d.rdt + 1) % 64 } })
    else none
  else some (-17, s)

/-- `sys_net_try_receive`: the length is stored through the pointer `len`,
    which nothing checks. -/
def sysNetTryReceive (s : Kernel) (cur data len : Nat) : Flow Int :=
  if utop ≤ data then .ret (-3) s
  else
    match s.e1000Receive cur data with
    | none => .halt s
    | some (n, s) =>
      match s.vm.storeBytes (s.curRoot cur) 4 len (BitVec.ofInt 64 n) with
      | none => .halt s
      | some m => .ret (if 0 < n then 0 else n) { s with vm := m }

/-! ## Environments -/

/-- `sys_env_destroy` -/
def sysEnvDestroy (s : Kernel) (c cur : Nat) (envid : BitVec 32) : Flow Int :=
  match s.envid2env cur envid true with
  | none => .ret (-2) s
  | some e => (s.envDestroy c e).bind fun _ s => .ret 0 s

/-- `sys_exofork`: every error of `env_alloc` is reported as `-E_NO_FREE_ENV`. -/
def sysExofork (s : Kernel) (cur : Nat) : Flow Int :=
  match s.envAlloc (s.envs cur).envId with
  | none => .halt s
  | some (.error _, s) => .ret (-5) s
  | some (.ok e, s) =>
    let tf := (s.envs cur).envTf
    let tf := { tf with regs := { tf.regs with rax := 0 } }
    .ret (s.envs e).envId.toInt
      (s.setEnv e { s.envs e with envStatus := .notRunnable, envTf := tf })

/-- `sys_env_set_status`: the new status is stored whatever the old one is. -/
def sysEnvSetStatus (s : Kernel) (cur : Nat) (envid status : BitVec 32) : Flow Int :=
  match s.envid2env cur envid true with
  | none => .ret (-2) s
  | some e =>
    if status = 2 then .ret 0 (s.setStatus e .runnable)
    else if status = 4 then .ret 0 (s.setStatus e .notRunnable)
    else .ret (-3) s

/-- `sys_env_set_trapframe`: the frame is taken over as it is. -/
def sysEnvSetTrapframe (s : Kernel) (cur : Nat) (envid : BitVec 32) (tf : Nat) : Flow Int :=
  match s.envid2env cur envid true with
  | none => .ret (-2) s
  | some e =>
    match s.vm.loadTrapframe (s.curRoot cur) tf with
    | none => .halt s
    | some f => .ret 0 (s.setEnv e { s.envs e with envTf := f })

/-- `sys_env_set_pgfault_upcall` -/
def sysEnvSetPgfaultUpcall (s : Kernel) (cur : Nat) (envid : BitVec 32) (func : BitVec 64) :
    Flow Int :=
  match s.envid2env cur envid true with
  | none => .ret (-2) s
  | some e => .ret 0 (s.setEnv e { s.envs e with envPgfaultUpcall := func })

/-! ## Memory -/

/-- The test `va >= UTOP || ROUNDUP(va, PGSIZE) != va`. -/
def badVa (va : Nat) : Bool := utop ≤ va || va % pgSize != 0

/-- `sys_page_alloc` -/
def sysPageAlloc (s : Kernel) (cur : Nat) (envid : BitVec 32) (va : Nat) (perm : BitVec 32) :
    Flow Int :=
  match s.envid2env cur envid true with
  | none => .ret (-2) s
  | some e =>
    if badVa va then .ret (-3) s
    else if perm &&& 5 ≠ 5 ∨ perm &&& ~~~0xE07 ≠ 0 then .ret (-3) s
    else
      match s.vm.pageAlloc true with
      | (none, _) => .ret (-4) s
      | (some p, m) =>
        match s.onPml4e e fun root => m.pageInsert root p va perm with
        | none => .halt s
        | some (r, m) => .ret r { s with vm := if r ≠ 0 then m.pageFree p else m }

/-- `sys_page_map`: the checks of `perm` are commented out in the source. -/
def sysPageMap (s : Kernel) (cur : Nat) (srcenvid : BitVec 32) (srcva : Nat)
    (dstenvid : BitVec 32) (dstva : Nat) (perm : BitVec 32) : Flow Int :=
  match s.envid2env cur srcenvid true, s.envid2env cur dstenvid true with
  | some src, some dst =>
    if badVa srcva || badVa dstva then .ret (-3) s
    else
      match s.onPml4e src fun root => s.vm.pageLookup root srcva with
      | none => .halt s
      | some none => .ret (-3) s
      | some (some (p, _)) =>
        match s.onPml4e dst fun root => s.vm.pageInsert root p dstva perm with
        | none => .halt s
        | some (r, m) => .ret (if r ≠ 0 then -4 else r) { s with vm := m }
  | _, _ => .ret (-2) s

/-- `sys_page_unmap` -/
def sysPageUnmap (s : Kernel) (cur : Nat) (envid : BitVec 32) (va : Nat) : Flow Int :=
  match s.envid2env cur envid true with
  | none => .ret (-2) s
  | some e =>
    if badVa va then .ret (-3) s
    else
      match s.onPml4e e fun root => s.vm.pageRemove root va with
      | none => .halt s
      | some m => .ret 0 { s with vm := m }

/-! ## Messages -/

/-- `sys_ipc_try_send`: the receiver's fields are written before the page is
    looked at, and the page goes to whatever address the receiver stored. -/
def sysIpcTrySend (s : Kernel) (cur : Nat) (envid value : BitVec 32) (srcva : Nat)
    (perm : BitVec 32) : Flow Int :=
  match s.envid2env cur envid false with
  | none => .ret (-2) s
  | some dst =>
    if (s.envs dst).envIpcRecving = false then .ret (-7) s
    else
      let s := s.setEnv dst { s.envs dst with
        envIpcRecving := false, envIpcFrom := (s.envs cur).envId, envIpcValue := value }
      if srcva < utop then
        match s.onPml4e cur fun root => s.vm.pageLookup root srcva with
        | none => .halt s
        | some none => .ret (-3) s
        | some (some (p, _)) =>
          match s.onPml4e dst fun root =>
            s.vm.pageInsert root p (s.envs dst).envIpcDstva perm with
          | none => .halt s
          | some (r, m) =>
            let s := { s with vm := m }
            if r ≠ 0 then .ret (-4) s
            else .ret 0 (s.setEnv dst { s.envs dst with
              envIpcPerm := perm, envStatus := .runnable })
      else .ret 0 (s.setEnv dst { s.envs dst with envIpcPerm := 0, envStatus := .runnable })

/-- `sys_ipc_recv`: a `dstva` from `UTOP` on is stored like any other. -/
def sysIpcRecv (s : Kernel) (cur dstva : Nat) : Flow Int :=
  if dstva < utop ∧ dstva % pgSize ≠ 0 then .ret (-3) s
  else .ret 0 (s.setEnv cur { s.envs cur with
    envIpcRecving := true, envIpcDstva := dstva, envIpcValue := 0, envIpcPerm := 0,
    envIpcFrom := 0, envStatus := .notRunnable })

/-! ## Dispatch -/

/-- `syscall` -/
def syscall (s : Kernel) (c cur : Nat) : Call → Flow Int
  | .cputs str len => s.sysCputs c cur str len
  | .cgetc => s.sysCgetc
  | .getenvid => .ret (s.envs cur).envId.toInt s
  | .envDestroy envid => s.sysEnvDestroy c cur envid
  | .pageAlloc envid va perm => s.sysPageAlloc cur envid va perm
  | .pageMap srcenvid srcva dstenvid dstva perm =>
    s.sysPageMap cur srcenvid srcva dstenvid dstva perm
  | .pageUnmap envid va => s.sysPageUnmap cur envid va
  | .exofork => s.sysExofork cur
  | .envSetStatus envid status => s.sysEnvSetStatus cur envid status
  | .envSetTrapframe envid tf => s.sysEnvSetTrapframe cur envid tf
  | .envSetPgfaultUpcall envid func => s.sysEnvSetPgfaultUpcall cur envid func
  | .yield => s.schedYield c
  | .ipcTrySend envid value srcva perm => s.sysIpcTrySend cur envid value srcva perm
  | .ipcRecv dstva => s.sysIpcRecv cur dstva
  | .timeMsec => s.sysTimeMsec
  | .netTrySend data len => s.sysNetTrySend cur data len
  | .netTryReceive data len => s.sysNetTryReceive cur data len
  | .unknown => .ret (-3) s

/-! ## Traps -/

/-- Store the result of a system call in `rax` of the caller's frame. -/
def setRax (s : Kernel) (cur : Nat) (r : Int) : Kernel :=
  let tf := (s.envs cur).envTf
  s.setEnv cur { s.envs cur with
    envTf := { tf with regs := { tf.regs with rax := BitVec.ofInt 64 r } } }

/-- `page_fault_handler` for a fault in user mode at `cr2`. -/
def pageFaultHandler (s : Kernel) (c cur : Nat) (cr2 : BitVec 64) : Flow Unit :=
  let tf := (s.envs cur).envTf
  if (s.envs cur).envPgfaultUpcall ≠ 0 then
    let utf := Upcall.utf tf.rsp.toNat
    (s.userMemAssert c cur utf 160 2).bind fun _ s =>
      match s.vm.storeWords (s.curRoot cur) utf (utrapframe tf cr2) with
      | none => .halt s
      | some m =>
        let tf := { tf with rip := (s.envs cur).envPgfaultUpcall, rsp := BitVec.ofNat 64 utf }
        .user (({ s with vm := m }.setEnv cur { s.envs cur with envTf := tf }).envRun c cur)
  else s.envDestroy c cur

/-- `trap_dispatch`; the frame it works on is the saved one of `cur`. -/
def trapDispatch (s : Kernel) (c cur : Nat) (cr2 : BitVec 64) : Flow Unit :=
  match (s.envs cur).envTf.trapno.toNat with
  -- spurious, keyboard and serial interrupts, and breakpoints, which enter the
  -- monitor and come back
  | 39 | 33 | 36 | 3 => .ret () s
  | 14 => s.pageFaultHandler c cur cr2
  | 32 =>
    let s := { s with ticks := s.ticks + 1 }
    if (s.ticks * 10).ult s.ticks then .halt s else s.schedYield c
  | 48 =>
    (s.syscall c cur (Call.decode (s.envs cur).envTf.regs)).bind fun r s =>
      .ret () (s.setRax cur r)
  | n => if 32 ≤ n ∧ n < 48 then s.schedYield c else s.envDestroy c cur

/-- `trap`: the CPU enters the kernel from user mode with the frame `tf`. -/
def trap (s : Kernel) (c : Nat) (tf : Trapframe) (cr2 : BitVec 64) : Flow Unit :=
  match s.cpuEnv c with
  | none => .halt s
  | some cur =>
    if (s.envs cur).envStatus = .dying then
      (s.envFree c cur).bind fun _ s => (s.setCpuEnv c none).schedYield c
    else
      ((s.setEnv cur { s.envs cur with envTf := tf }).trapDispatch c cur cr2).bind fun _ s =>
        match s.cpuEnv c with
        | some e =>
          if (s.envs e).envStatus = .running then .user (s.envRun c e) else s.schedYield c
        | none => s.schedYield c

end Kernel
end Jos
