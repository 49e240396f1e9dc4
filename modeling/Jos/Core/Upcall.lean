import Jos.Core.Syscall
import Jos.Lib.Bytes

/-!
# The Page-Fault Upcall

`_pgfault_upcall` of `lib/pfentry.S`, as a list of instructions for a processor
in user mode. The kernel starts it with the stack pointer at the `UTrapframe` it
pushed; it calls the handler in C and then returns to the instruction that
faulted, by way of the trap-time stack.

Memory is what the environment sees: a byte at every address. An addition may
leave anything in the arithmetic flags, so the processor is given by a function
`alu` for them. The resume flag, which is clear again after every instruction,
is left out.

## Main definitions

* `Reg`, `Cpu`, `Instr`, `Cpu.step`: The processor.
* `Upcall.entry`, `Upcall.resume`: The code before and after the handler runs.
* `Handled`: What a handler leaves alone.
* `Vm.view`: The memory an environment sees.
-/

namespace Jos

open Lib

/-- The general registers. -/
inductive Reg
  | r15 | r14 | r13 | r12 | r11 | r10 | r9 | r8
  | rsi | rdi | rbp | rdx | rcx | rbx | rax | rsp
  deriving DecidableEq

/-- The registers in a trap frame. -/
def Trapframe.reg (tf : Trapframe) : Reg → BitVec 64
  | .r15 => tf.regs.r15
  | .r14 => tf.regs.r14
  | .r13 => tf.regs.r13
  | .r12 => tf.regs.r12
  | .r11 => tf.regs.r11
  | .r10 => tf.regs.r10
  | .r9 => tf.regs.r9
  | .r8 => tf.regs.r8
  | .rsi => tf.regs.rsi
  | .rdi => tf.regs.rdi
  | .rbp => tf.regs.rbp
  | .rdx => tf.regs.rdx
  | .rcx => tf.regs.rcx
  | .rbx => tf.regs.rbx
  | .rax => tf.regs.rax
  | .rsp => tf.rsp

/-- The processor in user mode. -/
structure Cpu where
  reg : Reg → BitVec 64
  rip : BitVec 64
  eflags : BitVec 64
  mem : BitVec 64 → BitVec 8

/-- The instructions of the upcall, operands in the order of the source. An
    indirect call carries the address of the instruction after it. -/
inductive Instr
  | push (r : Reg)
  | pop (r : Reg)
  | mov (src dst : Reg)
  | add (imm : BitVec 64) (dst : Reg)
  | movabs (addr : BitVec 64) (dst : Reg)
  | load (disp : BitVec 64) (base dst : Reg)
  | store (src : Reg) (disp : BitVec 64) (base : Reg)
  | call (r : Reg) (next : BitVec 64)
  | popf
  | ret

/-- The flags an addition sets: CF, PF, AF, ZF, SF and OF. -/
def arithFlags : BitVec 64 := 0x8D5

/-- The flags `popf` changes in user mode: CF, PF, AF, ZF, SF, TF, DF, OF, NT, AC
    and ID, and IF if the I/O privilege level is 3. -/
def popfFlags (eflags : BitVec 64) : BitVec 64 :=
  if eflags &&& 0x3000 = 0x3000 then 0x244FD5 else 0x244DD5

namespace Cpu

/-- The word at an address. -/
def word (c : Cpu) (a : BitVec 64) : BitVec 64 := BitVec.ofNat 64 (Bytes.load c.mem 8 a)

def setReg (c : Cpu) (r : Reg) (v : BitVec 64) : Cpu :=
  { c with reg := Function.update c.reg r v }

def setWord (c : Cpu) (a v : BitVec 64) : Cpu :=
  { c with mem := Bytes.store c.mem 8 a v.toNat }

def setFlags (c : Cpu) (f : BitVec 64) : Cpu := { c with eflags := f }

def setRip (c : Cpu) (a : BitVec 64) : Cpu := { c with rip := a }

/-- Push a word. -/
def pushWord (c : Cpu) (v : BitVec 64) : Cpu :=
  (c.setWord (c.reg .rsp - 8#64) v).setReg .rsp (c.reg .rsp - 8#64)

/-- One instruction; `rip` only matters where control leaves the code. -/
def step (alu : BitVec 64 → BitVec 64 → BitVec 64) (c : Cpu) : Instr → Cpu
  | .push r => c.pushWord (c.reg r)
  -- the increment comes first, so that popping `rsp` leaves the word in it
  | .pop r => (c.setReg .rsp (c.reg .rsp + 8#64)).setReg r (c.word (c.reg .rsp))
  | .mov src dst => c.setReg dst (c.reg src)
  | .add imm dst =>
    (c.setReg dst (c.reg dst + imm)).setFlags
      (c.eflags &&& ~~~arithFlags ||| alu (c.reg dst) imm &&& arithFlags)
  | .movabs addr dst => c.setReg dst (c.word addr)
  | .load disp base dst => c.setReg dst (c.word (c.reg base + disp))
  | .store src disp base => c.setWord (c.reg base + disp) (c.reg src)
  | .call r next => (c.pushWord next).setRip (c.reg r)
  | .popf =>
    (c.setReg .rsp (c.reg .rsp + 8#64)).setFlags
      (c.eflags &&& ~~~popfFlags c.eflags ||| c.word (c.reg .rsp) &&& popfFlags c.eflags)
  | .ret => (c.setReg .rsp (c.reg .rsp + 8#64)).setRip (c.word (c.reg .rsp))

/-- A stretch of code without jumps. -/
def exec (alu : BitVec 64 → BitVec 64 → BitVec 64) (c : Cpu) (code : List Instr) : Cpu :=
  code.foldl (step alu) c

/-- `env_pop_tf`: the processor enters user mode with the frame `tf`. -/
def enter (tf : Trapframe) (mem : BitVec 64 → BitVec 8) : Cpu where
  reg := tf.reg
  rip := tf.rip
  eflags := tf.eflags
  mem := mem

end Cpu

namespace Upcall

open Instr Reg

/-- Up to the call of the handler, whose address is in the variable
    `_pgfault_handler`. -/
def entry (pgfaultHandler next : BitVec 64) : List Instr :=
  [push rsp, mov rsp rdi, add 8#64 rdi, movabs pgfaultHandler rax, call rax next]

/-- Back from the handler: store the trap-time `rip` below the trap-time stack
    pointer, and lower the stack pointer in the frame to it. -/
def prepare : List Instr :=
  [pop rsp, add 16#64 rsp, load 0x78#64 rsp rax, load 0x88#64 rsp rbx, mov rsp rdx, mov rbx rsp,
    push rax, store rsp 0x88#64 rdx, mov rdx rsp]

/-- Load the registers from the frame. -/
def restore : List Instr :=
  [load 0#64 rsp r15, load 8#64 rsp r14, load 16#64 rsp r13, load 24#64 rsp r12,
    load 32#64 rsp r11, load 40#64 rsp r10, load 48#64 rsp r9, load 56#64 rsp r8,
    load 64#64 rsp rsi, load 72#64 rsp rdi, load 80#64 rsp rbp, load 88#64 rsp rdx,
    load 96#64 rsp rcx, load 104#64 rsp rbx, load 112#64 rsp rax]

/-- Past the registers and `rip`, load the flags, switch stacks and return. -/
def leave : List Instr := [add 120#64 rsp, add 8#64 rsp, popf, pop rsp, ret]

/-- Everything after the call. -/
def resume : List Instr := prepare ++ restore ++ leave

end Upcall

/-- What a handler that is called in `a` and returns in `b` leaves alone: it
    returns to its caller with the caller's stack, that is, everything above its
    return address, as it was, and code in user mode does not change the flags
    that `popf` cannot change either. -/
structure Handled (a b : Cpu) : Prop where
  back : b.rip = a.word (a.reg .rsp)
  stack : b.reg .rsp = a.reg .rsp + 8#64
  above : ∀ x : BitVec 64, (a.reg .rsp + 8#64).toNat ≤ x.toNat → b.mem x = a.mem x
  flags : b.eflags &&& ~~~popfFlags a.eflags = a.eflags &&& ~~~popfFlags a.eflags

/-- The memory an environment with the page table `root` sees. -/
def Vm.view (m : Vm) (root : Nat) : BitVec 64 → BitVec 8 :=
  fun a => (m.loadByte root a.toNat).getD 0

end Jos
