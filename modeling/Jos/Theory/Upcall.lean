import Jos.Theory.UserView

/-!
# Returning from a Page Fault

`page_fault_handler` pushes the trap-time state on the exception stack and
`_pgfault_upcall` takes it from there again after the handler in C has run. The
two have to agree on where each of the twenty words is, and the code has one
word below the trap-time stack pointer to get back by.

That word must not be part of the frame. It is not if the stack pointer is
anywhere but at the top of the exception stack: there the kernel takes it for a
stack pointer outside of the exception stack, and the frame ends right at it.

## Main definitions

* `Upcall.utf`: Where the kernel puts the frame.
* `Upcall.FrameAt`, `Upcall.slot`: The frame in memory.

## Theorems

* `Upcall.exec_entry`, `Upcall.exec_prepare`, `Upcall.exec_restore`,
  `Upcall.exec_leave`: What the parts of the code do.
* `Upcall.exec_resume`: The code after the handler.
* `Upcall.pageFaultHandler_frame`: The kernel's part.
* `Upcall.fault_resumes`: Kernel, handler and code together.
-/

namespace Jos

open Lib Lib.Bytes
open BitVec (getElem_and getElem_not getElem_or natCast_eq_ofNat ofNat ofNat_toNat setWidth_eq
  toNat_add toNat_ofNat toNat_sub)

variable {c : Cpu} {x y : BitVec 64}

namespace Cpu

section

variable (c : Cpu) (r : Reg) (a v f : BitVec 64)

@[simp] theorem setReg_reg : (c.setReg r v).reg = Function.update c.reg r v := rfl
@[simp] theorem setReg_mem : (c.setReg r v).mem = c.mem := rfl
@[simp] theorem setReg_eflags : (c.setReg r v).eflags = c.eflags := rfl
@[simp] theorem setReg_word : (c.setReg r v).word a = c.word a := rfl
@[simp] theorem setWord_reg : (c.setWord a v).reg = c.reg := rfl
@[simp] theorem setWord_mem : (c.setWord a v).mem = store c.mem 8 a v.toNat := rfl
@[simp] theorem setWord_eflags : (c.setWord a v).eflags = c.eflags := rfl

@[simp] theorem setFlags_reg : (c.setFlags f).reg = c.reg := rfl
@[simp] theorem setFlags_mem : (c.setFlags f).mem = c.mem := rfl
@[simp] theorem setFlags_eflags : (c.setFlags f).eflags = f := rfl
@[simp] theorem setFlags_word : (c.setFlags f).word a = c.word a := rfl
@[simp] theorem setRip_reg : (c.setRip a).reg = c.reg := rfl
@[simp] theorem setRip_mem : (c.setRip a).mem = c.mem := rfl
@[simp] theorem setRip_eflags : (c.setRip a).eflags = c.eflags := rfl
@[simp] theorem setRip_rip : (c.setRip a).rip = a := rfl

end

theorem word_setWord (c : Cpu) (a v : BitVec 64) : (c.setWord a v).word a = v := by
  unfold word setWord
  rw [load_store _ v.toNat (spread_word 8 a (by decide)), Nat.mod_eq_of_lt, ofNat_toNat,
    setWidth_eq]
  exact v.isLt

theorem word_setWord_apart (c : Cpu) {a b : BitVec 64} (v : BitVec 64) (h : Apart 8 b 8 a) :
    (c.setWord a v).word b = c.word b := by
  unfold word setWord
  rw [load_store_apart _ v.toNat h]

/-- Memory alone decides what words there are. -/
theorem word_congr {d : Cpu} (h : c.mem = d.mem) (a : BitVec 64) : c.word a = d.word a := by
  unfold word
  rw [h]

end Cpu

/-! ## Flags -/

theorem and_not_or (x y f : BitVec 64) : (x &&& ~~~f ||| y &&& f) &&& ~~~f = x &&& ~~~f := by
  ext i hi
  simp only [getElem_and, getElem_or, getElem_not]
  grind

theorem and_not_or_and (x f : BitVec 64) : x &&& ~~~f ||| x &&& f = x := by
  ext i hi
  simp only [getElem_and, getElem_or, getElem_not]
  grind

/-- What agrees outside some flags agrees outside more. -/
theorem and_not_mono {f g : BitVec 64} (h : x &&& ~~~f = y &&& ~~~f) (hfg : ~~~f &&& ~~~g = ~~~g) :
    x &&& ~~~g = y &&& ~~~g := by
  rw [← hfg, ← BitVec.and_assoc, ← BitVec.and_assoc, h]

/-- The I/O privilege level is not among the flags that `popf` changes. -/
theorem popfFlags_congr (h : x &&& ~~~popfFlags y = y &&& ~~~popfFlags y) :
    popfFlags x = popfFlags y := by
  have hiopl : ~~~popfFlags y &&& 0x3000 = 0x3000 := by
    unfold popfFlags
    split <;> decide
  have heq : x &&& 0x3000 = y &&& 0x3000 := by
    rw [← hiopl, ← BitVec.and_assoc, ← BitVec.and_assoc, h]
  unfold popfFlags
  rw [heq]

theorem arithFlags_popf (x : BitVec 64) : ~~~arithFlags &&& ~~~popfFlags x = ~~~popfFlags x := by
  unfold popfFlags
  split <;> decide

/-! ## The code -/

namespace Upcall

/-- The frame of the fault is at `utf`. -/
def FrameAt (c : Cpu) (utf : BitVec 64) (tf : Trapframe) (cr2 : BitVec 64) : Prop :=
  ∀ i w, (utrapframe tf cr2)[i]? = some w → c.word (utf + (8 * i : Nat)) = w

section

variable (alu : BitVec 64 → BitVec 64 → BitVec 64) {utf cr2 : BitVec 64} {tf : Trapframe} {b : Cpu}

/-- The call of the handler: the address of the frame and the return address are
    below the frame. -/
theorem exec_entry (pgfaultHandler next : BitVec 64) (hrsp : c.reg .rsp = utf) :
    ∃ a, c.exec alu (entry pgfaultHandler next) = a ∧ a.reg .rsp = utf - 16#64 ∧
      a.mem = ((c.setWord (utf - 8#64) utf).setWord (utf - 16#64) next).mem ∧
      a.eflags &&& ~~~arithFlags = c.eflags &&& ~~~arithFlags := by
  have h16 : utf - 8#64 - 8#64 = utf - 16#64 := by
    rw [BitVec.sub_sub]
    rfl
  refine ⟨_, rfl, ?_, ?_, ?_⟩
  · simp [Cpu.exec, entry, Cpu.step, Cpu.pushWord, hrsp, h16]
  · simp [Cpu.exec, entry, Cpu.step, Cpu.pushWord, hrsp, h16]
  · simp [Cpu.exec, entry, Cpu.step, Cpu.pushWord, and_not_or]

/-- After `prepare` the stack pointer is at the saved registers and the way back
    is laid. -/
theorem exec_prepare (hrsp : b.reg .rsp = utf - 8#64) (hutf : b.word (utf - 8#64) = utf)
    (hframe : FrameAt b utf tf cr2) :
    ∃ c, b.exec alu prepare = c ∧ c.reg .rsp = utf + 16#64 ∧
      c.mem = ((b.setWord (tf.rsp - 8#64) tf.rip).setWord (utf + 152#64) (tf.rsp - 8#64)).mem ∧
      c.eflags &&& ~~~arithFlags = b.eflags &&& ~~~arithFlags := by
  have hrip : b.word (utf + 136#64) = tf.rip := hframe 17 tf.rip rfl
  have hold : b.word (utf + 152#64) = tf.rsp := hframe 19 tf.rsp rfl
  refine ⟨_, rfl, ?_, ?_, ?_⟩
  · simp [Cpu.exec, prepare, Cpu.step, Cpu.pushWord, hrsp, hutf]
  · simp [Cpu.exec, prepare, Cpu.step, Cpu.pushWord, hrsp, hutf, BitVec.add_assoc, hrip, hold]
  · simp [Cpu.exec, prepare, Cpu.step, Cpu.pushWord, and_not_or]

/-- The word of the frame that holds a register. -/
def slot : Reg → Nat
  | .r15 => 2
  | .r14 => 3
  | .r13 => 4
  | .r12 => 5
  | .r11 => 6
  | .r10 => 7
  | .r9 => 8
  | .r8 => 9
  | .rsi => 10
  | .rdi => 11
  | .rbp => 12
  | .rdx => 13
  | .rcx => 14
  | .rbx => 15
  | .rax => 16
  | .rsp => 19

theorem utrapframe_slot (tf : Trapframe) (cr2 : BitVec 64) (r : Reg) :
    (utrapframe tf cr2)[slot r]? = some (tf.reg r) := by
  cases r <;> rfl

/-- `restore` loads each register from its word of the frame. -/
theorem exec_restore (hrsp : b.reg .rsp = utf + 16#64) :
    ∃ c, b.exec alu restore = c ∧ c.reg .rsp = utf + 16#64 ∧
      (∀ r, r ≠ .rsp → c.reg r = b.word (utf + (8 * slot r : Nat))) ∧
      c.mem = b.mem ∧ c.eflags = b.eflags := by
  refine ⟨_, rfl, ?_, ?_, ?_, ?_⟩
  · simp [Cpu.exec, restore, Cpu.step, hrsp]
  · intro r hr
    -- no load changes the base register, so each goes to a fixed word
    cases r with
    | rsp => exact absurd rfl hr
    | _ => simp [Cpu.exec, restore, Cpu.step, hrsp, BitVec.add_assoc, slot]
  · simp [Cpu.exec, restore, Cpu.step]
  · simp [Cpu.exec, restore, Cpu.step]

/-- `leave` takes flags and stack pointer from the frame, and `rip` from where the
    stack pointer then is. -/
theorem exec_leave (hrsp : b.reg .rsp = utf + 16#64) :
    ∃ c, b.exec alu leave = c ∧ c.reg .rsp = b.word (utf + 152#64) + 8#64 ∧
      c.rip = b.word (b.word (utf + 152#64)) ∧ (∀ r, r ≠ .rsp → c.reg r = b.reg r) ∧
      c.mem = b.mem ∧
      ∃ f, f &&& ~~~arithFlags = b.eflags &&& ~~~arithFlags ∧
        c.eflags = f &&& ~~~popfFlags f ||| b.word (utf + 144#64) &&& popfFlags f := by
  refine ⟨_, rfl, ?_, ?_, ?_, ?_, ?_⟩
  · simp [Cpu.exec, leave, Cpu.step, hrsp, BitVec.add_assoc]
  · simp [Cpu.exec, leave, Cpu.step, hrsp, BitVec.add_assoc]
  · intro r hr
    simp [Cpu.exec, leave, Cpu.step, Function.update_of_ne hr]
  · simp [Cpu.exec, leave, Cpu.step]
  · refine ⟨((b.step alu (.add 120#64 .rsp)).step alu (.add 8#64 .rsp)).eflags, ?_, ?_⟩
    · simp [Cpu.step, and_not_or]
    · simp [Cpu.exec, leave, Cpu.step, hrsp, BitVec.add_assoc]

/-- The code after the handler, from a frame at `utf`: the flags are those of the
    frame if the handler kept those it cannot change, and `rip` is whatever is
    below the trap-time stack pointer in the end. -/
theorem exec_resume (hrsp : b.reg .rsp = utf - 8#64) (hutf : b.word (utf - 8#64) = utf)
    (hframe : FrameAt b utf tf cr2) (hapart : Apart 8 (tf.rsp - 8#64) 152 utf)
    (hflags : b.eflags &&& ~~~popfFlags tf.eflags = tf.eflags &&& ~~~popfFlags tf.eflags) :
    ∃ c mid, b.exec alu resume = c ∧
      mid = (b.setWord (tf.rsp - 8#64) tf.rip).setWord (utf + 152#64) (tf.rsp - 8#64) ∧
      c.reg = tf.reg ∧ c.rip = mid.word (tf.rsp - 8#64) ∧ c.eflags = tf.eflags ∧
      c.mem = mid.mem := by
  rcases exec_prepare alu hrsp hutf hframe with ⟨c1, h1, hrsp1, hmem1, hfl1⟩
  rcases exec_restore alu hrsp1 with ⟨c2, h2, hrsp2, hreg2, hmem2, hfl2⟩
  rcases exec_leave alu hrsp2 with ⟨c3, h3, hrsp3, hrip3, hreg3, hmem3, f, hf, hfl3⟩
  have hrun : b.exec alu resume = c3 := by
    unfold resume
    rw [Cpu.exec, List.foldl_append, List.foldl_append, ← h3, ← h2, ← h1]
    rfl
  -- the words of the frame but the last are where they were
  have hmid : ∀ i w, i < 19 → (utrapframe tf cr2)[i]? = some w →
      c1.word (utf + (8 * i : Nat)) = w := by
    intro i w hi hw
    rw [Cpu.word_congr hmem1, Cpu.word_setWord_apart, Cpu.word_setWord_apart]
    · exact hframe i w hw
    · exact (hapart.part (by omega)).symm
    · exact (spread_word 160 utf (by decide)).apart 8 (8 * i) 8 152 (by omega) (by omega)
        (.inl (by omega))
  have hlast : c2.word (utf + 152#64) = tf.rsp - 8#64 := by
    rw [Cpu.word_congr (hmem2.trans hmem1), Cpu.word_setWord]
  refine ⟨c3, _, hrun, rfl, ?_, ?_, ?_, ?_⟩
  · funext r
    by_cases hr : r = .rsp
    · rw [hr, hrsp3, hlast, BitVec.sub_add_cancel]
      rfl
    · rw [hreg3 r hr, hreg2 r hr]
      refine hmid (slot r) (tf.reg r) ?_ (utrapframe_slot tf cr2 r)
      revert hr
      cases r <;> decide
  · rw [hrip3, hlast]
    exact Cpu.word_congr (hmem2.trans hmem1) _
  · -- `f` is what the flags were when `popf` ran
    have hkeep : f &&& ~~~popfFlags tf.eflags = tf.eflags &&& ~~~popfFlags tf.eflags := by
      rw [← hflags]
      refine and_not_mono ?_ (arithFlags_popf _)
      rw [hf, hfl2, hfl1]
    have heflags : c2.word (utf + 144#64) = tf.eflags := by
      rw [Cpu.word_congr hmem2]
      exact hmid 18 tf.eflags (by omega) rfl
    rw [hfl3, popfFlags_congr hkeep, hkeep, heflags, and_not_or_and]
  · rw [hmem3, hmem2, hmem1]

end

/-! ## The kernel's part -/

theorem utf_toNat (rsp : Nat) : (ofNat 64 (utf rsp)).toNat = utf rsp := by
  have hle := (utf_bounds rsp).2
  rw [toNat_ofNat]
  refine Nat.mod_eq_of_lt ?_
  simp only [uxstacktop, utop] at hle
  omega

/-- The word below the stack pointer is outside of the frame unless the stack
    pointer is at the top of the exception stack or less than a word above it. -/
theorem word_apart {rsp : BitVec 64} (h : ¬(uxstacktop ≤ rsp.toNat ∧ rsp.toNat < uxstacktop + 8)) :
    Apart 8 (rsp - 8#64) 160 (ofNat 64 (utf rsp.toNat)) := by
  intro i j hi hj he
  have hnat := congrArg BitVec.toNat he
  have hlt := rsp.isLt
  have hcases := utf_cases rsp.toNat
  simp only [toNat_add, toNat_sub, natCast_eq_ofNat, toNat_ofNat]
    at hnat
  simp only [uxstacktop, utop, pgSize] at h hcases
  -- on the exception stack the kernel left a word free; elsewhere it is far away
  omega

variable {A : Nat → Prop} {mem : BitVec 64 → BitVec 8} {cr2 : BitVec 64} {s : Kernel} {cur : Nat}

/-- A frame that was stored is there. -/
theorem frameAt_of_stored {tf : Trapframe} (tf' : Trapframe) {mem' : BitVec 64 → BitVec 8} {n : Nat}
    (hn : n + 160 ≤ uxstacktop) (hframe : ∀ i < 160, A (n + i))
    (hstored : ∀ x : BitVec 64, A x.toNat → mem' x =
      storeList mem 8 (ofNat 64 n) ((utrapframe tf cr2).map BitVec.toNat) x) :
    FrameAt (.enter tf' mem') (ofNat 64 n) tf cr2 := by
  intro i w hw
  have hi : i < 20 := (List.getElem?_eq_some_iff.1 hw).1
  simp only [uxstacktop, utop] at hn
  -- each byte of the word is one of the frame's
  have hbyte : ∀ j < 8, A (ofNat 64 n + (8 * i : Nat) + (j : Nat)).toNat := by
    intro j hj
    have hin : (ofNat 64 n + (8 * i : Nat) + (j : Nat)).toNat = n + (8 * i + j) := by
      simp only [toNat_add, natCast_eq_ofNat, toNat_ofNat]
      omega
    rw [hin]
    exact hframe _ (by omega)
  have hload := load_congr _ fun j hj => hstored _ (hbyte j hj)
  have hspread : Spread (8 * ((utrapframe tf cr2).map BitVec.toNat).length) (ofNat 64 n) :=
    spread_word 160 _ (by decide)
  have hlt : w.toNat < 256 ^ 8 := w.isLt
  rw [load_storeList 8 _ _ _ i w.toNat hspread (by rw [List.getElem?_map, hw]; rfl),
    Nat.mod_eq_of_lt hlt] at hload
  change ofNat 64 (load mem' 8 _) = w
  rw [hload, ofNat_toNat, setWidth_eq]

/-- Once the check of the exception stack has passed, the kernel stores the frame
    and goes on in the upcall with the frame below the stack pointer. -/
theorem pageFaultHandler_frame {c : Nat} (cr2 : BitVec 64) (hup : (s.envs cur).envPgfaultUpcall ≠ 0)
    (hcheck : s.userMemAssert c cur (utf (s.envs cur).envTf.rsp.toNat) 160 2 = .ret () s)
    (hplain : s.vm.Plain (s.curRoot cur) A)
    (hframe : ∀ i < 160, A (utf (s.envs cur).envTf.rsp.toNat + i)) :
    ∃ s', s.pageFaultHandler c cur cr2 = .user s' ∧
      (s'.envs cur).envTf = { (s.envs cur).envTf with
        rip := (s.envs cur).envPgfaultUpcall
        rsp := ofNat 64 (utf (s.envs cur).envTf.rsp.toNat) } ∧
      ∀ x : BitVec 64, A x.toNat → s'.vm.view (s.curRoot cur) x =
        storeList (s.vm.view (s.curRoot cur)) 8 (ofNat 64 (utf (s.envs cur).envTf.rsp.toNat))
          ((utrapframe (s.envs cur).envTf cr2).map BitVec.toNat) x := by
  have hnat := utf_toNat (s.envs cur).envTf.rsp.toNat
  have hle := (utf_bounds (s.envs cur).envTf.rsp.toNat).2
  have hlen : (utrapframe (s.envs cur).envTf cr2).length = 20 := rfl
  rcases Vm.Plain.storeWords (utrapframe (s.envs cur).envTf cr2) s.vm
      (ofNat 64 (utf (s.envs cur).envTf.rsp.toNat)) hplain
      (fun i hi => by rw [hnat]; exact hframe i (by omega))
      (by rw [hnat, hlen]; simp only [uxstacktop, utop] at hle; omega) with ⟨m', hst, _, hview⟩
  rw [hnat] at hst
  have hrun : s.pageFaultHandler c cur cr2 = .user (({ s with vm := m' } : Kernel).setEnv cur
      { s.envs cur with envTf := { (s.envs cur).envTf with
          rip := (s.envs cur).envPgfaultUpcall
          rsp := ofNat 64 (utf (s.envs cur).envTf.rsp.toNat) } } |>.envRun c cur) := by
    unfold Kernel.pageFaultHandler
    simp only [if_pos hup, hcheck, Lib.Flow.bind, hst]
  refine ⟨_, hrun, ?_, ?_⟩
  · rw [Kernel.envRun_envs]
    simp
  · intro x hx
    rw [← hview x hx, (Kernel.SameMem.envRun _ c cur).vm]
    rfl

variable (alu : BitVec 64 → BitVec 64 → BitVec 64)

/-- The processor enters the upcall at a frame, and the handler runs: the code
    after it finds the frame and its own word below it as they were. -/
theorem handled_frame {tf tf' : Trapframe} {u : BitVec 64} (pgfaultHandler next : BitVec 64)
    (hu : 16 ≤ u.toNat) (htop : u.toNat + 160 < 2 ^ 64) (hrsp : tf'.rsp = u)
    (hfl : tf'.eflags = tf.eflags) (hframe : FrameAt (.enter tf' mem) u tf cr2) :
    ∃ a, (Cpu.enter tf' mem).exec alu (entry pgfaultHandler next) = a ∧
      (∀ x : BitVec 64, (∀ i < 16, x ≠ u - 16#64 + (i : Nat)) → a.mem x = mem x) ∧
      ∀ b, Handled a b → b.reg .rsp = u - 8#64 ∧ b.word (u - 8#64) = u ∧ FrameAt b u tf cr2 ∧
        b.eflags &&& ~~~popfFlags tf.eflags = tf.eflags &&& ~~~popfFlags tf.eflags := by
  have hsp' : (Cpu.enter tf' mem).reg .rsp = u := hrsp
  rcases exec_entry alu pgfaultHandler next hsp' with
    ⟨a, hrun, hsp, hmem, hflags⟩
  -- counted from two words below the frame, everything is in one round
  generalize hv : u - 16#64 = v at *
  have hu0 : u = v + (16 : Nat) := by
    rw [← hv]
    exact (BitVec.sub_add_cancel u 16#64).symm
  have hu8 : u - 8#64 = v + (8 : Nat) := by
    rw [hu0, show ((16 : Nat) : BitVec 64) = ((8 : Nat) : BitVec 64) + 8#64 from rfl, ← add_assoc]
    exact BitVec.add_sub_cancel _ _
  have hspread : Spread 176 v := spread_word 176 v (by decide)
  have happart : ∀ k, 8 ≤ k → k ≤ 168 → Apart 8 (v + (k : Nat)) 8 v := by
    intro k hlo hhi
    have h0 := hspread.apart 8 k 8 0 (by omega) (by omega) (.inr (by omega))
    rwa [Nat.cast_zero, add_zero] at h0
  have hstored : ∀ x, a.word x =
      (((Cpu.enter tf' mem).setWord (v + (8 : Nat)) u).setWord v next).word x := by
    rw [hu8] at hmem
    exact fun x => Cpu.word_congr hmem x
  refine ⟨a, hrun, ?_, ?_⟩
  · intro x hx
    rw [hmem, Cpu.setWord_mem, store_apart, Cpu.setWord_mem, store_apart]
    · rfl
    · intro i hi
      rw [hu8, add_assoc, ← Nat.cast_add]
      exact hx (8 + i) (by omega)
    · exact fun i hi => hx i (by omega)
  · intro b hb
    have hsp8 : a.reg .rsp + 8#64 = v + (8 : Nat) := by
      rw [hsp]
      rfl
    -- the handler leaves everything from the saved pointer on
    have hword : ∀ k, 8 ≤ k → k ≤ 168 → b.word (v + (k : Nat)) = a.word (v + (k : Nat)) := by
      intro k hlo hhi
      unfold Cpu.word
      rw [load_congr _ fun i hi => ?_]
      refine hb.above _ ?_
      rw [hsp8, ← hv]
      simp only [toNat_add, toNat_sub, natCast_eq_ofNat, toNat_ofNat]
      omega
    refine ⟨by rw [hb.stack, hsp8, hu8], ?_, ?_, ?_⟩
    · rw [hu8, hword 8 (by omega) (by omega), hstored, Cpu.word_setWord_apart, Cpu.word_setWord]
      exact happart 8 (by omega) (by omega)
    · intro i w hw
      have hi : i < 20 := (List.getElem?_eq_some_iff.1 hw).1
      have hoff : u + (8 * i : Nat) = v + (16 + 8 * i : Nat) := by
        rw [hu0, add_assoc, ← Nat.cast_add]
      have hw' := hframe i w hw
      rw [hoff] at hw' ⊢
      rw [hword _ (by omega) (by omega), hstored, Cpu.word_setWord_apart, Cpu.word_setWord_apart]
      · exact hw'
      · exact hspread.apart 8 _ 8 8 (by omega) (by omega) (.inr (by omega))
      · exact happart _ (by omega) (by omega)
    · have hoff : a.eflags &&& ~~~popfFlags tf.eflags = tf.eflags &&& ~~~popfFlags tf.eflags := by
        refine and_not_mono ?_ (arithFlags_popf _)
        rw [hflags, ← hfl]
        rfl
      have hpf := popfFlags_congr hoff
      rw [← hpf, hb.flags, hpf, hoff]

/-- A page fault at which the check of the exception stack passes, whatever the
    registers are, as long as the stack pointer is not at the top of the exception
    stack: the kernel changes nothing but the frame, the call of the handler
    nothing but the two words below it, and from whatever the handler left the
    code resumes with all registers, `rip` and the flags of the fault, having
    changed nothing but the frame and the word below the trap-time stack pointer. -/
theorem fault_resumes (s : Kernel) (c cur : Nat) (cr2 pgfaultHandler next : BitVec 64)
    (A : Nat → Prop) (tf : Trapframe) (u : BitVec 64) (htf : (s.envs cur).envTf = tf)
    (hu : u = ofNat 64 (utf tf.rsp.toNat)) (hup : (s.envs cur).envPgfaultUpcall ≠ 0)
    (hcheck : s.userMemAssert c cur (utf tf.rsp.toNat) 160 2 = .ret () s)
    (hplain : s.vm.Plain (s.curRoot cur) A) (hframe : ∀ i < 160, A (utf tf.rsp.toNat + i))
    (hrsp : ¬(uxstacktop ≤ tf.rsp.toNat ∧ tf.rsp.toNat < uxstacktop + 8)) :
    ∃ s' a, s.pageFaultHandler c cur cr2 = .user s' ∧
      (s'.envs cur).envTf.rip = (s.envs cur).envPgfaultUpcall ∧
      (∀ x : BitVec 64, A x.toNat → (∀ i < 160, x ≠ u + (i : Nat)) →
        s'.vm.view (s.curRoot cur) x = s.vm.view (s.curRoot cur) x) ∧
      a = (Cpu.enter (s'.envs cur).envTf (s'.vm.view (s.curRoot cur))).exec alu
        (entry pgfaultHandler next) ∧
      (∀ x : BitVec 64, (∀ i < 16, x ≠ u - 16#64 + (i : Nat)) →
        a.mem x = s'.vm.view (s.curRoot cur) x) ∧
      ∀ b, Handled a b →
        (b.exec alu resume).reg = tf.reg ∧ (b.exec alu resume).rip = tf.rip ∧
        (b.exec alu resume).eflags = tf.eflags ∧
        ∀ x : BitVec 64, (∀ i < 160, x ≠ u + (i : Nat)) →
          (∀ i < 8, x ≠ tf.rsp - 8#64 + (i : Nat)) → (b.exec alu resume).mem x = b.mem x := by
  subst htf hu
  rcases pageFaultHandler_frame cr2 hup hcheck hplain hframe with
    ⟨s', hrun, htf', hview⟩
  have hbounds := utf_bounds (s.envs cur).envTf.rsp.toNat
  have hnat := utf_toNat (s.envs cur).envTf.rsp.toNat
  have hsmall : (ofNat 64 (utf (s.envs cur).envTf.rsp.toNat)).toNat + 160 < 2 ^ 64 := by
    rw [hnat]
    simp only [uxstacktop, utop] at hbounds
    omega
  have hapart := word_apart hrsp
  generalize (s.envs cur).envTf = tf at *
  have hat := frameAt_of_stored (s'.envs cur).envTf hbounds.2 hframe hview
  rcases handled_frame alu pgfaultHandler next
    (by rw [hnat]; exact hbounds.1) hsmall (by rw [htf']) (by rw [htf']) hat with
    ⟨a, ha, hmem, hhandled⟩
  refine ⟨s', a, hrun, by rw [htf'], ?_, ha.symm, hmem, ?_⟩
  · intro x hx hout
    rw [hview x hx, storeList_apart]
    exact fun i hi => hout i hi
  · intro b hb
    rcases hhandled b hb with ⟨hsp, hown, hfr, hfl⟩
    rcases exec_resume alu hsp hown hfr (fun i j hi hj => hapart i j hi (by omega)) hfl with
      ⟨r, mid, hres, hmid, hreg, hrip, hflags, hrmem⟩
    rw [hres]
    refine ⟨hreg, ?_, hflags, ?_⟩
    · rw [hrip, hmid, Cpu.word_setWord_apart, Cpu.word_setWord]
      exact hapart.part (by omega)
    · intro x hout hword
      rw [hrmem, hmid, Cpu.setWord_mem, store_apart, Cpu.setWord_mem, store_apart]
      · exact hword
      · intro i hi
        have := hout (152 + i) (by omega)
        rwa [Nat.cast_add, ← add_assoc] at this

/-- An environment with one page of exception stack, in page 5, that faults with
    the stack pointer `rsp`. -/
def faulting (rsp : BitVec 64) : Kernel :=
  let m : Vm := {
    npages := 8
    ppRef := fun _ => 0
    pageFreeList := []
    mem := fun p i =>
      if p = 1 ∧ i = 0 then page2pa 2 ||| 7
      else if p = 2 ∧ i = 3 then page2pa 3 ||| 7
      else if p = 3 ∧ i = pdx (uxstacktop - 1) then page2pa 4 ||| 7
      else if p = 4 ∧ i = ptx (uxstacktop - 1) then page2pa 5 ||| 7
      else 0 }
  (Kernel.envInit m 1).setEnv 0
    { envId := 4096, envStatus := .running, envPml4e := some 1, envCr3 := 1,
      envPgfaultUpcall := 0x800100,
      envTf := { Kernel.initialTf with rip := 0x800020, rsp := rsp } }

/-- The top of the exception stack. -/
def Top (a : Nat) : Prop := ∃ i < 160, a = uxstacktop - 160 + i

theorem faulting_plain (rsp : BitVec 64) : (faulting rsp).vm.Plain 1 Top := by
  have htr : ∀ i < 160, (faulting 0).vm.translate 1 (uxstacktop - 160 + i) =
      some (page2pa 5 ||| 7, true, true) := by decide +kernel
  have hpath : ∀ i < 160, (faulting 0).vm.path 1 (uxstacktop - 160 + i) = [1, 2, 3, 4] := by
    decide +kernel
  have hvm : (faulting rsp).vm = (faulting 0).vm := rfl
  rw [hvm]
  refine ⟨?_, ?_, ?_⟩
  · rintro a ⟨i, hi, rfl⟩
    exact ⟨_, _, htr i hi⟩
  · rintro a b e e' w w' u u' ⟨i, hi, rfl⟩ ⟨j, hj, rfl⟩ _ _ _
    simp only [uxstacktop, utop, pgSize]
    omega
  · rintro a b e w u ⟨i, hi, rfl⟩ ⟨j, hj, rfl⟩ h
    rw [htr i hi, Option.some.injEq, Prod.mk.injEq] at h
    rw [hpath j hj, ← h.1]
    decide

theorem faulting_check (rsp : BitVec 64) :
    (faulting rsp).userMemAssert 0 0 (uxstacktop - 160) 160 2 = .ret () (faulting rsp) := by
  have hok : (faulting 0).vm.userMemCheck 1 1 (uxstacktop - 160) 160 (2 ||| 4) = some true := by
    decide
  have honce : ((faulting rsp).onPml4e 0 fun root => (faulting rsp).vm.userMemCheck
      ((faulting rsp).curRoot 0) root (uxstacktop - 160) 160 (2 ||| 4)) = some true := by
    have hroot : ((faulting rsp).envs 0).envPml4e = some 1 := rfl
    have hcr3 : (faulting rsp).curRoot 0 = 1 := rfl
    have hvm : (faulting rsp).vm = (faulting 0).vm := rfl
    unfold Kernel.onPml4e
    rwa [hroot, hcr3, hvm]
  unfold Kernel.userMemAssert Kernel.userMemCheck
  rw [honce]

/-- A handler that returns at once. -/
def atOnce (a : Cpu) : Cpu := (a.setReg .rsp (a.reg .rsp + 8#64)).setRip (a.word (a.reg .rsp))

theorem handled_atOnce (a : Cpu) : Handled a (atOnce a) := by
  refine ⟨rfl, ?_, fun _ _ => rfl, rfl⟩
  unfold atOnce
  rw [Cpu.setRip_reg, Cpu.setReg_reg, Function.update_self]

/-- A fault on the normal stack. -/
theorem fault_resumes_stack : ∃ s' a, (faulting 0xef7fd000).pageFaultHandler 0 0 0x1000 = .user s' ∧
    Handled a (atOnce a) ∧ ((atOnce a).exec (· + ·) resume).rip = 0x800020 := by
  rcases fault_resumes (· + ·) (faulting 0xef7fd000) 0 0 0x1000 0x802000 0x800105 Top _ _ rfl rfl
    (by decide) (faulting_check _) (faulting_plain _) (fun i hi => ⟨i, hi, rfl⟩) (by decide) with
    ⟨s', a, hrun, _, _, _, _, hres⟩
  exact ⟨s', a, hrun, handled_atOnce a, (hres _ (handled_atOnce a)).2.1⟩

/-- With the stack pointer at the top of the exception stack the word to get back
    by is the last of the frame, and `rip` ends up with the address of that word. -/
theorem fault_top {c : Nat}
    (cr2 pgfaultHandler next : BitVec 64) (hup : (s.envs cur).envPgfaultUpcall ≠ 0)
    (hcheck : s.userMemAssert c cur (uxstacktop - 160) 160 2 = .ret () s)
    (hplain : s.vm.Plain (s.curRoot cur) A) (hframe : ∀ i < 160, A (uxstacktop - 160 + i))
    (hrsp : (s.envs cur).envTf.rsp = ofNat 64 uxstacktop) :
    ∃ s' a, s.pageFaultHandler c cur cr2 = .user s' ∧
      a = (Cpu.enter (s'.envs cur).envTf (s'.vm.view (s.curRoot cur))).exec alu
        (entry pgfaultHandler next) ∧
      ∀ b, Handled a b → (b.exec alu resume).rip = ofNat 64 (uxstacktop - 8) := by
  have hutf : utf (s.envs cur).envTf.rsp.toNat = uxstacktop - 160 := by
    rw [hrsp]
    decide
  rw [← hutf] at hcheck hframe
  rcases pageFaultHandler_frame cr2 hup hcheck hplain hframe with
    ⟨s', hrun, htf', hview⟩
  have hat := frameAt_of_stored (s'.envs cur).envTf
    (utf_bounds (s.envs cur).envTf.rsp.toNat).2 hframe hview
  rw [hutf] at hat htf'
  generalize (s.envs cur).envTf = tf at *
  rcases handled_frame alu pgfaultHandler next
    (by decide) (by decide) (by rw [htf']) (by rw [htf']) hat with ⟨a, ha, _, hhandled⟩
  refine ⟨s', a, hrun, ha.symm, fun b hb => ?_⟩
  rcases hhandled b hb with ⟨hsp, hown, hfr, hfl⟩
  -- the word is apart from the rest of the frame, so the rest is still restored
  have hword : tf.rsp - 8#64 = ofNat 64 (uxstacktop - 160) + (152 : Nat) := by
    rw [hrsp]
    decide
  have hapart : Apart 8 (tf.rsp - 8#64) 152 (ofNat 64 (uxstacktop - 160)) := by
    have h0 := (spread_word 160 (ofNat 64 (uxstacktop - 160)) (by decide)).apart 8 152 152 0
      (by omega) (by omega) (.inr (by omega))
    rw [Nat.cast_zero, add_zero] at h0
    rwa [hword]
  rcases exec_resume alu hsp hown hfr hapart hfl with ⟨r, mid, hres, hmid, _, hrip, _, _⟩
  rw [hres, hrip, hmid, hword]
  change ((b.setWord _ tf.rip).setWord (ofNat 64 (uxstacktop - 160) + 152#64) _).word
    (ofNat 64 (uxstacktop - 160) + 152#64) = _
  rw [Cpu.word_setWord]
  decide

/-- A fault with an empty exception stack does not come back: `rip` is an address
    on the exception stack afterwards. -/
theorem fault_not_resumes : ∃ s' a b,
    (faulting (ofNat 64 uxstacktop)).pageFaultHandler 0 0 0x1000 = .user s' ∧
    a = (Cpu.enter (s'.envs 0).envTf (s'.vm.view 1)).exec (· + ·) (entry 0x802000 0x800105) ∧
    Handled a b ∧ (b.exec (· + ·) resume).rip = ofNat 64 (uxstacktop - 8) ∧
    ((faulting (ofNat 64 uxstacktop)).envs 0).envTf.rip = 0x800020 := by
  rcases fault_top (· + ·) 0x1000 0x802000 0x800105
    (by decide) (faulting_check _) (faulting_plain _) (fun i hi => ⟨i, hi, rfl⟩) rfl with
    ⟨s', a, hrun, ha, hrip⟩
  exact ⟨s', a, atOnce a, hrun, ha, handled_atOnce a, hrip _ (handled_atOnce a), rfl⟩

end Upcall

end Jos
