import Jos.Theory.Isolation

/-!
# Privilege of Saved Frames

Whatever is in `env_tf` when an environment is resumed becomes its machine
state: a code segment with privilege level 0, a cleared interrupt flag or an I/O
privilege level of 3 would hand the machine to user code. Five places write the
frame: `env_alloc`, `env_create`, the trap entry, `sys_exofork` and
`sys_env_set_trapframe`.

The system is the kernel with any number of CPUs and any schedule. Beside the
table it keeps, for each environment, the frame the hardware was last given for
it, since what user code can do to its flags depends on that one.
`userFrame` is what the processor promises of a frame it saves on a trap from
user mode.

## Main definitions

* `Good`: A frame that confines its environment.
* `Priv`, `Priv.step`: The system.
* `Priv.Guarded`: The traps that do not hand the kernel a bad frame.
* `Confined`: Every environment in use has a good frame.

## Theorems

* `syscall_confined`, `trap_confined`: One trap keeps `Confined`.
* `saved_good`: In every guarded run all saved frames are good.
* `saved_not_good`: The run in which a program gives itself privilege level 0.
-/

namespace Jos

open Function (update update_self update_of_ne)
open Option (bind_eq_some_iff map_eq_some_iff some.inj)

/-- The frame runs at privilege level 3 with interrupts on, and has I/O
    privileges only in the file server. -/
def Good (type : EnvType) (f : Trapframe) : Prop :=
  f.cs &&& 3 = 3 ∧ f.ss &&& 3 = 3 ∧ f.eflags &&& 0x200 = 0x200 ∧
    (f.eflags &&& 0x3000 = 0x3000 → type = .fs)

/-- What the processor promises of the frame `f` it saves on a trap from user
    mode, when user mode was entered with the frame `old`: the selectors are
    those of privilege level 3, the I/O privilege level is unchanged, and so is
    the interrupt flag unless that level is 3. -/
def userFrame (old f : Trapframe) : Bool :=
  f.cs &&& 3 == 3 && f.ss &&& 3 == 3 && f.eflags &&& 0x3000 == old.eflags &&& 0x3000 &&
    (old.eflags &&& 0x3000 == 0x3000 || f.eflags &&& 0x200 == old.eflags &&& 0x200)

/-- The kernel and the frames last given to the hardware. -/
structure Priv where
  k : Kernel
  loaded : Nat → Trapframe

namespace Priv

/-- An environment is created at boot, a program stores a byte or the hardware
    notes an access, as in `Mem.step`; a CPU resumes an environment, or one traps
    on some CPU. -/
inductive Event
  | mem (ev : Mem.Event)
  | resume (e : Nat)
  | trap (c e : Nat) (tf : Trapframe) (cr2 : BitVec 64)

/-- The next state of the kernel; an environment that was not in use before
    starts with its saved frame. -/
def advance (σ : Priv) (k : Kernel) : Priv where
  k := k
  loaded := fun e =>
    if (σ.k.envs e).envStatus = .free then (k.envs e).envTf else σ.loaded e

/-- The kernel as the trap of `e` on `c` finds it. -/
def onCpu (σ : Priv) (c e : Nat) : Kernel := σ.k.setCpuEnv c (some e)

/-- One step; the schedule is left open, so any environment in use may be
    resumed or trap. -/
def step (σ : Priv) : Event → Option Priv
  | .mem (.call _ _ _) => none
  | .mem ev => (Mem.step σ.k ev).map σ.advance
  | .resume e => some { σ with loaded := update σ.loaded e (σ.k.envs e).envTf }
  | .trap c e tf cr2 =>
    if e < nenv ∧ (σ.k.envs e).envStatus ≠ .free ∧ userFrame (σ.loaded e) tf then
      ((σ.onCpu c e).trap c tf cr2).exit?.map σ.advance
    else none

end Priv

namespace Kernel

/-- The call does not make a bad frame: the frame given to
    `sys_env_set_trapframe` is good for its target, a caller with I/O privileges
    does not fork, and no environment that another CPU runs is freed. -/
def CallGuarded (s : Kernel) (cur : Nat) : Call → Prop
  | .envSetTrapframe envid tf => ∀ e f, s.envid2env cur envid true = some e →
      s.vm.loadTrapframe (s.curRoot cur) tf = some f → Good (s.envs e).envType f
  | .exofork => (s.envs cur).envTf.eflags &&& 0x3000 ≠ 0x3000
  | .envDestroy envid => ∀ e, s.envid2env cur envid true = some e → e ≠ cur →
      (s.envs e).envStatus ≠ .running → ∀ c, c < ncpu → s.cpuEnv c ≠ some e
  | _ => True

end Kernel

/-- The traps under which frames stay good: the environment runs on no other CPU,
    one with I/O privileges has not switched its interrupts off, memory stays in
    order, so that no program can store to the table, and the call, if it is one, is
    guarded. -/
structure Priv.GuardedTrap (σ : Priv) (c e : Nat) (tf : Trapframe) : Prop where
  alone : ∀ c', c' < ncpu → σ.k.cpuEnv c' = some e → c' = c
  interrupts : tf.eflags &&& 0x3000 = 0x3000 → tf.eflags &&& 0x200 = 0x200
  tame : (σ.onCpu c e).TameTrap e tf
  call : tf.trapno.toNat = 48 →
    ((σ.onCpu c e).setEnv e { (σ.onCpu c e).envs e with envTf := tf }).CallGuarded e
      (Call.decode tf.regs)

def Priv.Guarded (σ : Priv) : Priv.Event → Prop
  | .trap c e tf _ => σ.GuardedTrap c e tf
  | _ => True

variable {type : EnvType}

namespace Kernel

/-- Every environment in use has a good frame, the free list holds free slots,
    and no environment in use in `s0` has another type now. -/
structure Confined (s0 s : Kernel) : Prop where
  saved : ∀ e, e < nenv → (s.envs e).envStatus ≠ .free → Good (s.envs e).envType (s.envs e).envTf
  freeNodup : s.envFreeList.Nodup
  freeList : ∀ e, e ∈ s.envFreeList → (s.envs e).envStatus = .free
  type : ∀ e, e < nenv → (s0.envs e).envStatus ≠ .free → (s.envs e).envStatus ≠ .free →
    (s.envs e).envType = (s0.envs e).envType

variable {s' s s0 : Kernel} {α : Type} {c cur : Nat}

namespace Confined

variable {s0 s : Kernel}

/-- Only the table and the free list matter, and of the table only frame, type
    and whether a slot is free. -/
theorem congr (h : Confined s0 s) (hlist : s'.envFreeList = s.envFreeList)
    (hfree : ∀ e, (s'.envs e).envStatus = .free ↔ (s.envs e).envStatus = .free)
    (htype : ∀ e, (s'.envs e).envType = (s.envs e).envType)
    (htf : ∀ e, (s'.envs e).envTf = (s.envs e).envTf) : Confined s0 s' where
  saved := by
    intro e he hs
    rw [htype, htf]
    exact h.saved e he (fun hf => hs ((hfree e).2 hf))
  freeNodup := hlist ▸ h.freeNodup
  freeList := by
    intro e he
    rw [hlist] at he
    exact (hfree e).2 (h.freeList e he)
  type := by
    intro e he h0 hs
    rw [htype]
    exact h.type e he h0 (fun hf => hs ((hfree e).2 hf))

/-- An environment in use may take any good frame and any status. -/
theorem setEnv (h : Confined s0 s) (e : Nat) (v : Env) (hlive : (s.envs e).envStatus ≠ .free)
    (htype : v.envType = (s.envs e).envType) (hgood : e < nenv → Good v.envType v.envTf) :
    Confined s0 (s.setEnv e v) where
  saved := by
    intro i hi hs
    by_cases hie : i = e
    · rw [hie, setEnv_envs, update_self]
      exact hgood (hie ▸ hi)
    · rw [setEnv_envs, update_of_ne hie] at hs ⊢
      exact h.saved i hi hs
  freeNodup := h.freeNodup
  freeList := by
    intro i hi
    have hie : i ≠ e := fun hie => hlive (hie ▸ h.freeList i hi)
    rw [setEnv_envs, update_of_ne hie]
    exact h.freeList i hi
  type := by
    intro i hi h0 hs
    by_cases hie : i = e
    · rw [hie] at hi h0 ⊢
      rw [setEnv_envs, update_self, htype]
      exact h.type e hi h0 hlive
    · rw [setEnv_envs, update_of_ne hie] at hs ⊢
      exact h.type i hi h0 hs

end Confined

/-! ## The scheduler and the table -/

theorem envRun_confined {e : Nat} (c : Nat) (h : Confined s0 s)
    (he : (s.envs e).envStatus ≠ .free) : Confined s0 (s.envRun c e) := by
  refine h.congr (envRun_frame s c e).2.1 ?_ ?_ ?_
  · intro i
    rw [envRun_envs]
    by_cases hi : i = e
    · rw [hi]
      simp [he]
    · simp only [if_neg hi]
      by_cases hr : s.cpuEnv c = some i ∧ (s.envs i).envStatus = .running
      · rw [if_pos hr, hr.2]; simp
      · rw [if_neg hr]
  · intro i; rw [envRun_envs]
  · intro i; rw [envRun_envs]

theorem schedYield_confined (c : Nat) (R : α → Kernel → Prop) (h : Confined s0 s) :
    (s.schedYield c).Sat R (Confined s0) (fun _ => True) := by
  refine schedYield_rule R ?_ ?_ ?_ trivial
  · intro j hst _ _
    exact envRun_confined c h (by rw [hst]; simp)
  · intro e _ hst
    exact envRun_confined c h (by rw [hst]; simp)
  · intro hst
    refine envRun_confined c h ?_
    rcases hst with hst | hst <;> rw [hst] <;> simp

theorem initialTf_good (type : EnvType) : Good type initialTf := by
  refine ⟨by decide, by decide, by decide, ?_⟩
  intro h
  cases h

/-- A new environment starts with the good frame of `env_alloc`. -/
theorem envAlloc_confined {pid : BitVec 32} {r : Except Int Nat} (h : Confined s0 s)
    (hfree : ∀ e, (s0.envs e).envStatus ≠ .free → (s.envs e).envStatus ≠ .free)
    (hrun : s.envAlloc pid = some (r, s')) :
    Confined s0 s' ∧ s'.cpuEnv = s.cpuEnv ∧
      (∀ e, (s.envs e).envStatus ≠ .free → s'.envs e = s.envs e) ∧
      ∀ e, r = .ok e → (s.envs e).envStatus = .free ∧ (s'.envs e).envStatus ≠ .free ∧
        (s'.envs e).envType = .user := by
  rcases envAlloc_cases hrun with ⟨⟨err, hr⟩, hs'⟩ | ⟨e, rest, p, m, hr, hlist, _, hs'⟩
  · have hp : Confined s0 s' ∧ s'.cpuEnv = s.cpuEnv ∧ s'.envs = s.envs := by
      rcases hs' with hs' | ⟨_, _, m, _, _, hs'⟩
      · rw [hs']; exact ⟨h, rfl, rfl⟩
      · rw [hs']
        exact ⟨h.congr rfl (fun _ => Iff.rfl) (fun _ => rfl) (fun _ => rfl), rfl, rfl⟩
    refine ⟨hp.1, hp.2.1, fun e _ => by rw [hp.2.2], ?_⟩
    intro e he
    rw [hr] at he
    cases he
  · have he := h.freeList e (hlist ▸ List.mem_cons_self)
    have hnd := h.freeNodup
    rw [hlist, List.nodup_cons] at hnd
    have hself : s'.envs e = newEnv (s.envs e) e p pid := by
      rw [hs']
      simp only [setEnv_envs, update_self]
    have henvs : ∀ i, i ≠ e → s'.envs i = s.envs i := by
      intro i hi
      rw [hs']
      simp only [setEnv_envs, update_of_ne hi]
    have hrest : s'.envFreeList = rest := by rw [hs']
    refine ⟨⟨?_, hrest ▸ hnd.2, ?_, ?_⟩, by rw [hs']; rfl, ?_, ?_⟩
    · intro i hi hs
      by_cases hie : i = e
      · rw [hie, hself]
        exact initialTf_good _
      · rw [henvs i hie] at hs ⊢
        exact h.saved i hi hs
    · intro i hi
      rw [hrest] at hi
      rw [henvs i (fun hie => hnd.1 (hie ▸ hi))]
      exact h.freeList i (hlist ▸ List.mem_cons_of_mem e hi)
    · intro i hi h0 hs
      have hie : i ≠ e := fun hie => hfree i h0 (hie ▸ he)
      rw [henvs i hie] at hs ⊢
      exact h.type i hi h0 hs
    · intro i hi
      exact henvs i (fun hie => hi (hie ▸ he))
    · intro e' he'
      rw [hr] at he'
      cases he'
      rw [hself]
      exact ⟨he, by simp [newEnv], rfl⟩

/-- The middle of a trap of `cur` on `c`: the environment is in use. -/
structure Trapped (s0 : Kernel) (c cur : Nat) (s : Kernel) : Prop where
  confined : Confined s0 s
  cpu : s.cpuEnv c = some cur
  inUse : (s.envs cur).envStatus ≠ .free

namespace Trapped

variable {s0 s : Kernel} {c cur e : Nat} (h : Trapped s0 c cur s)
include h

theorem congr (hsame : SameTable s s') : Trapped s0 c cur s' :=
  ⟨h.confined.congr hsame.list (fun _ => by rw [hsame.envs]) (fun _ => by rw [hsame.envs])
    (fun _ => by rw [hsame.envs]), hsame.cpuEnv ▸ h.cpu,
    hsame.envs ▸ h.inUse⟩

theorem setEnv (v : Env) (hlive : (s.envs e).envStatus ≠ .free)
    (hv : v.envStatus ≠ .free) (htype : v.envType = (s.envs e).envType)
    (hgood : e < nenv → Good v.envType v.envTf) : Trapped s0 c cur (s.setEnv e v) := by
  refine ⟨h.confined.setEnv e v hlive htype hgood, h.cpu, ?_⟩
  by_cases hce : cur = e
  · rw [hce, setEnv_envs, update_self]; exact hv
  · rw [setEnv_envs, update_of_ne hce]; exact h.inUse

theorem setFields (v : Env) (hlive : (s.envs e).envStatus ≠ .free)
    (hv : v.envStatus ≠ .free) (htype : v.envType = (s.envs e).envType)
    (htf : v.envTf = (s.envs e).envTf) : Trapped s0 c cur (s.setEnv e v) := by
  refine h.setEnv v hlive hv htype ?_
  intro he
  rw [htype, htf]
  exact h.confined.saved e he hlive

/-- An id resolves to an environment in use. -/
theorem target {envid : BitVec 32} {checkperm : Bool}
    (he : s.envid2env cur envid checkperm = some e) : (s.envs e).envStatus ≠ .free := by
  rcases envid2env_cases he with rfl | ⟨_, hfree, _⟩
  · exact h.inUse
  · exact hfree

theorem yield (R : α → Kernel → Prop) :
    (s.schedYield c).Sat R (Confined s0) (fun _ => True) :=
  schedYield_confined c R h.confined

/-- Freeing an environment in use leaves the others as they are. -/
theorem freed (hlive : (s.envs e).envStatus ≠ .free)
    (hs' : Freed s c e s') : Confined s0 s' := by
  have hne : ∀ i, (s'.envs i).envStatus ≠ .free → i ≠ e := fun i hi hie => hi (hie ▸ hs'.status)
  refine ⟨?_, ?_, ?_, ?_⟩
  · intro i hi hs
    have hie := hne i hs
    rw [hs'.others i hie] at hs ⊢
    exact h.confined.saved i hi hs
  · rw [hs'.envFreeList]
    exact List.nodup_cons.2 ⟨fun he => hlive (h.confined.freeList e he), h.confined.freeNodup⟩
  · intro i hi
    by_cases hie : i = e
    · rw [hie]; exact hs'.status
    · rw [hs'.envFreeList, List.mem_cons] at hi
      rw [hs'.others i hie]
      exact h.confined.freeList i (hi.resolve_left hie)
  · intro i hi h0 hs
    have hie := hne i hs
    rw [hs'.others i hie] at hs ⊢
    exact h.confined.type i hi h0 hs

/-- The current environment is freed, and another one runs. -/
theorem quit (R : α → Kernel → Prop) :
    (s.envQuit c cur).Sat R (Confined s0) (fun _ => True) := by
  refine Lib.Flow.Sat.bind (envFree_cases s c cur trivial) ?_
  intro _ s' hs'
  exact schedYield_confined c _ ((h.freed h.inUse hs').congr rfl (fun _ => Iff.rfl)
    (fun _ => rfl) (fun _ => rfl))

theorem envDestroy (e : Nat) (hlive : (s.envs e).envStatus ≠ .free) :
    (s.envDestroy c e).Sat (fun _ s' => Trapped s0 c cur s') (Confined s0) (fun _ => True) := by
  by_cases hown : s.cpuEnv c = some e
  · have hce : e = cur := some.inj (hown.symm.trans h.cpu)
    rw [envDestroy_self hown, hce]
    exact h.quit _
  · unfold Kernel.envDestroy
    split
    · exact h.setFields _ hlive (by simp) rfl rfl
    · refine Lib.Flow.Sat.bind (envFree_cases s c e trivial) ?_
      intro _ s' hs'
      rw [if_neg (by rwa [hs'.cpuEnv])]
      refine ⟨h.freed hlive hs', hs'.cpuEnv ▸ h.cpu, ?_⟩
      have hce : cur ≠ e := fun hce => hown (hce ▸ h.cpu)
      rw [hs'.others cur hce]
      exact h.inUse

/-- The record that a guarded call stores has a good frame. -/
theorem stores {call : Call} {v : Env} (hcall : s.CallGuarded cur call)
    (hst : s.Stores cur call e v) : Trapped s0 c cur (s.setEnv e v) := by
  cases call with
  | envSetStatus envid status =>
    rcases hst with ⟨he, st, ⟨_, rfl⟩ | ⟨_, rfl⟩, rfl⟩
    · exact h.setFields _ (h.target he) (by simp) rfl rfl
    · exact h.setFields _ (h.target he) (by simp) rfl rfl
  | envSetTrapframe envid tf =>
    rcases hst with ⟨he, f, hf, rfl⟩
    exact h.setEnv _ (h.target he) (h.target he) rfl (fun _ => hcall e f he hf)
  | envSetPgfaultUpcall envid func =>
    rcases hst with ⟨he, rfl⟩
    exact h.setFields _ (h.target he) (h.target he) rfl rfl
  | ipcRecv dstva =>
    rcases hst with ⟨rfl, rfl⟩
    exact h.setFields _ h.inUse (by simp) rfl rfl
  | ipcTrySend envid value srcva perm =>
    rcases hst with ⟨he, _, st, _, rfl | rfl, rfl⟩
    · exact h.setFields _ (h.target he) (h.target he) rfl rfl
    · exact h.setFields _ (h.target he) (by simp) rfl rfl
  | _ => exact hst.elim

end Trapped

/-- Every guarded system call. Nothing has been freed since `s0`, so a slot
    that is free now was free then. -/
theorem syscall_confined {call : Call} (h : Trapped s0 c cur s) (hcur : cur < nenv)
    (hold : ∀ e, (s0.envs e).envStatus ≠ .free → (s.envs e).envStatus ≠ .free)
    (hcall : s.CallGuarded cur call) :
    (s.syscall c cur call).Sat (fun _ s' => Trapped s0 c cur s') (Confined s0)
      (fun _ => True) := by
  cases hsimple : call.simple with
  | true =>
    refine (syscall_simple s c cur hsimple).mono (fun _ s' hs' => ?_) (fun _ hf => hf.elim)
      (fun _ _ => trivial)
    rcases hs'.2 with hsame | ⟨e, v, hst, hsame⟩
    · exact h.congr hsame
    · exact (h.stores hcall hst).congr hsame
  | false =>
    cases call with
    | cputs str len =>
      exact sysCputs_sat (userMemAssert_rule h.cpu (fun _ => h) trivial fun _ => h.quit _)
        fun _ _ => trivial
    | envDestroy envid =>
      simp only [syscall, sysEnvDestroy]
      cases he : s.envid2env cur envid true with
      | none => exact h
      | some e => exact (h.envDestroy e (h.target he)).bind (fun _ _ hs' => hs')
    | exofork =>
      simp only [syscall, sysExofork]
      cases hr : s.envAlloc (s.envs cur).envId with
      | none => trivial
      | some r =>
        rcases r with ⟨r, s'⟩
        rcases envAlloc_confined h.confined hold hr with ⟨hconf, hcpu, hkeep, hnew⟩
        have hself := hkeep cur h.inUse
        have h1 : Trapped s0 c cur s' :=
          ⟨hconf, hcpu ▸ h.cpu, hself ▸ h.inUse⟩
        cases r with
        | error err => exact h1
        | ok e =>
          rcases hnew e rfl with ⟨_, hlive, htype⟩
          refine h1.setEnv _ hlive (by simp) rfl ?_
          intro _
          -- the child has the caller's frame but not the caller's type
          rcases h.confined.saved cur hcur h.inUse with ⟨hcs, hss, hif, _⟩
          simp only [hself, htype]
          exact ⟨hcs, hss, hif, fun hio => absurd hio hcall⟩
    | yield => exact h.yield _
    | _ => exact absurd hsimple (by simp [Call.simple])

/-! ## One trap -/

theorem pageFaultHandler_confined (cr2 : BitVec 64) (h : Trapped s0 c cur s) (hcur : cur < nenv) :
    (s.pageFaultHandler c cur cr2).Sat (fun _ s' => Trapped s0 c cur s') (Confined s0)
      (fun _ => True) := by
  refine pageFaultHandler_rule cr2 h.cpu trivial (fun _ R => h.quit R) fun _ m _ => ?_
  have h1 := (h.congr (.setVm s m)).setEnv { s.envs cur with
    envTf := { (s.envs cur).envTf with
      rip := (s.envs cur).envPgfaultUpcall
      rsp := BitVec.ofNat 64 (Upcall.utf (s.envs cur).envTf.rsp.toNat) } }
    h.inUse h.inUse rfl (fun _ => h.confined.saved cur hcur h.inUse)
  exact envRun_confined c h1.confined h1.inUse

theorem trapDispatch_confined (s0 s : Kernel) (c cur : Nat) (cr2 : BitVec 64)
    (h : Trapped s0 c cur s) (hcur : cur < nenv)
    (hold : ∀ e, (s0.envs e).envStatus ≠ .free → (s.envs e).envStatus ≠ .free)
    (hcall : (s.envs cur).envTf.trapno.toNat = 48 →
      s.CallGuarded cur (Call.decode (s.envs cur).envTf.regs)) :
    (s.trapDispatch c cur cr2).Sat (fun _ s' => Trapped s0 c cur s') (Confined s0)
      (fun _ => True) := by
  refine trapDispatch_rule cr2 h (fun _ => pageFaultHandler_confined cr2 h hcur)
    (fun t hsame => (h.congr hsame).yield _) (fun _ => trivial) ?_
    (fun _ _ _ _ _ _ => h.envDestroy cur h.inUse)
  intro hn
  refine (syscall_confined h hcur hold (hcall hn)).bind ?_
  intro r s' hs'
  -- only `rax` of the saved frame changes
  exact hs'.setEnv _ hs'.inUse hs'.inUse rfl
    (fun _ => hs'.confined.saved cur hcur hs'.inUse)

/-- One trap, from user mode to user mode. The frame that is saved is good, and
    so is every frame after the trap. -/
theorem trap_confined (s : Kernel) (c cur : Nat) (tf : Trapframe) (cr2 : BitVec 64)
    (h : Confined s s) (hcpu : s.cpuEnv c = some cur) (hcur : cur < nenv)
    (hlive : (s.envs cur).envStatus ≠ .free) (hgood : Good (s.envs cur).envType tf)
    (hcall : tf.trapno.toNat = 48 →
      (s.setEnv cur { s.envs cur with envTf := tf }).CallGuarded cur (Call.decode tf.regs)) :
    (s.trap c tf cr2).Sat (fun _ _ => False) (Confined s) (fun _ => True) := by
  have h0 : Trapped s c cur s := ⟨h, hcpu, hlive⟩
  by_cases hdy : (s.envs cur).envStatus = .dying
  · rw [trap_dying tf cr2 hcpu hdy]
    exact h0.quit _
  · simp only [trap, hcpu, if_neg hdy]
    have h1 := h0.setEnv { s.envs cur with envTf := tf } hlive hlive rfl (fun _ => hgood)
    have hself : (s.setEnv cur { s.envs cur with envTf := tf }).envs cur =
        { s.envs cur with envTf := tf } := by
      rw [setEnv_envs, update_self]
    refine (trapDispatch_confined s _ c cur cr2 h1 hcur ?_ (by rwa [hself])).bind ?_
    · intro e he
      by_cases hce : e = cur
      · rw [hce, hself]; exact hlive
      · rw [setEnv_envs, update_of_ne hce]; exact he
    · intro _ t ht
      simp only [ht.cpu]
      split
      · exact envRun_confined c ht.confined ht.inUse
      · exact ht.yield _

/-- Setting the I/O privilege level leaves the interrupt flag alone. -/
theorem or_iopl_and_if (x : BitVec 64) : (x ||| 0x3000) &&& 0x200 = x &&& 0x200 := by
  have hdist : (x ||| 0x3000) &&& 0x200 =
      x &&& 0x200 ||| ((0x3000 : BitVec 64) &&& (0x200 : BitVec 64)) := by
    ext i hi
    simp only [BitVec.getElem_and, BitVec.getElem_or, Bool.and_or_distrib_right]
  rw [hdist, show (0x3000 : BitVec 64) &&& (0x200 : BitVec 64) = 0#64 by decide, BitVec.or_zero]

/-- `env_create` gives I/O privileges to the file server only. -/
theorem envCreate_confined {entry : BitVec 64} {segs : List (Nat × Nat)} (h : Confined s s)
    (hrun : s.envCreate type entry segs = some s') : Confined s s' := by
  unfold envCreate at hrun
  rcases bind_eq_some_iff.1 hrun with ⟨⟨r, t⟩, halloc, hrest⟩
  cases r with
  | error err => cases hrest
  | ok e =>
    rcases envAlloc_confined h (fun _ he => he) halloc with ⟨hconf, _, _, hnew⟩
    rcases hnew e rfl with ⟨hfree, hlive, htype⟩
    simp only [map_eq_some_iff] at hrest
    rcases hrest with ⟨m, _, hs'⟩
    rw [← hs']
    have hsaved := fun he => hconf.saved e he hlive
    refine Confined.congr (s := t.setEnv e { t.envs e with
      envTf := { (t.envs e).envTf with
        eflags :=
          if type = .fs then (t.envs e).envTf.eflags ||| 0x3000 else (t.envs e).envTf.eflags
        rip := entry }
      envType := type }) ?_ rfl (fun _ => Iff.rfl) (fun _ => rfl) (fun _ => rfl)
    refine ⟨?_, hconf.freeNodup, ?_, ?_⟩
    · intro i hi hs
      by_cases hie : i = e
      · rw [hie, setEnv_envs, update_self]
        rcases hsaved (hie ▸ hi) with ⟨hcs, hss, hif, hio⟩
        rw [htype] at hio
        refine ⟨hcs, hss, ?_, ?_⟩
        · split
          · rwa [or_iopl_and_if]
          · exact hif
        · intro h3
          by_cases hfs : type = .fs
          · exact hfs
          · rw [if_neg hfs] at h3
            cases (hio h3)
      · rw [setEnv_envs, update_of_ne hie] at hs ⊢
        exact hconf.saved i hi hs
    · intro i hi
      have hie : i ≠ e := fun hie => hlive (hie ▸ hconf.freeList i hi)
      rw [setEnv_envs, update_of_ne hie]
      exact hconf.freeList i hi
    · intro i hi h0 hs
      -- the slot was free, so its type may change
      have hie : i ≠ e := fun hie => h0 (hie ▸ hfree)
      rw [setEnv_envs, update_of_ne hie] at hs ⊢
      exact hconf.type i hi h0 hs

end Kernel

namespace Priv

variable {pool : Nat → Prop} {mem0 : Nat → Nat → Pte}

/-- Saved and loaded frames are good, and memory is in order. -/
structure Inv (pool : Nat → Prop) (mem0 : Nat → Nat → Pte) (σ : Priv) : Prop where
  confined : σ.k.Confined σ.k
  loaded : ∀ e, e < nenv → (σ.k.envs e).envStatus ≠ .free →
    Good (σ.k.envs e).envType (σ.loaded e)
  mem : σ.k.MemInv pool mem0 (fun _ => True)

/-- The frames of environments that were in use before stay loaded, and a new
    environment is loaded with its first frame. -/
theorem inv_advance {σ : Priv} {k : Kernel} (h : Inv pool mem0 σ) (hk : σ.k.Confined k)
    (hmem : k.MemInv pool mem0 (fun _ => True)) : Inv pool mem0 (σ.advance k) := by
  refine ⟨⟨hk.saved, hk.freeNodup, hk.freeList, fun _ _ _ _ => rfl⟩, ?_, hmem⟩
  intro e he hs
  simp only [advance] at hs ⊢
  by_cases hf : (σ.k.envs e).envStatus = .free
  · rw [if_pos hf]
    exact hk.saved e he hs
  · rw [if_neg hf, hk.type e he hf hs]
    exact h.loaded e he hf

/-- Outside the kernel only `env_create` changes the table. -/
theorem memStep_confined {s s' : Kernel} {ev : Mem.Event} (h : s.Confined s)
    (hcall : ∀ c e tf, ev ≠ .call c e tf) (hstep : Mem.step s ev = some s') : s.Confined s' := by
  have hvm : ∀ m : Vm, s.Confined { s with vm := m } := fun m =>
    ⟨h.saved, h.freeNodup, h.freeList, h.type⟩
  cases ev with
  | create type entry segs => exact Kernel.envCreate_confined h (Mem.step_create hstep).2
  | store e va b =>
    rcases Mem.step_store hstep with ⟨_, _, m, _, _, rfl⟩
    exact hvm m
  | touch e va dirty =>
    rcases Mem.step_touch hstep with ⟨_, _, m, _, _, rfl⟩
    exact hvm m
  | call c e tf => exact absurd rfl (hcall c e tf)

/-- A frame the processor saves is as good as the one it was given, unless the
    program could and did switch interrupts off. -/
theorem good_of_userFrame {old f : Trapframe} (h : Good type old) (hf : userFrame old f = true)
    (hif : f.eflags &&& 0x3000 = 0x3000 → f.eflags &&& 0x200 = 0x200) : Good type f := by
  simp only [userFrame, Bool.and_eq_true, beq_iff_eq, Bool.or_eq_true] at hf
  rcases hf with ⟨⟨⟨hcs, hss⟩, hio⟩, hi⟩
  refine ⟨hcs, hss, ?_, ?_⟩
  · by_cases h3 : f.eflags &&& 0x3000 = 0x3000
    · exact hif h3
    · rw [hio] at h3
      rw [hi.resolve_left h3]
      exact h.2.2.1
  · intro h3
    rw [hio] at h3
    exact h.2.2.2 h3

theorem step_inv {σ σ' : Priv} {ev : Event} (h : Inv pool mem0 σ) (hg : σ.Guarded ev)
    (hstep : σ.step ev = some σ') : Inv pool mem0 σ' := by
  cases ev with
  | mem ev =>
    have hcall : ∀ c e tf, ev ≠ .call c e tf := by
      rintro c e tf rfl
      cases hstep
    have hrun : (Mem.step σ.k ev).map σ.advance = some σ' := by
      cases ev with
      | call c e tf => exact absurd rfl (hcall c e tf)
      | _ => exact hstep
    rcases map_eq_some_iff.1 hrun with ⟨k, hk, rfl⟩
    refine inv_advance h (memStep_confined h.confined hcall hk)
      (Mem.step_inv Mem.allows_all h.mem ?_ ?_ hk)
    · cases ev with
      | call c e tf => exact absurd rfl (hcall c e tf)
      | _ => trivial
    · cases ev with
      | call c e tf => exact absurd rfl (hcall c e tf)
      | _ => trivial
  | resume e =>
    rw [step] at hstep
    cases hstep
    refine ⟨h.confined, ?_, h.mem⟩
    intro i hi hs
    by_cases hie : i = e
    · simp only [hie, update_self]
      exact h.confined.saved e (hie ▸ hi) (hie ▸ hs)
    · simp only [update_of_ne hie]
      exact h.loaded i hi hs
  | trap c e tf cr2 =>
    simp only [step] at hstep
    rcases Option.ite_none_right_eq_some.1 hstep with ⟨hcond, hstep⟩
    rcases hcond with ⟨he, hlive, huser⟩
    rw [map_eq_some_iff] at hstep
    rcases hstep with ⟨k, hk, rfl⟩
    rw [Lib.Flow.exit?_eq_some] at hk
    have hgood := good_of_userFrame (h.loaded e he hlive) huser hg.interrupts
    -- the trap starts with `e` on the CPU, which no frame and no page depends on
    have hconf : (σ.onCpu c e).Confined (σ.onCpu c e) :=
      ⟨h.confined.saved, h.confined.freeNodup, h.confined.freeList, fun _ _ _ _ => rfl⟩
    have hon : (σ.onCpu c e).cpuEnv c = some e := by simp [onCpu]
    have hsat := Kernel.trap_confined (σ.onCpu c e) c e tf cr2 hconf hon he hlive hgood hg.call
    have hin : (σ.onCpu c e).MemInv pool mem0 (fun _ => True) :=
      h.mem.congr (.setCpuEnv σ.k c (some e))
    have hmem := Kernel.trap_inv (c := c) Mem.allows_all.toPermits hin tf cr2 hon hg.tame
      fun _ _ _ _ => trivial
    rw [hk] at hsat hmem
    exact inv_advance h ⟨hsat.saved, hsat.freeNodup, hsat.freeList, hsat.type⟩ hmem

/-- No environment is in use when `env_init` returns. -/
theorem inv_booted {kernelEnd : Nat} {k0 : Kernel} (loaded : Nat → Trapframe)
    (hb : Mem.Booted kernelEnd k0) :
    Inv (fun p => p ∈ k0.vm.pageFreeList) k0.vm.mem ⟨k0, loaded⟩ := by
  have hfree : ∀ e, (k0.envs e).envStatus = .free := by
    intro e
    rw [hb.envs]
    rfl
  have hlist : k0.envFreeList = List.range nenv := by rw [hb.envs, Kernel.envInit]
  refine ⟨⟨?_, ?_, fun e _ => hfree e, fun _ _ _ _ => rfl⟩, ?_, Mem.booted_inv trivial hb⟩
  · intro e _ hs
    exact absurd (hfree e) hs
  · rw [hlist]
    exact List.nodup_range
  · intro e _ hs
    exact absurd (hfree e) hs

/-- The frame with which user code with the given flags makes the call `num` with
    the arguments 0 and `arg`. -/
def callOf (eflags num : BitVec 64) (arg : Nat) : Trapframe :=
  { Kernel.initialTf with
    trapno := 48, eflags := eflags, regs := { rax := num, rcx := BitVec.ofNat 64 arg } }

/-- In every guarded run of a booted system, every environment in use has a saved
    frame of privilege level 3 with interrupts on, and one with I/O privileges is
    the file server's. Nothing that is stored below `UTOP` reaches the table, whose
    pages the allocator never had. -/
theorem saved_good (kernelEnd : Nat) (k0 : Kernel) (loaded : Nat → Trapframe) (σ : Priv)
    (hb : Mem.Booted kernelEnd k0) (hrun : Lib.Run step Guarded ⟨k0, loaded⟩ σ) :
    (∀ e, e < nenv → (σ.k.envs e).envStatus ≠ .free →
      Good (σ.k.envs e).envType (σ.k.envs e).envTf) ∧
    ∀ e root va w b1 b2, σ.k.roots e = some root → va < utop →
      σ.k.vm.translate root va = some (w, b1, b2) → ppn w ∈ k0.vm.pageFreeList := by
  have hinv := Lib.Run.invariant (Inv (fun p => p ∈ k0.vm.pageFreeList) k0.vm.mem)
    (fun s ev s' => step_inv) hrun (inv_booted loaded hb)
  refine ⟨hinv.confined.saved, ?_⟩
  intro e root va w b1 b2 hroot hva htr
  rcases hinv.mem.wf with ⟨kind, hwf, _⟩
  have huser := hwf.kind_of_translate hroot hva htr
  exact hwf.pool_of_kind (by rw [huser]; simp)

/-- The file server starts and makes a system call: its frame has I/O
    privileges and is good. -/
theorem saved_good_fs : ∃ σ, Lib.Run step Guarded ⟨Mem.start, fun _ => {}⟩ σ ∧
    (σ.k.envs 0).envTf.eflags &&& 0x3000 = 0x3000 ∧
    Good (σ.k.envs 0).envType (σ.k.envs 0).envTf := by
  have hrun : (Lib.runEvents step ⟨Mem.start, fun _ => {}⟩
      [.mem (.create .fs 0x800020 []), .trap 0 0 (callOf 0x3200 2 0) 0]).map
        (fun σ => ((σ.k.envs 0).envStatus, (σ.k.envs 0).envTf.eflags)) =
      some (EnvStatus.running, 0x3200) := by
    decide +kernel
  have hfirst : (step ⟨Mem.start, fun _ => {}⟩ (.mem (.create .fs 0x800020 []))).map
      (fun σ => ((σ.k.envs 0).envStatus, decide (∀ c, c < ncpu → σ.k.cpuEnv c = none))) =
      some (EnvStatus.runnable, true) := by
    decide +kernel
  rw [map_eq_some_iff] at hrun hfirst
  rcases hrun with ⟨σ, hσ, hobs⟩
  rw [Prod.mk.injEq] at hobs
  rcases bind_eq_some_iff.1 hσ with ⟨σ1, hcreate, hrest⟩
  rcases bind_eq_some_iff.1 hrest with ⟨σ2, htrap, hend⟩
  rcases hfirst with ⟨σ1', hcreate', hobs1⟩
  rw [← some.inj (hcreate.symm.trans hcreate'), Prod.mk.injEq] at hobs1
  have hσ2 : σ2 = σ := some.inj hend
  have hguard : σ1.GuardedTrap 0 0 (callOf 0x3200 2 0) := by
    refine ⟨?_, fun _ => by decide, Mem.tameTrap_of (s := σ1.k) rfl ⟨?_, ?_, trivial⟩,
      fun _ => trivial⟩
    · intro c' hlt hc'
      rw [of_decide_eq_true hobs1.2 c' hlt] at hc'
      cases hc'
    · intro hdy
      rw [hobs1.1] at hdy
      cases hdy
    · intro g hg
      cases hg
  have hreach : Lib.Run step Guarded ⟨Mem.start, fun _ => {}⟩ σ :=
    (Relation.ReflTransGen.single ⟨.mem (.create .fs 0x800020 []), trivial, hcreate⟩).tail
      ⟨.trap 0 0 (callOf 0x3200 2 0) 0, hguard, hσ2 ▸ htrap⟩
  refine ⟨σ, hreach, by rw [hobs.2]; decide, ?_⟩
  exact (saved_good 0x100000 Mem.start _ σ Mem.booted_start hreach).1 0 (by decide)
    (by rw [hobs.1]; simp)

/-- A program writes a code segment of privilege level 0 into a frame on its
    stack and hands the frame to `sys_env_set_trapframe`. -/
theorem saved_not_good : ∃ σ, Lib.Run step (fun _ _ => True) ⟨Mem.start, fun _ => {}⟩ σ ∧
    (σ.k.envs 0).envStatus ≠ .free ∧
    (σ.k.envs 0).envTf.cs = 8 ∧ ¬Good (σ.k.envs 0).envType (σ.k.envs 0).envTf := by
  have hrun : (Lib.runEvents step ⟨Mem.start, fun _ => {}⟩
      [.mem (.create .user 0x800020 []), .mem (.store 0 (ustacktop - pgSize + 160) 8),
        .trap 0 0 (callOf 0x200 9 (ustacktop - pgSize)) 0]).map
        (fun σ => ((σ.k.envs 0).envStatus, (σ.k.envs 0).envTf.cs)) =
      some (EnvStatus.running, 8) := by
    decide +kernel
  rw [map_eq_some_iff] at hrun
  rcases hrun with ⟨σ, hσ, hobs⟩
  rw [Prod.mk.injEq] at hobs
  refine ⟨σ, Lib.Run.of_runEvents _ _ hσ, by rw [hobs.1]; simp, hobs.2, ?_⟩
  intro hgood
  have hcs := hgood.1
  rw [hobs.2] at hcs
  cases hcs

end Priv
end Jos
