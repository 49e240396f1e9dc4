import Jos.Theory.Calls

/-!
# Environments and CPUs

Several CPUs enter the kernel one at a time under the big kernel lock, and each
entry ends with the CPU back in user mode. What must not go wrong is that two
CPUs run one environment, or that an environment is freed while a CPU runs it.
`env_status` is what keeps them apart: the scheduler takes only environments
that are `ENV_RUNNABLE`, and one that some CPU runs is `ENV_RUNNING` or
`ENV_DYING`.

`Placed` states this for the table. While a CPU is in the kernel its own
environment is exempt, since the status of that one may change in any way before
the CPU leaves.

## Main definitions

* `Event`, `Kernel.step`: The entries of the CPUs.
* `Placed`: Statuses agree with what the CPUs run.
* `Kernel.Careful`: The entries that do not touch what another CPU runs.
* `Kernel.Started`: The machine before the first environment runs.

## Theorems

* `schedYield_placed`: The scheduler picks an environment no other CPU runs.
* `syscall_placed`, `trap_placed`: One entry keeps `Placed`.
* `cpuEnv_injective`: No environment runs on two CPUs.
* `envFree_freed`: No environment is freed under a CPU that runs it.
-/

namespace Jos

open Function (update_self update_of_ne)

/-- An entry into the kernel: a CPU starts up and looks for its first
    environment, or the environment it runs traps. -/
inductive Event
  | start (c : Nat)
  | trap (c : Nat) (tf : Trapframe) (cr2 : BitVec 64)

/-- The call of `env_free` was for the CPU's own environment or for one that
    no CPU ran. -/
def FreeEvent.Unshared (ev : FreeEvent) : Prop :=
  ev.cpuEnv ev.cpu = some ev.env ∨ ∀ c, ev.cpuEnv c ≠ some ev.env

namespace Kernel

/-- One entry, from user mode to user mode. -/
def entry (s : Kernel) : Event → Flow Unit
  | .start c => if s.cpuEnv c = none then s.schedYield c else .halt s
  | .trap c tf cr2 => s.trap c tf cr2

/-- The machine after an entry that does not stop it. -/
def step (s : Kernel) (ev : Event) : Option Kernel := (s.entry ev).exit?

/-- No other CPU than `c` runs `e`. -/
def NotElsewhere (s : Kernel) (c e : Nat) : Prop := ∀ c', c' ≠ c → s.cpuEnv c' ≠ some e

/-- A call that changes the status of an environment does not hit one that
    another CPU runs. For `sys_env_destroy` only a second call, on an
    environment that is dying already, would. -/
def CallCareful (s : Kernel) (c cur : Nat) : Call → Prop
  | .envSetStatus envid status => status = 2 ∨ status = 4 →
      ∀ e, s.envid2env cur envid true = some e → s.NotElsewhere c e
  | .ipcTrySend envid _ _ _ => ∀ e, s.envid2env cur envid false = some e →
      (s.envs e).envIpcRecving = true → s.NotElsewhere c e
  | .envDestroy envid => ∀ e, s.envid2env cur envid true = some e →
      ncpu ≤ e ∧ ((s.envs e).envStatus = .dying → s.NotElsewhere c e)
  | _ => True

/-- What an idle environment does, which must not be destroyed: it is interrupted,
    it enters the monitor, or it makes a call with no string that could be bad. -/
def IdleTrap (tf : Trapframe) : Prop :=
  32 ≤ tf.trapno.toNat ∧ tf.trapno.toNat < 48 ∨ tf.trapno.toNat = 3 ∨
    tf.trapno.toNat = 48 ∧ ∀ str len, Call.decode tf.regs ≠ .cputs str len

/-- The entries that keep the environments apart. The environment in the last
    slot is excluded, since the scheduler's search from it leaves the array. -/
def Careful (s : Kernel) : Event → Prop
  | .start c => c < ncpu
  | .trap c tf _ => c < ncpu ∧ ∀ cur, s.cpuEnv c = some cur →
      cur + 1 < nenv ∧ (cur < ncpu → IdleTrap tf) ∧
      (tf.trapno.toNat = 48 →
        (s.setEnv cur { s.envs cur with envTf := tf }).CallCareful c cur (Call.decode tf.regs))

/-- All calls of `env_free` so far were of that kind. -/
def Unshared (s : Kernel) : Prop := ∀ ev, ev ∈ s.freed → ev.Unshared

/-- The table agrees with the CPUs, where the CPU `k`, if any, is in the kernel
    and the status of its environment is open. -/
structure Placed (k : Option Nat) (s : Kernel) : Prop where
  status : ∀ c e, s.cpuEnv c = some e → k ≠ some c →
    (s.envs e).envStatus = .running ∨ (s.envs e).envStatus = .dying
  unique : ∀ c c' e, s.cpuEnv c = some e → s.cpuEnv c' = some e → c = c'
  bound : ∀ c e, s.cpuEnv c = some e → e < nenv
  idle : ∀ c e, s.cpuEnv c = some e → e < ncpu → e = c
  idleType : ∀ e, e < ncpu → (s.envs e).envType = .idle
  idleAlive : ∀ e, (s.envs e).envStatus = .dying → ncpu ≤ e
  freeNodup : s.envFreeList.Nodup
  freeList : ∀ e, e ∈ s.envFreeList → ncpu ≤ e ∧ e < nenv ∧ (s.envs e).envStatus = .free ∧
    ∀ c, s.cpuEnv c ≠ some e
  unshared : s.Unshared

/-- The machine as `i386_init` leaves it to the CPUs: the idle environments are
    in the first slots and nothing runs yet. -/
structure Started (s : Kernel) : Prop where
  cpuEnv : ∀ c, s.cpuEnv c = none
  idleType : ∀ e, e < ncpu → (s.envs e).envType = .idle
  noneDying : ∀ e, (s.envs e).envStatus ≠ .dying
  freeNodup : s.envFreeList.Nodup
  freeList : ∀ e, e ∈ s.envFreeList → ncpu ≤ e ∧ e < nenv ∧ (s.envs e).envStatus = .free
  freed : s.freed = []

variable {s s' : Kernel} {e c cur : Nat} {α : Type} {envid : BitVec 32}

theorem placed_of_started (h : Started s) : Placed none s where
  status := by intro c e hc; rw [h.cpuEnv c] at hc; cases hc
  unique := by intro c c' e hc; rw [h.cpuEnv c] at hc; cases hc
  bound := by intro c e hc; rw [h.cpuEnv c] at hc; cases hc
  idle := by intro c e hc; rw [h.cpuEnv c] at hc; cases hc
  idleType := h.idleType
  idleAlive := fun e he => absurd he (h.noneDying e)
  freeNodup := h.freeNodup
  freeList := by
    intro e he
    rcases h.freeList e he with ⟨h1, h2, h3⟩
    exact ⟨h1, h2, h3, fun c => by rw [h.cpuEnv c]; simp⟩
  unshared := by intro ev hev; rw [h.freed] at hev; cases hev

namespace Placed

variable {k : Option Nat} {s : Kernel}

/-- A CPU that enters the kernel gives up what is known of its own environment. -/
theorem enter (h : Placed none s) (c : Nat) : Placed (some c) s :=
  { h with status := fun c' e hc _ => h.status c' e hc (by simp) }

variable (h : Placed k s)
include h

/-- Nothing but the table, the CPUs, the free list and the record matters, and
    of the table only status and type. -/
theorem congr (hcpu : s'.cpuEnv = s.cpuEnv) (hlist : s'.envFreeList = s.envFreeList)
    (hfreed : s'.freed = s.freed) (hstatus : ∀ e, (s'.envs e).envStatus = (s.envs e).envStatus)
    (htype : ∀ e, (s'.envs e).envType = (s.envs e).envType) : Placed k s' where
  status := by
    intro c e hc hk
    rw [hcpu] at hc
    rw [hstatus]
    exact h.status c e hc hk
  unique := hcpu ▸ h.unique
  bound := hcpu ▸ h.bound
  idle := hcpu ▸ h.idle
  idleType := by intro e he; rw [htype]; exact h.idleType e he
  idleAlive := by intro e he; rw [hstatus] at he; exact h.idleAlive e he
  freeNodup := hlist ▸ h.freeNodup
  freeList := by
    intro e he
    rw [hlist] at he
    rw [hstatus, hcpu]
    exact h.freeList e he
  unshared := by unfold Unshared; rw [hfreed]; exact h.unshared

/-- An environment that is not free may be changed, if its new status suits the
    CPU that runs it. -/
theorem setEnv (e : Nat) (v : Env) (hfree : e ∉ s.envFreeList)
    (htype : v.envType = (s.envs e).envType)
    (hdying : v.envStatus = .dying → (s.envs e).envStatus ≠ .dying → ncpu ≤ e)
    (hstatus : ∀ c, s.cpuEnv c = some e → k ≠ some c →
      v.envStatus = .running ∨ v.envStatus = .dying) : Placed k (s.setEnv e v) where
  status := by
    intro c i hc hk
    by_cases hi : i = e
    · rw [hi] at hc ⊢
      rw [setEnv_envs, update_self]
      exact hstatus c hc hk
    · rw [setEnv_envs, update_of_ne hi]
      exact h.status c i hc hk
  unique := h.unique
  bound := h.bound
  idle := h.idle
  idleType := by
    intro i hi
    by_cases hie : i = e
    · rw [hie, setEnv_envs, update_self, htype, ← hie]
      exact h.idleType i hi
    · rw [setEnv_envs, update_of_ne hie]
      exact h.idleType i hi
  idleAlive := by
    intro i hi
    by_cases hie : i = e
    · rw [hie, setEnv_envs, update_self] at hi
      rw [hie]
      by_cases hold : (s.envs e).envStatus = .dying
      · exact h.idleAlive e hold
      · exact hdying hi hold
    · rw [setEnv_envs, update_of_ne hie] at hi
      exact h.idleAlive i hi
  freeNodup := h.freeNodup
  freeList := by
    intro i hi
    have hie : i ≠ e := fun he => hfree (he ▸ hi)
    rw [setEnv_envs, update_of_ne hie]
    exact h.freeList i hi
  unshared := h.unshared

/-- What an environment that some CPU runs, or whose status is not
    `ENV_FREE`, has to do with the free list. -/
theorem not_free_of_cpu (hc : s.cpuEnv c = some e) :
    e ∉ s.envFreeList := fun he => (h.freeList e he).2.2.2 c hc

theorem not_free_of_status (hs : (s.envs e).envStatus ≠ .free) :
    e ∉ s.envFreeList := fun he => hs (h.freeList e he).2.2.1

end Placed

/-! ## Leaving the kernel -/

/-- `env_run` of an environment no other CPU runs. -/
theorem envRun_placed (h : Placed (some c) s) (hfree : e ∉ s.envFreeList) (hbound : e < nenv)
    (hidle : e < ncpu → e = c) (helse : s.NotElsewhere c e) : Placed none (s.envRun c e) := by
  rcases envRun_frame s c e with ⟨_, hlist, hfreed, _⟩
  -- what the CPUs run after the step
  have hcpu : ∀ c' i, (s.envRun c e).cpuEnv c' = some i →
      c' = c ∧ i = e ∨ c' ≠ c ∧ s.cpuEnv c' = some i := by
    intro c' i hc'
    rw [envRun_cpuEnv] at hc'
    by_cases hcc : c' = c
    · rw [hcc, update_self, Option.some.injEq] at hc'
      exact .inl ⟨hcc, hc'.symm⟩
    · rw [update_of_ne hcc] at hc'
      exact .inr ⟨hcc, hc'⟩
  refine ⟨?_, ?_, ?_, ?_, ?_, ?_, ?_, ?_, ?_⟩
  · intro c' i hc' _
    rw [envRun_envs]
    rcases hcpu c' i hc' with ⟨_, rfl⟩ | ⟨hcc, hi⟩
    · exact .inl (if_pos rfl)
    · have hie : i ≠ e := fun hie => helse c' hcc (hie ▸ hi)
      have hcur : s.cpuEnv c ≠ some i := fun hci => hcc (h.unique c' c i hi hci)
      simp only [if_neg hie, hcur, false_and, if_false]
      exact h.status c' i hi (fun hk => hcc (Option.some.inj hk).symm)
  · intro c1 c2 i h1 h2
    rcases hcpu c1 i h1 with ⟨h1c, h1e⟩ | ⟨h1c, h1s⟩
    · rcases hcpu c2 i h2 with ⟨h2c, _⟩ | ⟨h2c, h2s⟩
      · rw [h1c, h2c]
      · exact absurd (h1e ▸ h2s) (helse c2 h2c)
    · rcases hcpu c2 i h2 with ⟨_, h2e⟩ | ⟨_, h2s⟩
      · exact absurd (h2e ▸ h1s) (helse c1 h1c)
      · exact h.unique c1 c2 i h1s h2s
  · intro c' i hc'
    rcases hcpu c' i hc' with ⟨_, rfl⟩ | ⟨_, hi⟩
    · exact hbound
    · exact h.bound c' i hi
  · intro c' i hc' hi
    rcases hcpu c' i hc' with ⟨hcc, rfl⟩ | ⟨_, hs⟩
    · rw [hcc]; exact hidle hi
    · exact h.idle c' i hs hi
  · intro i hi
    rw [envRun_envs]
    exact h.idleType i hi
  · intro i hi
    rw [envRun_envs] at hi
    by_cases hie : i = e
    · simp only [if_pos hie] at hi
      cases hi
    · simp only [if_neg hie] at hi
      split at hi
      · cases hi
      · exact h.idleAlive i hi
  · rw [hlist]; exact h.freeNodup
  · intro i hi
    rw [hlist] at hi
    rcases h.freeList i hi with ⟨h1, h2, h3, h4⟩
    have hie : i ≠ e := fun he => hfree (he ▸ hi)
    refine ⟨h1, h2, ?_, ?_⟩
    · rw [envRun_envs]
      simp only [if_neg hie, h4 c, false_and, if_false]
      exact h3
    · intro c' hc'
      rcases hcpu c' i hc' with ⟨_, he⟩ | ⟨_, hs⟩
      · exact hie he
      · exact h4 c' hs
  · unfold Unshared; rw [hfreed]; exact h.unshared

/-- A runnable environment is not run by another CPU. -/
theorem Placed.notElsewhere_of_runnable (h : Placed (some c) s)
    (hs : (s.envs e).envStatus = .runnable) : s.NotElsewhere c e := by
  intro c' hcc hc'
  rcases h.status c' e hc' (fun hk => hcc (Option.some.inj hk).symm) with hr | hd
  · rw [hs] at hr; cases hr
  · rw [hs] at hd; cases hd

/-- `sched_yield` picks an environment no other CPU runs. -/
theorem schedYield_placed (s : Kernel) (c : Nat) (R : α → Kernel → Prop) (h : Placed (some c) s)
    (hc : c < ncpu) (hlast : ∀ cur, s.cpuEnv c = some cur → cur + 1 < nenv) :
    (s.schedYield c).Sat R (Placed none) Unshared := by
  have hstart : (s.cpuEnv c).getD 1 + 1 < nenv := by
    cases hcur : s.cpuEnv c with
    | none => decide
    | some cur => exact hlast cur hcur
  refine schedYield_rule R ?_ ?_ ?_ h.unshared
  · intro j hst hty hj
    refine envRun_placed h (h.not_free_of_status (by rw [hst]; simp)) (hj hstart) ?_
      (h.notElsewhere_of_runnable hst)
    intro hjc
    exact absurd (h.idleType j hjc) hty
  · intro e hcur _
    refine envRun_placed h (h.not_free_of_cpu hcur) (h.bound c e hcur)
      (h.idle c e hcur) ?_
    intro c' hcc hc'
    exact hcc (h.unique c' c e hc' hcur)
  · -- the idle environment of a CPU runs nowhere else
    intro hst
    refine envRun_placed h (h.not_free_of_status ?_) ?_ (fun _ => rfl) ?_
    · rcases hst with hst | hst <;> rw [hst] <;> simp
    · unfold ncpu at hc; unfold nenv; omega
    · intro c' hcc hc'
      exact hcc (h.idle c' c hc' hc).symm

/-! ## Creating and destroying -/

/-- `env_alloc` keeps the table in order; a new environment is on no CPU. -/
theorem envAlloc_placed {k : Option Nat} {pid : BitVec 32} {r : Except Int Nat} (h : Placed k s)
    (hrun : s.envAlloc pid = some (r, s')) :
    Placed k s' ∧ s'.cpuEnv = s.cpuEnv ∧
      ∀ e, r = .ok e → e ∉ s'.envFreeList ∧ ∀ c, s'.cpuEnv c ≠ some e := by
  rcases envAlloc_cases hrun with ⟨⟨err, hr⟩, hs'⟩ | ⟨e, rest, p, m, hr, hlist, _, hs'⟩
  · have hp : Placed k s' ∧ s'.cpuEnv = s.cpuEnv := by
      rcases hs' with hs' | ⟨_, _, m, _, _, hs'⟩
      · rw [hs']; exact ⟨h, rfl⟩
      · rw [hs']; exact ⟨h.congr rfl rfl rfl (fun _ => rfl) (fun _ => rfl), rfl⟩
    refine ⟨hp.1, hp.2, ?_⟩
    intro e he
    rw [hr] at he
    cases he
  · -- a free slot is that of no CPU
    have he := h.freeList e (hlist ▸ List.mem_cons_self)
    have hnd := h.freeNodup
    rw [hlist, List.nodup_cons] at hnd
    have henvs : ∀ i, i ≠ e → s'.envs i = s.envs i := by
      intro i hi
      rw [hs']
      simp only [setEnv_envs, update_of_ne hi]
    have hcpu : s'.cpuEnv = s.cpuEnv := by rw [hs']; rfl
    have hrest : s'.envFreeList = rest := by rw [hs']
    refine ⟨⟨?_, hcpu ▸ h.unique, hcpu ▸ h.bound,
      hcpu ▸ h.idle, ?_, ?_, hrest ▸ hnd.2, ?_,
      hs' ▸ h.unshared⟩, hcpu, ?_⟩
    · intro c i hc hk
      rw [hcpu] at hc
      rw [henvs i (fun hie => he.2.2.2 c (hie ▸ hc))]
      exact h.status c i hc hk
    · intro i hi
      have hge := he.1
      rw [henvs i (by omega)]
      exact h.idleType i hi
    · intro i hi
      by_cases hie : i = e
      · rw [hie]; exact he.1
      · rw [henvs i hie] at hi
        exact h.idleAlive i hi
    · intro i hi
      rw [hrest] at hi
      rw [henvs i (fun hie => hnd.1 (hie ▸ hi)), hcpu]
      exact h.freeList i (hlist ▸ List.mem_cons_of_mem e hi)
    · intro e' he'
      rw [hr] at he'
      cases he'
      rw [hrest, hcpu]
      exact ⟨hnd.1, he.2.2.2⟩

/-- The table after `env_free`, seen by CPUs none of which runs the freed
    environment any more. -/
theorem envFree_placed {x : Option Nat} (h : Placed (some c) s) (hs' : Freed s c e s')
    (hfree : e ∉ s.envFreeList) (hge : ncpu ≤ e) (hlt : e < nenv)
    (hx : x = none ∧ s.cpuEnv c = some e ∨ x = s.cpuEnv c ∧ ∀ c', s.cpuEnv c' ≠ some e) :
    Placed (some c) (s'.setCpuEnv c x) := by
  -- a CPU's environment is what it was, and not the freed one
  have hold : ∀ c' i, (s'.setCpuEnv c x).cpuEnv c' = some i → s.cpuEnv c' = some i ∧ i ≠ e := by
    intro c' i hc'
    rw [setCpuEnv_cpuEnv, hs'.cpuEnv] at hc'
    by_cases hcc : c' = c
    · rw [hcc, update_self] at hc'
      rcases hx with ⟨hx, _⟩ | ⟨hx, hno⟩
      · rw [hx] at hc'; cases hc'
      · rw [hx] at hc'
        rw [hcc]
        exact ⟨hc', fun hie => hno c (hie ▸ hc')⟩
    · rw [update_of_ne hcc] at hc'
      refine ⟨hc', fun hie => ?_⟩
      rcases hx with ⟨_, hown⟩ | ⟨_, hno⟩
      · exact hcc (h.unique c' c e (hie ▸ hc') hown)
      · exact hno c' (hie ▸ hc')
  refine ⟨?_, ?_, ?_, ?_, ?_, ?_, ?_, ?_, ?_⟩
  · intro c' i hc' hk
    rcases hold c' i hc' with ⟨hs, hie⟩
    rw [setCpuEnv_envs, hs'.others i hie]
    exact h.status c' i hs hk
  · intro c1 c2 i h1 h2
    exact h.unique c1 c2 i (hold c1 i h1).1 (hold c2 i h2).1
  · intro c' i hc'
    exact h.bound c' i (hold c' i hc').1
  · intro c' i hc'
    exact h.idle c' i (hold c' i hc').1
  · intro i hi
    have hie : i ≠ e := by omega
    rw [setCpuEnv_envs, hs'.others i hie]
    exact h.idleType i hi
  · intro i hi
    by_cases hie : i = e
    · rw [hie]; exact hge
    · rw [setCpuEnv_envs, hs'.others i hie] at hi
      exact h.idleAlive i hi
  · rw [setCpuEnv_envFreeList, hs'.envFreeList]
    exact List.nodup_cons.2 ⟨hfree, h.freeNodup⟩
  · intro i hi
    rw [setCpuEnv_envFreeList, hs'.envFreeList, List.mem_cons] at hi
    rw [setCpuEnv_envs]
    rcases hi with rfl | hi
    · exact ⟨hge, hlt, hs'.status, fun c' hc' => (hold c' i hc').2 rfl⟩
    · have hie : i ≠ e := fun hie => hfree (hie ▸ hi)
      rw [hs'.others i hie]
      rcases h.freeList i hi with ⟨h1, h2, h3, h4⟩
      exact ⟨h1, h2, h3, fun c' hc' => h4 c' (hold c' i hc').1⟩
  · intro ev hev
    rw [setCpuEnv_freed, hs'.freed, List.mem_cons] at hev
    rcases hev with rfl | hev
    · rcases hx with ⟨_, hown⟩ | ⟨_, hno⟩
      · exact .inl hown
      · exact .inr hno
    · exact h.unshared ev hev

/-- The state in the middle of a kernel entry of `c` on behalf of `cur`. -/
def InKernel (c cur : Nat) (s : Kernel) : Prop := Placed (some c) s ∧ s.cpuEnv c = some cur

/-- `env_free` of an environment that no other CPU has. -/
theorem envFree_freed {U : Kernel → Prop} (h : s.Unshared)
    (hown : s.cpuEnv c = some e ∨ ∀ c', s.cpuEnv c' ≠ some e) :
    (s.envFree c e).Sat (fun _ s' => Freed s c e s') U Unshared := by
  refine envFree_cases s c e fun ev hev => ?_
  rcases List.mem_cons.1 hev with rfl | hev
  · exact hown
  · exact h ev hev

/-- The environment of a CPU is freed, and the CPU gives it up. -/
theorem envQuit_placed (R : α → Kernel → Prop) (h : Placed (some c) s)
    (hc : c < ncpu) (hown : s.cpuEnv c = some e) (hge : ncpu ≤ e) :
    (s.envQuit c e).Sat R (Placed none) Unshared := by
  have hfree := h.not_free_of_cpu hown
  have hlt := h.bound c e hown
  refine (envFree_freed h.unshared (.inl hown)).bind fun _ s' hs' => ?_
  refine schedYield_placed _ c R (envFree_placed h hs' hfree hge hlt (.inl ⟨rfl, hown⟩)) hc ?_
  intro i hi
  rw [setCpuEnv_cpuEnv, update_self] at hi
  cases hi

/-- `env_destroy` of an environment that may go: it is not an idle one, and it
    is not dying under another CPU. -/
theorem envDestroy_placed (h : InKernel c cur s) (hc : c < ncpu) (hfree : e ∉ s.envFreeList)
    (hge : ncpu ≤ e) (hlt : e < nenv)
    (hdying : (s.envs e).envStatus = .dying → s.NotElsewhere c e) :
    (s.envDestroy c e).Sat (fun _ s' => InKernel c cur s') (Placed none) Unshared := by
  by_cases hown : s.cpuEnv c = some e
  · rw [envDestroy_self hown]
    exact envQuit_placed _ h.1 hc hown hge
  · unfold envDestroy
    by_cases hrun : (s.envs e).envStatus = .running ∧ s.cpuEnv c ≠ some e
    · rw [if_pos hrun]
      exact ⟨h.1.setEnv e _ hfree rfl (fun _ _ => hge) (fun _ _ _ => .inr rfl), h.2⟩
    · rw [if_neg hrun]
      -- an environment some other CPU runs would be running or dying
      have hno : ∀ c', s.cpuEnv c' ≠ some e := by
        intro c' hc'
        have hcc : c' ≠ c := fun hcc => hown (hcc ▸ hc')
        rcases h.1.status c' e hc' (fun hk => hcc (Option.some.inj hk).symm) with hr | hd
        · exact hrun ⟨hr, hown⟩
        · exact hdying hd c' hcc hc'
      refine (envFree_freed h.1.unshared (.inr hno)).bind fun _ s' hs' => ?_
      rw [if_neg (by rwa [hs'.cpuEnv])]
      have hp := envFree_placed h.1 hs' hfree hge hlt (.inr ⟨rfl, hno⟩)
      have hsame : s'.setCpuEnv c (s.cpuEnv c) = s' := by
        unfold setCpuEnv
        rw [hs'.cpuEnv, Function.update_eq_self, ← hs'.cpuEnv]
      rw [hsame] at hp
      exact ⟨hp, hs'.cpuEnv ▸ h.2⟩

/-! ## One entry -/

namespace InKernel

variable {c cur : Nat} {s : Kernel}

section

variable (h : InKernel c cur s)

include h

/-- Everything but the environments, the CPUs, the free list and the record may
    change. -/
theorem congr (hsame : SameTable s s') : InKernel c cur s' :=
  ⟨h.1.congr hsame.cpuEnv hsame.list hsame.freed (fun e => by rw [hsame.envs])
    (fun e => by rw [hsame.envs]), hsame.cpuEnv ▸ h.2⟩

theorem notElsewhere : s.NotElsewhere c cur := by
  intro c' hcc hc'
  exact hcc (h.1.unique c' c cur hc' h.2)

/-- An environment no other CPU runs may take any status a call gives. -/
theorem setEnv (v : Env) (hfree : e ∉ s.envFreeList) (htype : v.envType = (s.envs e).envType)
    (hdying : v.envStatus = .dying → v.envStatus = (s.envs e).envStatus)
    (helse : s.NotElsewhere c e) : InKernel c cur (s.setEnv e v) := by
  refine ⟨h.1.setEnv e v hfree htype ?_ ?_, h.2⟩
  · intro hv hold
    rw [hdying hv] at hv
    exact absurd hv hold
  · intro c' hc' hk
    exact absurd hc' (helse c' (fun hcc => hk (by rw [hcc])))

theorem setSelf (v : Env) (htype : v.envType = (s.envs cur).envType)
    (hdying : v.envStatus = .dying → v.envStatus = (s.envs cur).envStatus) :
    InKernel c cur (s.setEnv cur v) :=
  h.setEnv v (h.1.not_free_of_cpu h.2) htype hdying h.notElsewhere

/-- Any field but the status may change in any environment in use. -/
theorem setFields {v : Env} (hfree : e ∉ s.envFreeList)
    (htype : v.envType = (s.envs e).envType) (hstatus : v.envStatus = (s.envs e).envStatus) :
    InKernel c cur (s.setEnv e v) := by
  refine ⟨h.1.setEnv e v hfree htype (fun hv hold => absurd (hstatus ▸ hv) hold) ?_, h.2⟩
  intro c' hc' hk
  rw [hstatus]
  exact h.1.status c' e hc' hk

/-- What `envid2env` finds is in the array and in use. -/
theorem target {checkperm : Bool}
    (he : s.envid2env cur envid checkperm = some e) : e ∉ s.envFreeList ∧ e < nenv := by
  rcases envid2env_cases he with rfl | ⟨hlt, hfree, _⟩
  · exact ⟨h.1.not_free_of_cpu h.2, h.1.bound c e h.2⟩
  · exact ⟨h.1.not_free_of_status hfree, hlt⟩

/-- The record that a careful call stores suits the CPU that runs its slot. -/
theorem stores {call : Call} {v : Env} (hcall : s.CallCareful c cur call)
    (hst : s.Stores cur call e v) : InKernel c cur (s.setEnv e v) := by
  cases call with
  | envSetStatus envid status =>
    rcases hst with ⟨he, st, ⟨h2, rfl⟩ | ⟨h4, rfl⟩, rfl⟩
    · exact h.setEnv _ (h.target he).1 rfl (by simp) (hcall (.inl h2) e he)
    · exact h.setEnv _ (h.target he).1 rfl (by simp) (hcall (.inr h4) e he)
  | envSetTrapframe envid tf =>
    rcases hst with ⟨he, f, _, rfl⟩
    exact h.setFields (h.target he).1 rfl rfl
  | envSetPgfaultUpcall envid func =>
    rcases hst with ⟨he, rfl⟩
    exact h.setFields (h.target he).1 rfl rfl
  | ipcRecv dstva =>
    rcases hst with ⟨rfl, rfl⟩
    exact h.setSelf _ rfl (by simp)
  | ipcTrySend envid value srcva perm =>
    rcases hst with ⟨he, hrecv, st, _, rfl | rfl, rfl⟩
    · exact h.setEnv _ (h.target he).1 rfl (fun _ => rfl) (hcall e he hrecv)
    · exact h.setEnv _ (h.target he).1 rfl (by simp) (hcall e he hrecv)
  | _ => exact hst.elim

end

theorem yield (R : α → Kernel → Prop) (h : InKernel c cur s) (hc : c < ncpu)
    (hlast : cur + 1 < nenv) : (s.schedYield c).Sat R (Placed none) Unshared := by
  refine schedYield_placed s c R h.1 hc ?_
  intro i hi
  rw [h.2, Option.some.injEq] at hi
  omega

/-- The current environment may quit, unless it is an idle one. -/
theorem quit (R : α → Kernel → Prop) (h : InKernel c cur s) (hc : c < ncpu) (hge : ncpu ≤ cur) :
    (s.envQuit c cur).Sat R (Placed none) Unshared :=
  envQuit_placed R h.1 hc h.2 hge

end InKernel

/-- Every system call that is careful with the environments of other CPUs. -/
theorem syscall_placed {call : Call} (h : InKernel c cur s) (hc : c < ncpu) (hlast : cur + 1 < nenv)
    (hidle : cur < ncpu → ∀ str len, call ≠ .cputs str len) (hcall : s.CallCareful c cur call) :
    (s.syscall c cur call).Sat (fun _ s' => InKernel c cur s') (Placed none) Unshared := by
  cases hsimple : call.simple with
  | true =>
    refine (syscall_simple s c cur hsimple).mono (fun _ s' hs' => ?_) (fun _ hf => hf.elim) ?_
    · rcases hs'.2 with hsame | ⟨e, v, hst, hsame⟩
      · exact h.congr hsame
      · exact (h.stores hcall hst).congr hsame
    · intro s' hs'
      unfold Unshared
      rw [hs']
      exact h.1.unshared
  | false =>
    cases call with
    | cputs str len =>
      -- only an idle environment must not fail the check
      have hge : ncpu ≤ cur := by
        by_contra hlt
        exact hidle (by omega) str len rfl
      exact sysCputs_sat (userMemAssert_rule h.2 (fun _ => h) h.1.unshared fun _ => h.quit _ hc hge)
        fun _ hs' => hs'.1.unshared
    | envDestroy envid =>
      simp only [syscall, sysEnvDestroy]
      cases he : s.envid2env cur envid true with
      | none => exact h
      | some e =>
        have ht := h.target he
        have hce := hcall e he
        exact (envDestroy_placed h hc ht.1 hce.1 ht.2 hce.2).bind
          (fun _ s' hs' => hs')
    | exofork =>
      simp only [syscall, sysExofork]
      cases hr : s.envAlloc (s.envs cur).envId with
      | none => exact h.1.unshared
      | some r =>
        rcases r with ⟨r, s'⟩
        rcases envAlloc_placed h.1 hr with ⟨hp, hcpu, hnew⟩
        have hin : InKernel c cur s' := ⟨hp, hcpu ▸ h.2⟩
        cases r with
        | error err => exact hin
        | ok e =>
          rcases hnew e rfl with ⟨hfree, hno⟩
          exact hin.setEnv _ hfree rfl (by simp) (fun c' _ => hno c')
    | yield => exact h.yield _ hc hlast
    | _ => exact absurd hsimple (by simp [Call.simple])

theorem pageFaultHandler_placed (cr2 : BitVec 64) (h : InKernel c cur s) (hc : c < ncpu)
    (hge : ncpu ≤ cur) :
    (s.pageFaultHandler c cur cr2).Sat (fun _ s' => InKernel c cur s') (Placed none) Unshared := by
  refine pageFaultHandler_rule cr2 h.2 h.1.unshared (fun _ R => h.quit R hc hge) fun _ m _ => ?_
  have h1 := (h.congr (.setVm s m)).setSelf { s.envs cur with
    envTf := { (s.envs cur).envTf with
      rip := (s.envs cur).envPgfaultUpcall
      rsp := BitVec.ofNat 64 (Upcall.utf (s.envs cur).envTf.rsp.toNat) } } rfl (fun _ => rfl)
  exact envRun_placed h1.1 (h1.1.not_free_of_cpu h1.2) (h1.1.bound c cur h1.2)
    (h1.1.idle c cur h1.2) h1.notElsewhere

/-- The dispatcher, for the frame that is saved in the environment. -/
theorem trapDispatch_placed (s : Kernel) (c cur : Nat) (cr2 : BitVec 64) (h : InKernel c cur s)
    (hc : c < ncpu) (hlast : cur + 1 < nenv) (hidle : cur < ncpu → IdleTrap (s.envs cur).envTf)
    (hcall : (s.envs cur).envTf.trapno.toNat = 48 →
      s.CallCareful c cur (Call.decode (s.envs cur).envTf.regs)) :
    (s.trapDispatch c cur cr2).Sat (fun _ s' => InKernel c cur s') (Placed none) Unshared := by
  -- an idle environment is not destroyed: its traps are none of the fatal ones
  have hge : ∀ n, (s.envs cur).envTf.trapno.toNat = n → ¬(32 ≤ n ∧ n < 48) → n ≠ 3 → n ≠ 48 →
      ncpu ≤ cur := by
    intro n hn hirq hbrk hsys
    by_contra hlt
    rcases hidle (by omega) with hi | hi | ⟨hi, _⟩ <;> omega
  refine trapDispatch_rule cr2 h ?_ ?_ (fun _ => h.1.unshared) ?_ ?_
  · intro hn
    exact pageFaultHandler_placed cr2 h hc (hge 14 hn (by omega) (by omega) (by omega))
  · intro t hsame
    exact (h.congr hsame).yield _ hc hlast
  · intro hn
    refine (syscall_placed h hc hlast (fun hlt => ?_) (hcall hn)).bind ?_
    · rcases hidle hlt with hi | hi | ⟨_, hy⟩
      · omega
      · omega
      · exact hy
    · intro r s' hs'
      exact hs'.setSelf _ rfl (fun _ => rfl)
  · intro n hn h3 _ h48 hirq
    rw [envDestroy_self h.2]
    exact h.quit _ hc (hge n hn hirq h3 h48)

/-- One careful entry, from user mode to user mode. -/
theorem entry_placed (s : Kernel) (ev : Event) (h : Placed none s) (hev : s.Careful ev) :
    (s.entry ev).Sat (fun _ _ => False) (Placed none) Unshared := by
  cases ev with
  | start c =>
    simp only [entry]
    by_cases hnone : s.cpuEnv c = none
    · rw [if_pos hnone]
      refine schedYield_placed s c _ (h.enter c) hev ?_
      intro cur hcur
      rw [hnone] at hcur
      cases hcur
    · rw [if_neg hnone]
      exact h.unshared
  | trap c tf cr2 =>
    rcases hev with ⟨hc, hev⟩
    simp only [entry]
    cases hcur : s.cpuEnv c with
    | none =>
      simp only [trap, hcur]
      exact h.unshared
    | some cur =>
      rcases hev cur hcur with ⟨hlast, hidle, hcall⟩
      have hin : InKernel c cur s := ⟨h.enter c, hcur⟩
      by_cases hdy : (s.envs cur).envStatus = .dying
      · -- a dying environment is collected by its own CPU
        rw [trap_dying tf cr2 hcur hdy]
        exact hin.quit _ hc (h.idleAlive cur hdy)
      · simp only [trap, hcur, if_neg hdy]
        have h1 := hin.setSelf { s.envs cur with envTf := tf } rfl (fun _ => rfl)
        have hself : ((s.setEnv cur { s.envs cur with envTf := tf }).envs cur).envTf = tf := by
          rw [setEnv_envs, update_self]
        refine (trapDispatch_placed _ c cur cr2 h1 hc hlast
          (by rwa [hself]) (by rwa [hself])).bind ?_
        intro _ t hin2
        simp only [hin2.2]
        by_cases hst : (t.envs cur).envStatus = .running
        · rw [if_pos hst]
          exact envRun_placed hin2.1 (hin2.1.not_free_of_cpu hin2.2)
            (hin2.1.bound c cur hin2.2) (hin2.1.idle c cur hin2.2) hin2.notElsewhere
        · rw [if_neg hst]
          exact hin2.yield _ hc hlast

/-- `Placed` holds between the entries of every careful run. -/
theorem run_placed {s0 : Kernel} (h0 : Started s0) (hrun : Lib.Run step Careful s0 s) :
    Placed none s := by
  refine hrun.invariant (Placed none) ?_ (placed_of_started h0)
  intro t ev t' ht hev hstep
  have hsat := entry_placed t ev ht hev
  unfold step at hstep
  rw [Lib.Flow.exit?_eq_some] at hstep
  rwa [hstep] at hsat

end Kernel
end Jos
