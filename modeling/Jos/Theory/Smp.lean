import Jos.Theory.Sched

/-!
# Several CPUs

The two properties of the machine with several CPUs that the table invariant
gives, and the runs in which the kernel breaks them. `sys_env_set_status` stores
a status without looking at the old one, so a parent can make a child runnable
that another CPU is running, and the scheduler then runs it a second time. And
`env_destroy` hands an environment that another CPU runs over to that CPU only
if its status is `ENV_RUNNING`: after a first call the status is `ENV_DYING`,
and a second call frees the address space under the CPU that is still using it.

## Main definitions

* `twoProcs`: A parent and a child, ready to run.

## Theorems

* `cpuEnv_injective`, `cpuEnv_shared`: One CPU for an environment, and the run
  with two.
* `envFree_unshared`, `envFree_shared`: What is freed is not in use, and the run
  in which it is.
-/

namespace Jos
namespace Kernel

/-- The idle environments, a parent in slot 8 and its child in slot 9. The child
    has an empty address space, with its root in page 5. -/
def twoProcs : Kernel :=
  let mem := fun p i => if p = 5 ∧ i = 0 then page2pa 6 ||| 7 else 0
  let envs := fun e =>
    if e < ncpu then
      { envType := .idle, envStatus := .runnable, envId := 4096 ||| BitVec.ofNat 32 e }
    else if e = 8 then { envStatus := .runnable, envId := 4104 }
    else if e = 9 then
      { envStatus := .runnable, envId := 4105, envParentId := 4104, envPml4e := some 5,
        envCr3 := 5 }
    else {}
  { Kernel.envInit ⟨16, fun _ => 1, [], mem⟩ 1 with
    envs := envs, envFreeList := List.range' 10 1014 }

theorem twoProcs_started : Started twoProcs where
  cpuEnv := fun _ => rfl
  idleType := by
    intro e he
    simp [twoProcs, he]
  noneDying := by
    intro e
    simp only [twoProcs]
    split
    · simp
    · split
      · simp
      · split <;> simp
  freeNodup := List.nodup_range'
  freeList := by
    intro e he
    have hm : 10 ≤ e ∧ e < 1024 := by
      have h : e ∈ List.range' 10 1014 := he
      rw [List.mem_range'_1] at h
      omega
    have h8 : ¬e < ncpu := by unfold ncpu; omega
    refine ⟨by unfold ncpu; omega, by unfold nenv; omega, ?_⟩
    simp [twoProcs, h8, show e ≠ 8 by omega, show e ≠ 9 by omega]
  freed := rfl

/-- The frame of a system call with two arguments. -/
def callFrame (num a1 a2 : BitVec 64) : Trapframe :=
  { trapno := 48, cs := 0x1b, regs := { rax := num, rdx := a1, rcx := a2 } }

/-- In every careful run, no two CPUs have the same environment. -/
theorem cpuEnv_injective (s0 s : Kernel) (h0 : Started s0) (hrun : Lib.Run step Careful s0 s)
    (c c' e : Nat) (hc : s.cpuEnv c = some e) (hc' : s.cpuEnv c' = some e) : c = c' :=
  (run_placed h0 hrun).unique c c' e hc hc'

/-- The parent makes its child runnable while another CPU runs it, and yields:
    now both CPUs run the child. -/
theorem cpuEnv_shared : Started twoProcs ∧
    ∃ s, Lib.Run step (fun _ _ => True) twoProcs s ∧
      s.cpuEnv 0 = some 9 ∧ s.cpuEnv 1 = some 9 := by
  have hrun : (Lib.runEvents step twoProcs
      [.start 0, .start 1, .trap 0 (callFrame 8 4105 2) 0, .trap 0 (callFrame 11 0 0) 0]).map
        (fun s => (s.cpuEnv 0, s.cpuEnv 1)) = some (some 9, some 9) := by
    decide
  rw [Option.map_eq_some_iff] at hrun
  rcases hrun with ⟨s, hs, hcpu⟩
  rw [Prod.mk.injEq] at hcpu
  exact ⟨twoProcs_started, s, Lib.Run.of_runEvents _ _ hs, hcpu⟩

theorem start_zero : step twoProcs (.start 0) = some (twoProcs.envRun 0 8) := by
  rfl

theorem start_one :
    step (twoProcs.envRun 0 8) (.start 1) = some ((twoProcs.envRun 0 8).envRun 1 9) := by
  rfl

/-- Two CPUs take the parent and the child; no third one has either. -/
theorem cpuEnv_injective_twoProcs : ∃ s, Lib.Run step Careful twoProcs s ∧
    s.cpuEnv 0 = some 8 ∧ s.cpuEnv 1 = some 9 ∧ ∀ c, s.cpuEnv c = some 9 → c = 1 := by
  have hrun : Lib.Run step Careful twoProcs ((twoProcs.envRun 0 8).envRun 1 9) :=
    (Relation.ReflTransGen.single ⟨.start 0, (by decide : 0 < ncpu), start_zero⟩).tail
      ⟨.start 1, (by decide : 1 < ncpu), start_one⟩
  refine ⟨_, hrun, rfl, rfl, ?_⟩
  intro c hc
  exact cpuEnv_injective twoProcs _ twoProcs_started hrun c 1 9 hc rfl

/-- In every careful run, and in a further careful entry, also one that stops
    the machine, `env_free` is applied only to the CPU's own environment or to
    one that no CPU has. -/
theorem envFree_unshared (s0 s : Kernel) (h0 : Started s0) (hrun : Lib.Run step Careful s0 s) :
    s.Unshared ∧ ∀ ev, s.Careful ev → (s.entry ev).Sat (fun _ _ => False) Unshared Unshared := by
  have hp := run_placed h0 hrun
  refine ⟨hp.unshared, ?_⟩
  intro ev hev
  exact (entry_placed s ev hp hev).mono (fun _ _ h => h) (fun _ h => h.unshared) (fun _ h => h)

/-- The parent destroys its child twice while another CPU runs it: the second
    call frees the address space that CPU is using. -/
theorem envFree_shared : Started twoProcs ∧
    ∃ s, Lib.Run step (fun _ _ => True) twoProcs s ∧ s.cpuEnv 1 = some 9 ∧ ¬s.Unshared := by
  have hrun : (Lib.runEvents step twoProcs
      [.start 0, .start 1, .trap 0 (callFrame 3 4105 0) 0, .trap 0 (callFrame 3 4105 0) 0]).map
        (fun s => (s.cpuEnv 1, s.freed.map fun ev => (ev.env, ev.cpuEnv ev.cpu, ev.cpuEnv 1))) =
      some (some 9, [(9, some 8, some 9)]) := by
    decide
  rw [Option.map_eq_some_iff] at hrun
  rcases hrun with ⟨s, hs, hobs⟩
  rw [Prod.mk.injEq] at hobs
  refine ⟨twoProcs_started, s, Lib.Run.of_runEvents _ _ hs, hobs.1, ?_⟩
  intro hun
  cases hf : s.freed with
  | nil => rw [hf] at hobs; cases hobs.2
  | cons ev rest =>
    rw [hf, List.map_cons, List.cons.injEq, Prod.mk.injEq, Prod.mk.injEq] at hobs
    rcases hobs.2.1 with ⟨henv, hcpu, hone⟩
    rcases hun ev (hf ▸ List.mem_cons_self) with h | h
    · rw [hcpu, henv] at h; cases h
    · exact h 1 (by rw [hone, henv])

/-- The parent destroys a child that no CPU runs. -/
theorem envFree_unshared_twoProcs : ∃ s t, Lib.Run step Careful twoProcs s ∧
    s.entry (.trap 0 (callFrame 3 4105 0) 0) = .user t ∧ t.freed.length = 1 ∧ t.Unshared := by
  have hrun : Lib.Run step Careful twoProcs (twoProcs.envRun 0 8) :=
    Relation.ReflTransGen.single ⟨.start 0, (by decide : 0 < ncpu), start_zero⟩
  have hev : (twoProcs.envRun 0 8).Careful (.trap 0 (callFrame 3 4105 0) 0) := by
    refine ⟨by decide, ?_⟩
    intro cur hcur
    have h8 : cur = 8 := (Option.some.inj (show some 8 = some cur from hcur)).symm
    subst h8
    refine ⟨by decide, fun h => absurd h (by decide), ?_⟩
    intro _ e he
    have h9 : e = 9 := (Option.some.inj (show some 9 = some e from he)).symm
    subst h9
    exact ⟨by decide, fun h => absurd h (by decide)⟩
  have hsat := (envFree_unshared twoProcs _ twoProcs_started hrun).2 _ hev
  have hobs : ((twoProcs.envRun 0 8).entry (.trap 0 (callFrame 3 4105 0) 0)).exit?.map
      (fun t => t.freed.length) = some 1 := by
    decide
  rw [Option.map_eq_some_iff] at hobs
  rcases hobs with ⟨t, ht, hlen⟩
  rw [Lib.Flow.exit?_eq_some] at ht
  rw [ht] at hsat
  exact ⟨_, t, hrun, ht, hlen, hsat⟩

end Kernel
end Jos
