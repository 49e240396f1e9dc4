import Jos.Theory.Calls

/-!
# Exactly-Once Delivery

Environments exchange values through `sys_ipc_recv` and `sys_ipc_try_send`. A
receiver marks itself in `env_ipc_recving` and gives up the CPU; the sender that
finds the mark clears it, stores its id and the value in the receiver's fields
and makes the receiver runnable, and the receiver's call returns when it runs
again.

The system here is the environment table under any schedule: a CPU may pick any
runnable environment at any time, and the environment it runs may make either
call with any arguments. Three histories are kept beside the table. `sent e` are
the pairs of the calls to `e` that returned 0, `seen e` the pairs `e` finds in
its fields when its calls return, and `waiting e` says that `e` is inside a call.

A send with a page can fail after it found its receiver. The last section says
what the receiver is left with then.

## Main definitions

* `Ipc`, `Ipc.Step`: The system with its histories.
* `Ipc.Inv`: Where each environment stands in the exchange.
* `Kernel.SameTarget`, `Kernel.PageFails`: A target that is as it was, and a page
  that cannot be delivered to it.

## Theorems

* `Ipc.trySend_value`: What a send without a page does.
* `Ipc.inv_step`: One step keeps the invariant.
* `Ipc.seen_eq_sent`: Each value sent is seen once, in order.
* `Kernel.trySend_page`: What a send with a page does.
* `Kernel.trySend_error_same`: When an error leaves the target as it was.
-/

namespace Jos

open Function (update update_self update_of_ne)

/-- The kernel with the histories of the exchange. -/
structure Ipc where
  k : Kernel
  sent : Nat → List (BitVec 32 × BitVec 32)
  seen : Nat → List (BitVec 32 × BitVec 32)
  waiting : Nat → Bool

variable {envid perm value : BitVec 32} {cur dst srcva : Nat} {r : Int}

namespace Ipc

/-- The pair in the fields of `e`. -/
def fields (k : Kernel) (e : Nat) : BitVec 32 × BitVec 32 :=
  ((k.envs e).envIpcFrom, (k.envs e).envIpcValue)

/-- The CPU `c` runs `e`: if `e` was inside `sys_ipc_recv`, the call returns
    now and `e` sees its fields. -/
def afterRun (σ : Ipc) (c e : Nat) : Ipc :=
  { σ with
    k := σ.k.envRun c e
    seen := if σ.waiting e then update σ.seen e (σ.seen e ++ [fields σ.k e]) else σ.seen
    waiting := update σ.waiting e false }

/-- `cur` called `sys_ipc_recv` with the result `r`; on 0 it waits. -/
def afterRecv (σ : Ipc) (cur : Nat) (r : Int) (k : Kernel) : Ipc :=
  { σ with k := k, waiting := if r = 0 then update σ.waiting cur true else σ.waiting }

/-- `cur` sent `value` to `dst` with the result `r`. -/
def afterSend (σ : Ipc) (cur dst : Nat) (value : BitVec 32) (r : Int) (k : Kernel) : Ipc :=
  { σ with
    k := k
    sent := if r = 0
      then update σ.sent dst (σ.sent dst ++ [((σ.k.envs cur).envId, value)])
      else σ.sent }

/-- One step of the system. A send that names no environment reaches nobody and
    is left out; the environment that makes a call is running on its CPU. -/
inductive Step : Ipc → Ipc → Prop
  | run (σ : Ipc) (c e : Nat) (hs : (σ.k.envs e).envStatus = .runnable) :
      Step σ (σ.afterRun c e)
  | recv (σ : Ipc) (c cur dstva : Nat) (r : Int) (k : Kernel) (hc : σ.k.cpuEnv c = some cur)
      (hs : (σ.k.envs cur).envStatus = .running)
      (h : σ.k.sysIpcRecv cur dstva = .ret r k) : Step σ (σ.afterRecv cur r k)
  | send (σ : Ipc) (c cur dst srcva : Nat) (envid value perm : BitVec 32) (r : Int) (k : Kernel)
      (hc : σ.k.cpuEnv c = some cur) (hs : (σ.k.envs cur).envStatus = .running)
      (hdst : σ.k.envid2env cur envid false = some dst) (hva : utop ≤ srcva)
      (h : σ.k.sysIpcTrySend cur envid value srcva perm = .ret r k) :
      Step σ (σ.afterSend cur dst value r k)

/-- The histories are empty and nobody is inside a call. -/
structure Start (σ : Ipc) : Prop where
  sent : ∀ e, σ.sent e = []
  seen : ∀ e, σ.seen e = []
  waiting : ∀ e, σ.waiting e = false
  recving : ∀ e, (σ.k.envs e).envIpcRecving = false

/-- What is on its way to `e`: the pair that was delivered to it while it has
    not run again. -/
def pending (σ : Ipc) (e : Nat) : List (BitVec 32 × BitVec 32) :=
  if σ.waiting e ∧ (σ.k.envs e).envIpcRecving = false then [fields σ.k e] else []

/-- Where `e` stands: it may wait for a value, it may have one it has not seen,
    or it is outside the call. Only in the first case can a send succeed, and
    only in the last can it be running. -/
structure Inv (σ : Ipc) (e : Nat) : Prop where
  history : σ.sent e = σ.seen e ++ σ.pending e
  blocked : (σ.k.envs e).envIpcRecving = true →
    σ.waiting e = true ∧ (σ.k.envs e).envStatus = .notRunnable
  delivered : σ.waiting e = true → (σ.k.envs e).envIpcRecving = false →
    (σ.k.envs e).envStatus = .runnable

/-! ## The two calls -/

variable {k : Kernel} {σ τ : Ipc}

/-- A send without a page either finds a receiver and completes, or leaves the
    whole state as it is. -/
theorem trySend_value (value perm : BitVec 32) (hdst : k.envid2env cur envid false = some dst)
    (hva : utop ≤ srcva) :
    k.sysIpcTrySend cur envid value srcva perm =
      if (k.envs dst).envIpcRecving = false then .ret (-7) k
      else .ret 0 (k.setEnv dst { k.envs dst with
        envIpcRecving := false, envIpcFrom := (k.envs cur).envId, envIpcValue := value,
        envIpcPerm := 0, envStatus := .runnable }) := by
  unfold Kernel.sysIpcTrySend
  rw [hdst]
  by_cases hr : (k.envs dst).envIpcRecving = false
  · simp only [hr, if_true]
  · simp only [hr, if_neg (Nat.not_lt.2 hva), Kernel.setEnv, update_self,
      Function.update_idem]

/-- A receive either is refused without effect or blocks its caller. -/
theorem recv_value (k : Kernel) (cur dstva : Nat) :
    k.sysIpcRecv cur dstva = .ret (-3) k ∨
    k.sysIpcRecv cur dstva = .ret 0 (k.setEnv cur { k.envs cur with
      envIpcRecving := true, envIpcDstva := dstva, envIpcValue := 0, envIpcPerm := 0,
      envIpcFrom := 0, envStatus := .notRunnable }) := by
  unfold Kernel.sysIpcRecv
  by_cases h : dstva < utop ∧ dstva % pgSize ≠ 0
  · exact .inl (by rw [if_pos h])
  · exact .inr (by rw [if_neg h])

/-! ## One step -/

theorem inv_start (h : Start σ) (e : Nat) : Inv σ e where
  history := by simp [pending, h.sent e, h.seen e, h.waiting e]
  blocked := by intro hr; rw [h.recving e] at hr; cases hr
  delivered := by intro hw; rw [h.waiting e] at hw; cases hw

theorem inv_run (h : ∀ e, Inv σ e) {e : Nat} (c : Nat) (hs : (σ.k.envs e).envStatus = .runnable)
    (i : Nat) : Inv (σ.afterRun c e) i := by
  have hrec : ((σ.k.envRun c e).envs i).envIpcRecving = (σ.k.envs i).envIpcRecving := by
    rw [Kernel.envRun_envs]
  have hfld : fields (σ.k.envRun c e) i = fields σ.k i := by
    unfold fields
    rw [Kernel.envRun_envs]
  -- a runnable environment does not wait for a value
  have hnot : (σ.k.envs e).envIpcRecving = false := by
    by_contra hr
    rw [Bool.not_eq_false] at hr
    rw [((h e).blocked hr).2] at hs
    cases hs
  by_cases hi : i = e
  · subst hi
    refine ⟨?_, ?_, ?_⟩
    · have hh := (h i).history
      simp only [pending, hnot, and_true] at hh
      simp only [afterRun, pending, update_self, Bool.false_eq_true, false_and, if_false,
        List.append_nil]
      by_cases hw : σ.waiting i = true
      · rw [if_pos hw] at hh ⊢
        rwa [update_self]
      · rw [if_neg hw] at hh ⊢
        rw [hh, List.append_nil]
    · intro hr
      simp only [afterRun, hrec, hnot] at hr
      cases hr
    · intro hw
      simp only [afterRun, update_self] at hw
      cases hw
  · have hseen : (σ.afterRun c e).seen i = σ.seen i := by
      simp only [afterRun]
      by_cases hw : σ.waiting e = true
      · rw [if_pos hw, update_of_ne hi]
      · rw [if_neg hw]
    have hwait : (σ.afterRun c e).waiting i = σ.waiting i := by
      simp only [afterRun, update_of_ne hi]
    -- the CPU's last environment was running, so it is outside the call
    have hstat : σ.waiting i = true →
        ((σ.k.envRun c e).envs i).envStatus = (σ.k.envs i).envStatus := by
      intro hw
      have hne : (σ.k.envs i).envStatus ≠ .running := by
        cases hr : (σ.k.envs i).envIpcRecving with
        | true => rw [((h i).blocked hr).2]; simp
        | false => rw [(h i).delivered hw hr]; simp
      rw [Kernel.envRun_envs]
      simp only [if_neg hi, hne, and_false, if_false]
    refine ⟨?_, ?_, ?_⟩
    · rw [hseen]
      simp only [pending, hwait]
      simp only [afterRun, hrec, hfld]
      exact (h i).history
    · intro hr
      simp only [afterRun, hrec] at hr
      have hb := (h i).blocked hr
      refine ⟨hwait ▸ hb.1, ?_⟩
      have hk : (σ.afterRun c e).k = σ.k.envRun c e := rfl
      rw [hk, hstat hb.1]
      exact hb.2
    · intro hw hr
      rw [hwait] at hw
      simp only [afterRun, hrec] at hr
      have hk : (σ.afterRun c e).k = σ.k.envRun c e := rfl
      rw [hk, hstat hw]
      exact (h i).delivered hw hr

theorem inv_recv (h : ∀ e, Inv σ e) {cur dstva : Nat} (hs : (σ.k.envs cur).envStatus = .running)
    (hcall : σ.k.sysIpcRecv cur dstva = .ret r k) (i : Nat) : Inv (σ.afterRecv cur r k) i := by
  rcases recv_value σ.k cur dstva with hv | hv
  · rw [hv] at hcall
    cases hcall
    exact h i
  · rw [hv] at hcall
    cases hcall
    by_cases hi : i = cur
    · -- a running environment has seen everything sent to it
      subst hi
      have hwait : σ.waiting i = false := by
        by_contra hw
        rw [Bool.not_eq_false] at hw
        cases hr : (σ.k.envs i).envIpcRecving with
        | true => rw [((h i).blocked hr).2] at hs; cases hs
        | false => rw [(h i).delivered hw hr] at hs; cases hs
      have hh := (h i).history
      simp only [pending, hwait, Bool.false_eq_true, false_and, if_false, List.append_nil] at hh
      refine ⟨?_, ?_, ?_⟩
      · simp [afterRecv, pending, hh]
      · intro _; simp [afterRecv]
      · intro _ hr; simp [afterRecv] at hr
    · have hk : ∀ v, (σ.k.setEnv cur v).envs i = σ.k.envs i := by
        intro v
        rw [Kernel.setEnv_envs, update_of_ne hi]
      refine ⟨?_, ?_, ?_⟩
      · simp only [afterRecv, pending, fields, if_true, hk, update_of_ne hi]
        exact (h i).history
      · simp only [afterRecv, if_true, hk, update_of_ne hi]
        exact (h i).blocked
      · simp only [afterRecv, if_true, hk, update_of_ne hi]
        exact (h i).delivered

theorem inv_send (h : ∀ e, Inv σ e) {cur dst srcva : Nat}
    (hdst : σ.k.envid2env cur envid false = some dst) (hva : utop ≤ srcva)
    (hcall : σ.k.sysIpcTrySend cur envid value srcva perm = .ret r k) (i : Nat) :
    Inv (σ.afterSend cur dst value r k) i := by
  rw [trySend_value value perm hdst hva] at hcall
  by_cases hr : (σ.k.envs dst).envIpcRecving = false
  · rw [if_pos hr] at hcall
    cases hcall
    exact h i
  · rw [if_neg hr] at hcall
    cases hcall
    rw [Bool.not_eq_false] at hr
    by_cases hi : i = dst
    · subst hi
      have hw := ((h i).blocked hr).1
      have hh := (h i).history
      simp only [pending, hr, Bool.true_eq_false, and_false, if_false, List.append_nil] at hh
      refine ⟨?_, ?_, ?_⟩
      · simp [afterSend, pending, fields, hw, hh]
      · intro hr'; simp [afterSend] at hr'
      · intro _ _; simp [afterSend]
    · have hk : ∀ v, (σ.k.setEnv dst v).envs i = σ.k.envs i := by
        intro v
        rw [Kernel.setEnv_envs, update_of_ne hi]
      refine ⟨?_, ?_, ?_⟩
      · simp only [afterSend, pending, fields, if_true, hk, update_of_ne hi]
        exact (h i).history
      · simp only [afterSend, hk]
        exact (h i).blocked
      · simp only [afterSend, hk]
        exact (h i).delivered

/-- Each kind of step keeps the invariant of every environment. -/
theorem inv_step (h : ∀ e, Inv σ e) (hstep : Step σ τ) (i : Nat) : Inv τ i := by
  cases hstep with
  | run c e hs => exact inv_run h c hs i
  | recv c cur dstva r k hc hs hcall => exact inv_recv h hs hcall i
  | send c cur dst srcva envid value perm r k hc hs hdst hva hcall =>
    exact inv_send h hdst hva hcall i

theorem inv_reachable (h0 : Start σ) (hrun : Relation.ReflTransGen Step σ τ) : ∀ e, Inv τ e := by
  induction hrun with
  | refl => exact inv_start h0
  | tail _ hlast ih => exact inv_step ih hlast

/-- At every point of every schedule, what `e` has seen on its returns from
    `sys_ipc_recv` is what was sent to it, in order, except for the one value
    that may be in its fields while it has not run again; once `e` is outside
    the call the two are equal. A send to `e` either completes, or returns
    `-E_IPC_NOT_RECV` and changes nothing. -/
theorem seen_eq_sent (σ τ : Ipc) (h0 : Start σ) (hrun : Relation.ReflTransGen Step σ τ) (e : Nat) :
    τ.sent e = τ.seen e ++ τ.pending e ∧
    (τ.waiting e = false → τ.seen e = τ.sent e) ∧
    ∀ (cur srcva : Nat) (envid value perm : BitVec 32),
      τ.k.envid2env cur envid false = some e → utop ≤ srcva →
      (∃ k, τ.k.sysIpcTrySend cur envid value srcva perm = .ret 0 k ∧
        fields k e = ((τ.k.envs cur).envId, value)) ∨
      τ.k.sysIpcTrySend cur envid value srcva perm = .ret (-7) τ.k := by
  have hinv := inv_reachable h0 hrun e
  refine ⟨hinv.history, ?_, ?_⟩
  · intro hw
    have hh := hinv.history
    simp only [pending, hw, Bool.false_eq_true, false_and, if_false, List.append_nil] at hh
    exact hh.symm
  · intro cur srcva envid value perm hdst hva
    rw [trySend_value value perm hdst hva]
    by_cases hr : (τ.k.envs e).envIpcRecving = false
    · rw [if_pos hr]
      exact .inr rfl
    · rw [if_neg hr]
      refine .inl ⟨_, rfl, ?_⟩
      simp [fields]

/-- Two environments, the slots 0 and 1, that may run. -/
def twoEnvs : Ipc where
  k := { Kernel.envInit ⟨0, fun _ => 0, [], fun _ _ => 0⟩ 0 with
    envs := fun e =>
      if e = 0 then { envId := 4096, envStatus := .runnable }
      else if e = 1 then { envId := 4097, envStatus := .runnable }
      else {} }
  sent := fun _ => []
  seen := fun _ => []
  waiting := fun _ => false

/-- Slot 1 receives, slot 0 sends 42 to it, and slot 1 runs again and has seen
    the value with the sender's id. -/
theorem seen_eq_sent_twoEnvs : ∃ τ, Relation.ReflTransGen Step twoEnvs τ ∧
    τ.seen 1 = [(4096, 42)] ∧ τ.sent 1 = τ.seen 1 ++ τ.pending 1 := by
  have h0 : Start twoEnvs := by
    refine ⟨fun _ => rfl, fun _ => rfl, fun _ => rfl, ?_⟩
    intro e
    by_cases h0 : e = 0
    · simp [twoEnvs, h0]
    · by_cases h1 : e = 1 <;> simp [twoEnvs, h0, h1]
  have hrun := Relation.ReflTransGen.refl (r := Step) (a := twoEnvs)
  have hrun := hrun.tail (Step.run _ 0 0 rfl)
  have hrun := hrun.tail (Step.run _ 1 1 rfl)
  have hrun := hrun.tail (Step.recv _ 1 1 0 0 _ rfl rfl rfl)
  have hrun := hrun.tail (Step.send _ 0 0 1 utop 4097 42 0 0 _ rfl rfl rfl le_rfl rfl)
  have hrun := hrun.tail (Step.run _ 1 1 rfl)
  exact ⟨_, hrun, rfl, (seen_eq_sent _ _ h0 hrun 1).1⟩

end Ipc

/-! ## Sends that fail -/

namespace Kernel

/-- The environment `e` is as it was: its place in the exchange, its status and
    its mappings. -/
structure SameTarget (s s' : Kernel) (e : Nat) : Prop where
  recving : (s'.envs e).envIpcRecving = (s.envs e).envIpcRecving
  sender : (s'.envs e).envIpcFrom = (s.envs e).envIpcFrom
  value : (s'.envs e).envIpcValue = (s.envs e).envIpcValue
  perm : (s'.envs e).envIpcPerm = (s.envs e).envIpcPerm
  status : (s'.envs e).envStatus = (s.envs e).envStatus
  root : (s'.envs e).envPml4e = (s.envs e).envPml4e
  maps : ∀ root, (s.envs e).envPml4e = some root → ∀ va,
    s'.vm.translate root va = s.vm.translate root va

variable (s : Kernel)

theorem SameTarget.refl (e : Nat) : SameTarget s s e :=
  ⟨rfl, rfl, rfl, rfl, rfl, rfl, fun _ _ _ => rfl⟩

/-- The page of a send cannot be delivered: the caller has no page table for
    `srcva`, or there is no memory for a page table at the address where `dst`
    waits for it. -/
def PageFails (s : Kernel) (cur dst srcva : Nat) : Prop :=
  (s.onPml4e cur fun root => s.vm.pageLookup root srcva) = some none ∨
  (∃ pp, (s.onPml4e cur fun root => s.vm.pageLookup root srcva) = some (some pp)) ∧
  ∃ m, (s.onPml4e dst fun root =>
    s.vm.pml4eWalk root (s.envs dst).envIpcDstva true) = some (none, m)

variable {m m' : Vm}

/-- `page_insert` fails only for want of a page table. -/
theorem pageInsert_fails {root pp va : Nat} (h : m.pageInsert root pp va perm = some (r, m'))
    (hr : r ≠ 0) : m.pml4eWalk root va true = some (none, m') := by
  unfold Vm.pageInsert at h
  rcases Option.bind_eq_some_iff.1 h with ⟨⟨o, m1⟩, hwalk, h⟩
  cases o with
  | none =>
    simp only [Option.some.injEq, Prod.mk.injEq] at h
    rw [hwalk, h.2]
  | some pt =>
    rcases Option.map_eq_some_iff.1 h with ⟨m2, _, h⟩
    rw [Prod.mk.injEq] at h
    exact absurd h.1.symm hr

theorem pageInsert_noMem {root va : Nat} (pp : Nat) (perm : BitVec 32)
    (h : m.pml4eWalk root va true = some (none, m')) :
    m.pageInsert root pp va perm = some (Vm.eNoMem, m') := by
  unfold Vm.pageInsert
  rw [h]
  rfl

/-- The state after the first writes of a send to `dst`. -/
def offered (s : Kernel) (cur dst : Nat) (value : BitVec 32) : Kernel :=
  s.setEnv dst { s.envs dst with
    envIpcRecving := false, envIpcFrom := (s.envs cur).envId, envIpcValue := value }

theorem offered_recving (cur dst : Nat) (value : BitVec 32) :
    ((s.offered cur dst value).envs dst).envIpcRecving = false := by
  unfold offered
  rw [setEnv_envs, update_self]

/-- The page calls of a send see what they would have seen before these writes. -/
theorem offered_onPml4e {α : Type} (cur dst : Nat) (value : BitVec 32) (e : Nat)
    (op : Nat → Option α) : (s.offered cur dst value).onPml4e e op = s.onPml4e e op := by
  unfold onPml4e offered
  rw [setEnv_envs]
  by_cases he : e = dst
  · rw [he, update_self]
  · rw [update_of_ne he]

/-- A send with a page to an environment that waits. -/
theorem trySend_page {s : Kernel} (value perm : BitVec 32)
    (hdst : s.envid2env cur envid false = some dst) (hrecv : (s.envs dst).envIpcRecving = true)
    (hva : srcva < utop) :
    s.sysIpcTrySend cur envid value srcva perm =
      match s.onPml4e cur fun root => s.vm.pageLookup root srcva with
      | none => .halt (s.offered cur dst value)
      | some none => .ret (-3) (s.offered cur dst value)
      | some (some (p, _)) =>
        match s.onPml4e dst fun root => s.vm.pageInsert root p (s.envs dst).envIpcDstva perm with
        | none => .halt (s.offered cur dst value)
        | some (r, m) =>
          if r ≠ 0 then .ret (-4) { s.offered cur dst value with vm := m }
          else .ret 0 (({ s.offered cur dst value with vm := m } : Kernel).setEnv dst
            { (s.offered cur dst value).envs dst with
              envIpcPerm := perm, envStatus := .runnable }) := by
  have hwait : ((s.offered cur dst value).envs dst).envIpcDstva = (s.envs dst).envIpcDstva := by
    unfold offered
    rw [setEnv_envs, update_self]
  have hvm : (s.offered cur dst value).vm = s.vm := rfl
  have hoff : s.setEnv dst { s.envs dst with
      envIpcRecving := false, envIpcFrom := (s.envs cur).envId, envIpcValue := value } =
      s.offered cur dst value := rfl
  generalize hrun : s.sysIpcTrySend cur envid value srcva perm = r
  unfold sysIpcTrySend at hrun
  rw [hdst] at hrun
  simp only [hrecv, Bool.true_eq_false, if_false, if_pos hva, hoff] at hrun
  simp only [hvm, hwait, offered_onPml4e] at hrun
  simp only [hwait]
  exact hrun.symm

/-- An error after the first writes means that the page could not be delivered,
    and the target no longer waits. -/
theorem trySend_error (hdst : s.envid2env cur envid false = some dst)
    (hrecv : (s.envs dst).envIpcRecving = true) {n : Int} {s' : Kernel}
    (h : s.sysIpcTrySend cur envid value srcva perm = .ret n s') (hn : n < 0) :
    srcva < utop ∧ s.PageFails cur dst srcva := by
  by_cases hva : srcva < utop
  · refine ⟨hva, ?_⟩
    rw [trySend_page value perm hdst hrecv hva] at h
    cases hlook : s.onPml4e cur fun root => s.vm.pageLookup root srcva with
    | none =>
      rw [hlook] at h
      cases h
    | some o =>
      cases o with
      | none => exact .inl hlook
      | some pp =>
        rw [hlook] at h
        simp only at h
        cases hins : s.onPml4e dst fun root =>
            s.vm.pageInsert root pp.1 (s.envs dst).envIpcDstva perm with
        | none =>
          rw [hins] at h
          cases h
        | some rm =>
          rw [hins] at h
          simp only at h
          by_cases hr : rm.1 ≠ 0
          · rcases Option.bind_eq_some_iff.1 hins with ⟨root, hpml, hins⟩
            refine .inr ⟨⟨pp, hlook⟩, rm.2, ?_⟩
            unfold onPml4e
            rw [hpml]
            exact pageInsert_fails hins hr
          · rw [if_neg hr, Lib.Flow.ret.injEq] at h
            omega
  · rw [Ipc.trySend_value value perm hdst (Nat.le_of_not_lt hva),
      if_neg (by rw [hrecv]; simp), Lib.Flow.ret.injEq] at h
    omega

/-- If the page cannot be delivered, the send returns an error and the target no
    longer waits. -/
theorem trySend_fails (value perm : BitVec 32)
    (hdst : s.envid2env cur envid false = some dst) (hrecv : (s.envs dst).envIpcRecving = true)
    (hva : srcva < utop) (hfail : s.PageFails cur dst srcva) :
    ∃ n s', s.sysIpcTrySend cur envid value srcva perm = .ret n s' ∧ n < 0 ∧
      (s'.envs dst).envIpcRecving = false := by
  rw [trySend_page value perm hdst hrecv hva]
  rcases hfail with hlook | ⟨⟨pp, hlook⟩, m, hwalk⟩
  · rw [hlook]
    exact ⟨_, _, rfl, by decide, s.offered_recving cur dst value⟩
  · rcases Option.bind_eq_some_iff.1 hwalk with ⟨root, hpml, hwalk⟩
    have hins : (s.onPml4e dst fun root =>
        s.vm.pageInsert root pp.1 (s.envs dst).envIpcDstva perm) = some (Vm.eNoMem, m) := by
      unfold onPml4e
      rw [hpml]
      exact pageInsert_noMem _ _ hwalk
    rw [hlook]
    simp only [hins]
    exact ⟨_, _, if_pos (by decide), by decide, s.offered_recving cur dst value⟩

/-- A send that returns an error leaves its target as it was exactly when the
    target was not waiting, or no page was sent, or the page could have been
    delivered: the fields of a waiting target are written before the page is
    looked at, and no error takes this back. -/
theorem trySend_error_same (cur srcva : Nat) (envid value perm : BitVec 32) :
    (∀ dst n s', s.envid2env cur envid false = some dst →
      s.sysIpcTrySend cur envid value srcva perm = .ret n s' → n < 0 → SameTarget s s' dst) ↔
    ∀ dst, s.envid2env cur envid false = some dst →
      (s.envs dst).envIpcRecving = true → srcva < utop → ¬s.PageFails cur dst srcva := by
  constructor
  · intro hsame dst hdst hrecv hva hfail
    rcases s.trySend_fails value perm hdst hrecv hva hfail with
      ⟨n, s', hcall, hn, hlost⟩
    have hkept := (hsame dst n s' hdst hcall hn).recving
    rw [hlost, hrecv] at hkept
    cases hkept
  · intro hok dst n s' hdst hcall hn
    cases hrecv : (s.envs dst).envIpcRecving with
    | false =>
      -- refused before anything is written
      unfold sysIpcTrySend at hcall
      simp only [hdst, hrecv, if_true] at hcall
      cases hcall
      exact .refl s dst
    | true =>
      rcases s.trySend_error hdst hrecv hcall hn with
        ⟨hva, hfail⟩
      exact absurd hfail (hok dst hdst hrecv hva)

/-- The two environments while the second waits for a value, without a page. -/
def oneWaits : Kernel :=
  let k := { Ipc.twoEnvs.k with
    vm := bootVm
    envs := update Ipc.twoEnvs.k.envs 0 { envId := 4096, envPml4e := some 6 } }
  k.setEnv 1 { k.envs 1 with
    envIpcRecving := true, envIpcDstva := utop, envStatus := .notRunnable }

/-- The first sends a page that it has not mapped. It gets `-E_INVAL`, and the
    second does not wait any more, though it is not runnable either. -/
theorem trySend_error_not_same : ∃ s', oneWaits.envid2env 0 4097 false = some 1 ∧
    oneWaits.sysIpcTrySend 0 4097 42 0x800000 7 = .ret (-3) s' ∧
    (oneWaits.envs 1).envIpcRecving = true ∧ (s'.envs 1).envIpcRecving = false ∧
    (s'.envs 1).envStatus = .notRunnable ∧ ¬SameTarget oneWaits s' 1 := by
  refine ⟨oneWaits.offered 0 1 42, by decide, rfl, rfl, rfl, rfl, fun h => ?_⟩
  exact absurd h.recving (by decide)

end Kernel

end Jos
