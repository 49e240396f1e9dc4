import Jos.Core.Syscall

/-!
# What the Kernel Functions Can Do

The functions of the environment table have several ways to fail and change a
few fields each. The lemmas here say once, for each of them, what the state
looks like afterwards; the invariants are proved from these.

## Main definitions

* `bootVm`: A small machine, for runs on concrete events.
* `Kernel.SameTable`: Everything but memory and the devices is the same.
* `Kernel.Stores`: The record that a call stores, and where.
* `Kernel.envQuit`: The environment of a CPU is freed and another one runs.

## Theorems

* `envid2env_cases`: The environment an id resolves to.
* `envAlloc_cases`, `envFree_cases`: The table after creation and destruction.
* `schedYield_rule`: Whom the scheduler may run.
* `e1000Receive_cases`: A received packet touches user memory and the ring.
* `sysPageAlloc_rule`, `sysPageMap_rule`, `sysPageUnmap_rule`: The calls that map pages.
* `syscall_simple`: The calls that neither make, destroy nor choose an environment.
* `envDestroy_self`, `trap_dying`: When an environment quits.
* `pageFaultHandler_rule`, `trapDispatch_rule`: The ways of a trap.
* `storeBuf_rule`, `storeBytes_rule`, `storeWords_rule`, `sysNetTryReceive_rule`: What
  every stored byte keeps.
-/

namespace Jos

open Option (bind_eq_some_iff some.inj some.injEq)

namespace Upcall

theorem utf_cases (rsp : Nat) :
    rsp < uxstacktop ∧ uxstacktop - pgSize ≤ rsp ∧ utf rsp + 168 = rsp ∨
    ¬(rsp < uxstacktop ∧ uxstacktop - pgSize ≤ rsp) ∧ utf rsp + 160 = uxstacktop := by
  unfold utf
  by_cases hon : rsp < uxstacktop ∧ uxstacktop - pgSize ≤ rsp
  · rw [if_pos hon]
    refine .inl ⟨hon.1, hon.2, ?_⟩
    simp only [uxstacktop, utop, pgSize] at hon
    omega
  · rw [if_neg hon]
    exact .inr ⟨hon, by decide⟩

theorem utf_bounds (rsp : Nat) : 16 ≤ utf rsp ∧ utf rsp + 160 ≤ uxstacktop := by
  have h := utf_cases rsp
  simp only [uxstacktop, utop, pgSize] at h ⊢
  omega

end Upcall

/-- A small machine at boot: 64 pages, of which the allocator has 40, the kernel's
    page directory in page 3, and page 5 mapped read-only at `UTOP`. -/
def bootVm : Vm where
  npages := 64
  ppRef := fun _ => 0
  pageFreeList := (List.range' 20 40).reverse
  mem := fun p i =>
    if p = 1 ∧ i = 0 then page2pa 2 ||| 7
    else if p = 2 ∧ i = 3 then page2pa 3 ||| 7
    else if p = 3 ∧ i = 380 then page2pa 4 ||| 7
    else if p = 4 ∧ i = 0 then page2pa 5 ||| 5
    else 0

namespace Kernel

variable {s : Kernel} {cur c : Nat} {U H : Kernel → Prop}

/-- An id resolves to the current environment or to one of the array that is
    in use, with the check of permissions to a child. -/
theorem envid2env_cases {envid : BitVec 32} {checkperm : Bool} {e : Nat}
    (h : s.envid2env cur envid checkperm = some e) :
    e = cur ∨ e < nenv ∧ (s.envs e).envStatus ≠ .free ∧
      (checkperm = true → (s.envs e).envParentId = (s.envs cur).envId) := by
  unfold envid2env at h
  by_cases h0 : envid = 0
  · rw [if_pos h0, some.injEq] at h
    exact .inl h.symm
  · rw [if_neg h0] at h
    rcases Option.ite_none_left_eq_some.1 h with ⟨h1, h⟩
    split at h
    · cases h
    · rename_i h2
      rw [some.injEq] at h
      rw [h] at h1 h2
      by_cases hcur : e = cur
      · exact .inl hcur
      · refine .inr ⟨h ▸ Nat.mod_lt _ (by decide), fun hf => h1 (.inl hf), fun hcheck => ?_⟩
        by_contra hpar
        exact h2 ⟨hcheck, hcur, hpar⟩

/-- `env_alloc` fails without touching the table, or fills the first free slot. -/
theorem envAlloc_cases {s' : Kernel} {pid : BitVec 32} {r : Except Int Nat}
    (h : s.envAlloc pid = some (r, s')) :
    (∃ err, r = .error err) ∧ (s' = s ∨
      ∃ e rest m, s.envFreeList = e :: rest ∧ s.vm.envSetupVm s.bootPml4e = some (none, m) ∧
        s' = { s with vm := m }) ∨
    ∃ e rest p m, r = .ok e ∧ s.envFreeList = e :: rest ∧
      s.vm.envSetupVm s.bootPml4e = some (some p, m) ∧
      s' = { s.setEnv e (newEnv (s.envs e) e p pid) with vm := m, envFreeList := rest } := by
  unfold envAlloc at h
  cases hl : s.envFreeList with
  | nil =>
    rw [hl] at h
    cases h
    exact .inl ⟨⟨_, rfl⟩, .inl rfl⟩
  | cons e rest =>
    rw [hl, Option.map_eq_some_iff] at h
    rcases h with ⟨⟨o, m⟩, hvm, h⟩
    cases o with
    | none =>
      cases h
      exact .inl ⟨⟨_, rfl⟩, .inr ⟨e, rest, m, rfl, hvm, by rw [← hl]⟩⟩
    | some p =>
      cases h
      exact .inr ⟨e, rest, p, m, rfl, rfl, hvm, rfl⟩

/-- The state after `env_free` by `c`: the slot is free and on the list. -/
structure Freed (s : Kernel) (c e : Nat) (s' : Kernel) : Prop where
  cpuEnv : s'.cpuEnv = s.cpuEnv
  envFreeList : s'.envFreeList = e :: s.envFreeList
  freed : s'.freed = ⟨c, e, s.cpuEnv⟩ :: s.freed
  others : ∀ i, i ≠ e → s'.envs i = s.envs i
  status : (s'.envs e).envStatus = .free
  type : (s'.envs e).envType = (s.envs e).envType

/-- `env_free` returns to its caller, or faults on the page tables. -/
theorem envFree_cases (s : Kernel) (c e : Nat) {U H : Kernel → Prop}
    (hhalt : H { s with freed := ⟨c, e, s.cpuEnv⟩ :: s.freed }) :
    (s.envFree c e).Sat (fun _ s' => Freed s c e s') U H := by
  unfold envFree
  simp only
  split
  · exact hhalt
  · refine ⟨rfl, rfl, rfl, ?_, ?_, ?_⟩
    · intro i hi
      simp only [setEnv_envs, Function.update_of_ne hi]
    · simp only [setEnv_envs, Function.update_self]
    · simp only [setEnv_envs, Function.update_self]

/-- The slot the search finds is runnable and not idle; a search that starts
    in the array stays there. -/
theorem schedScan_some {envs : Nat → Env} {n : Nat} :
    ∀ k j, schedScan envs n k = some j →
      (envs j).envStatus = .runnable ∧ (envs j).envType ≠ .idle ∧ (k < nenv → j < nenv) := by
  induction n with
  | zero => intro k j h; exact absurd h (by simp [schedScan])
  | succ n ih =>
    intro k j h
    unfold schedScan at h
    by_cases hc : (envs k).envStatus = .runnable ∧ (envs k).envType ≠ .idle
    · rw [if_pos hc] at h
      cases h
      exact ⟨hc.1, hc.2, fun hk => hk⟩
    · rw [if_neg hc] at h
      rcases ih _ j h with ⟨h1, h2, h3⟩
      refine ⟨h1, h2, ?_⟩
      intro hk
      refine h3 ?_
      by_cases hw : k + 1 = nenv
      · rw [if_pos hw]; decide
      · rw [if_neg hw]; omega

/-- The rule for `sched_yield`: it may take a runnable environment, go on with
    its own if that is running, or fall back on its idle environment. -/
theorem schedYield_rule {α : Type} (R : α → Kernel → Prop)
    (hpick : ∀ j, (s.envs j).envStatus = .runnable → (s.envs j).envType ≠ .idle →
      ((s.cpuEnv c).getD 1 + 1 < nenv → j < nenv) → U (s.envRun c j))
    (hown : ∀ e, s.cpuEnv c = some e → (s.envs e).envStatus = .running → U (s.envRun c e))
    (hidle : (s.envs c).envStatus = .runnable ∨ (s.envs c).envStatus = .running →
      U (s.envRun c c)) (hhalt : H s) : (s.schedYield c).Sat R U H := by
  have hi : (s.schedIdle c).Sat R U H := by
    unfold schedIdle
    generalize (List.range nenv).any _ = busy
    cases busy with
    | false => exact hhalt
    | true =>
      rw [if_pos rfl]
      by_cases hst : (s.envs c).envStatus = .runnable ∨ (s.envs c).envStatus = .running
      · rw [if_pos hst]; exact hidle hst
      · rw [if_neg hst]; exact hhalt
  unfold schedYield
  cases hscan : schedScan s.envs (nenv - 1) ((s.cpuEnv c).getD 1 + 1) with
  | some j =>
    simp only [hscan]
    rcases schedScan_some _ j hscan with ⟨h1, h2, h3⟩
    exact hpick j h1 h2 h3
  | none =>
    simp only [hscan]
    cases hcur : s.cpuEnv c with
    | none => simp only; exact hi
    | some e =>
      simp only
      by_cases hst : (s.envs e).envStatus = .running
      · rw [if_pos hst]; exact hown e hcur hst
      · rw [if_neg hst]; exact hi

/-- `e1000_receive` copies the packet that is there to user memory, through the page
    table in use, and changes the ring. -/
theorem e1000Receive_cases {data : Nat} {r : Int × Kernel} (h : s.e1000Receive cur data = some r) :
    ∃ m d, (m = s.vm ∨ s.e1000.rcvDd s.e1000.rdt = true ∧ s.e1000.rcvEop s.e1000.rdt = true ∧
        s.vm.storeBuf (s.curRoot cur) data (s.e1000.rcvPkt s.e1000.rdt) = some m) ∧
      r.2 = { s with vm := m, e1000 := d } := by
  unfold e1000Receive at h
  by_cases hdd : s.e1000.rcvDd s.e1000.rdt = true
  · simp only [hdd, if_true] at h
    by_cases heop : s.e1000.rcvEop s.e1000.rdt = true
    · simp only [heop, if_true, Option.map_eq_some_iff] at h
      rcases h with ⟨m, hm, rfl⟩
      exact ⟨m, _, .inr ⟨hdd, heop, hm⟩, rfl⟩
    · simp only [heop] at h
      cases h
  · simp only [hdd] at h
    rw [if_neg (by simp), some.injEq] at h
    exact ⟨s.vm, s.e1000, .inl rfl, by rw [← h]⟩

/-- `sys_cputs` changes what its check of the pointer changes. -/
theorem sysCputs_sat {R : Kernel → Prop} {str len : Nat}
    (h : (s.userMemAssert c cur str len 4).Sat (fun _ s' => R s') U H) (hH : ∀ s', R s' → H s') :
    (s.sysCputs c cur str len).Sat (fun _ s' => R s') U H := by
  refine h.bind fun _ s' hs' => ?_
  split
  · exact hs'
  · exact hH s' hs'

/-! ## The calls that keep to the table -/

/-- The environments, the CPUs and the lists are the same; memory, the console
    and the rings may differ. -/
structure SameTable (s s' : Kernel) : Prop where
  envs : s'.envs = s.envs
  cpuEnv : s'.cpuEnv = s.cpuEnv
  list : s'.envFreeList = s.envFreeList
  freed : s'.freed = s.freed
  boot : s'.bootPml4e = s.bootPml4e

theorem SameTable.refl (s : Kernel) : SameTable s s := ⟨rfl, rfl, rfl, rfl, rfl⟩

theorem SameTable.setVm (s : Kernel) (m : Vm) : SameTable s { s with vm := m } :=
  ⟨rfl, rfl, rfl, rfl, rfl⟩

end Kernel

/-- The calls that neither make nor destroy an environment nor choose the next. -/
def Call.simple : Call → Bool
  | .cputs .. | .envDestroy .. | .exofork | .yield => false
  | _ => true

/-- The calls that write to memory. -/
def Call.writes : Call → Bool
  | .pageAlloc .. | .pageMap .. | .pageUnmap .. | .ipcTrySend .. | .netTryReceive .. => true
  | _ => false

namespace Kernel

variable {s : Kernel} {cur c : Nat} {U H : Kernel → Prop}

/-- The record `v` that a call stores, in the slot `e`. -/
def Stores (s : Kernel) (cur : Nat) : Call → Nat → Env → Prop
  | .envSetStatus envid status, e, v => s.envid2env cur envid true = some e ∧
      ∃ st, (status = 2 ∧ st = .runnable ∨ status = 4 ∧ st = .notRunnable) ∧
        v = { s.envs e with envStatus := st }
  | .envSetTrapframe envid tf, e, v => s.envid2env cur envid true = some e ∧
      ∃ f, s.vm.loadTrapframe (s.curRoot cur) tf = some f ∧ v = { s.envs e with envTf := f }
  | .envSetPgfaultUpcall envid func, e, v => s.envid2env cur envid true = some e ∧
      v = { s.envs e with envPgfaultUpcall := func }
  | .ipcRecv dstva, e, v => e = cur ∧ v = { s.envs cur with
      envIpcRecving := true, envIpcDstva := dstva, envIpcValue := 0, envIpcPerm := 0,
      envIpcFrom := 0, envStatus := .notRunnable }
  | .ipcTrySend envid value _ _, e, v => s.envid2env cur envid false = some e ∧
      (s.envs e).envIpcRecving = true ∧
      ∃ st perm, (st = (s.envs e).envStatus ∨ st = .runnable) ∧ v = { s.envs e with
        envIpcRecving := false, envIpcFrom := (s.envs cur).envId, envIpcValue := value,
        envIpcPerm := perm, envStatus := st }
  | _, _, _ => False

/-- What a simple call has done when it returns. -/
def Kept (s : Kernel) (cur : Nat) (call : Call) (s' : Kernel) : Prop :=
  (call.writes = false → s'.vm = s.vm) ∧
    (SameTable s s' ∨ ∃ e v, s.Stores cur call e v ∧ SameTable (s.setEnv e v) s')

variable {call : Call}

theorem Kept.refl (s : Kernel) (cur : Nat) (call : Call) : Kept s cur call s :=
  ⟨fun _ => rfl, .inl (.refl s)⟩

theorem Kept.stores {e : Nat} {v : Env} (h : s.Stores cur call e v) :
    Kept s cur call (s.setEnv e v) :=
  ⟨fun _ => rfl, .inr ⟨e, v, h, .refl _⟩⟩

theorem Kept.setVm (m : Vm) (hcall : call.writes = true) : Kept s cur call { s with vm := m } :=
  ⟨fun hc => absurd (hcall.symm.trans hc) (by decide), .inl (.setVm s m)⟩

/-- The message reaches the receiver before the page is looked at. -/
theorem sysIpcTrySend_kept (s : Kernel) (cur : Nat) (envid value : BitVec 32) (srcva : Nat)
    (perm : BitVec 32) :
    (s.sysIpcTrySend cur envid value srcva perm).Sat
      (fun _ => Kept s cur (.ipcTrySend envid value srcva perm)) (fun _ => False)
      (fun s' => s'.freed = s.freed) := by
  unfold sysIpcTrySend
  cases he : s.envid2env cur envid false with
  | none => exact .refl s cur _
  | some dst =>
    simp only
    by_cases hrecv : (s.envs dst).envIpcRecving = false
    · rw [if_pos hrecv]
      exact .refl s cur _
    · rw [if_neg hrecv]
      rw [Bool.not_eq_false] at hrecv
      -- every way out stores one record, and perhaps a page
      have hkept : ∀ (s' : Kernel) st p, (st = (s.envs dst).envStatus ∨ st = .runnable) →
          SameTable (s.setEnv dst { s.envs dst with
            envIpcRecving := false, envIpcFrom := (s.envs cur).envId, envIpcValue := value,
            envIpcPerm := p, envStatus := st }) s' →
          Kept s cur (.ipcTrySend envid value srcva perm) s' :=
        fun s' st p hst hs' => ⟨fun hc => absurd hc (by simp [Call.writes]),
          .inr ⟨dst, _, ⟨he, hrecv, st, p, hst, rfl⟩, hs'⟩⟩
      split
      · split
        · rfl
        · exact hkept _ _ _ (.inl rfl) (.refl _)
        · split
          · rfl
          · split
            · exact hkept _ _ _ (.inl rfl) (.setVm _ _)
            · refine hkept _ .runnable perm (.inr rfl) ?_
              simp only [setEnv, Function.update_self, Function.update_idem]
              exact ⟨rfl, rfl, rfl, rfl, rfl⟩
      · refine hkept _ .runnable 0 (.inr rfl) ?_
        simp only [setEnv, Function.update_self, Function.update_idem]
        exact ⟨rfl, rfl, rfl, rfl, rfl⟩

theorem lt_utop_of_badVa {va : Nat} (h : badVa va = false) : va < utop := by
  simp only [badVa, Bool.or_eq_false_iff, decide_eq_false_iff_not, Nat.not_le] at h
  exact h.1

section PageCalls

variable {R : Int → Kernel → Prop} {envid srcenvid dstenvid perm : BitVec 32} {va srcva dstva : Nat}
  (hsame : ∀ n, n ≠ 0 → R n s) (hhalt : H s)
include hsame hhalt

/-- `sys_page_alloc` fails with nothing changed, or inserts the page it has taken. -/
theorem sysPageAlloc_rule (hins : ∀ e p m root r m', s.envid2env cur envid true = some e →
      badVa va = false → perm &&& ~~~0xE07 = 0 → s.vm.pageAlloc true = (some p, m) →
      (s.envs e).envPml4e = some root → m.pageInsert root p va perm = some (r, m') →
      R r { s with vm := if r ≠ 0 then m'.pageFree p else m' }) :
    (s.sysPageAlloc cur envid va perm).Sat R U H := by
  unfold sysPageAlloc
  cases he : s.envid2env cur envid true with
  | none => exact hsame _ (by decide)
  | some e =>
    simp only
    by_cases hva : badVa va = true
    · rw [if_pos hva]; exact hsame _ (by decide)
    · rw [if_neg hva]
      by_cases hperm : perm &&& 5 ≠ 5 ∨ perm &&& ~~~0xE07 ≠ 0
      · rw [if_pos hperm]; exact hsame _ (by decide)
      · rw [if_neg hperm]
        rcases ha : s.vm.pageAlloc true with ⟨o, m⟩
        cases o with
        | none => exact hsame _ (by decide)
        | some p =>
          simp only
          cases hx : s.onPml4e e fun root => m.pageInsert root p va perm with
          | none => exact hhalt
          | some x =>
            rcases bind_eq_some_iff.1 hx with ⟨root, hroot, hx⟩
            exact hins e p m root x.1 x.2 he (Bool.eq_false_iff.2 hva)
              (not_not.1 fun hc => hperm (.inr hc)) ha hroot hx

/-- `sys_page_map` fails with nothing changed, or inserts the page it has found. -/
theorem sysPageMap_rule (hins : ∀ src dst p pt root r m, s.envid2env cur srcenvid true = some src →
      s.envid2env cur dstenvid true = some dst → badVa srcva = false → badVa dstva = false →
      (s.onPml4e src fun root => s.vm.pageLookup root srcva) = some (some (p, pt)) →
      (s.envs dst).envPml4e = some root → s.vm.pageInsert root p dstva perm = some (r, m) →
      R (if r ≠ 0 then -4 else r) { s with vm := m }) :
    (s.sysPageMap cur srcenvid srcva dstenvid dstva perm).Sat R U H := by
  unfold sysPageMap
  cases hsrc : s.envid2env cur srcenvid true with
  | none => exact hsame _ (by decide)
  | some src =>
    cases hdst : s.envid2env cur dstenvid true with
    | none => exact hsame _ (by decide)
    | some dst =>
      simp only
      by_cases hva : (badVa srcva || badVa dstva) = true
      · rw [if_pos hva]; exact hsame _ (by decide)
      · rw [if_neg hva]
        rw [Bool.not_eq_true, Bool.or_eq_false_iff] at hva
        cases hlook : s.onPml4e src fun root => s.vm.pageLookup root srcva with
        | none => exact hhalt
        | some o =>
          cases o with
          | none => exact hsame _ (by decide)
          | some pp =>
            simp only
            cases hx : s.onPml4e dst fun root => s.vm.pageInsert root pp.1 dstva perm with
            | none => exact hhalt
            | some x =>
              rcases bind_eq_some_iff.1 hx with ⟨root, hroot, hx⟩
              exact hins src dst pp.1 pp.2 root x.1 x.2 hsrc hdst hva.1 hva.2 hlook hroot hx

/-- `sys_page_unmap` fails with nothing changed, or removes the page. -/
theorem sysPageUnmap_rule (hrem : ∀ e root m, s.envid2env cur envid true = some e →
      badVa va = false → (s.envs e).envPml4e = some root → s.vm.pageRemove root va = some m →
      R 0 { s with vm := m }) :
    (s.sysPageUnmap cur envid va).Sat R U H := by
  unfold sysPageUnmap
  cases he : s.envid2env cur envid true with
  | none => exact hsame _ (by decide)
  | some e =>
    simp only
    by_cases hva : badVa va = true
    · rw [if_pos hva]; exact hsame _ (by decide)
    · rw [if_neg hva]
      cases hx : s.onPml4e e fun root => s.vm.pageRemove root va with
      | none => exact hhalt
      | some m =>
        rcases bind_eq_some_iff.1 hx with ⟨root, hroot, hx⟩
        exact hrem e root m he (Bool.eq_false_iff.2 hva) hroot hx

end PageCalls

/-- A simple call returns and has stored at most one record, or it stops the
    machine. -/
theorem syscall_simple (s : Kernel) (c cur : Nat) (hcall : call.simple = true) :
    (s.syscall c cur call).Sat (fun _ => Kept s cur call) (fun _ => False)
      (fun s' => s'.freed = s.freed) := by
  have hrefl := Kept.refl s cur call
  cases call with
  | cputs str len => exact absurd hcall (by simp [Call.simple])
  | envDestroy envid => exact absurd hcall (by simp [Call.simple])
  | exofork => exact absurd hcall (by simp [Call.simple])
  | yield => exact absurd hcall (by simp [Call.simple])
  | cgetc =>
    simp only [syscall, sysCgetc]
    split
    · exact hrefl
    · exact ⟨fun _ => rfl, .inl ⟨rfl, rfl, rfl, rfl, rfl⟩⟩
  | getenvid => exact hrefl
  | timeMsec => exact hrefl
  | unknown => exact hrefl
  -- the calls on pages change the memory only
  | pageAlloc envid va perm =>
    exact sysPageAlloc_rule (fun _ _ => hrefl) rfl fun _ _ _ _ _ _ _ _ _ _ _ _ => .setVm _ rfl
  | pageMap srcenvid srcva dstenvid dstva perm =>
    exact sysPageMap_rule (fun _ _ => hrefl) rfl fun _ _ _ _ _ _ _ _ _ _ _ _ _ _ => .setVm _ rfl
  | pageUnmap envid va =>
    exact sysPageUnmap_rule (fun _ _ => hrefl) rfl fun _ _ _ _ _ _ _ => .setVm _ rfl
  -- these store a record in the table
  | envSetStatus envid status =>
    simp only [syscall, sysEnvSetStatus]
    split
    · exact hrefl
    · rename_i e he
      split
      · rename_i h2
        exact .stores ⟨he, .runnable, .inl ⟨h2, rfl⟩, rfl⟩
      · split
        · rename_i h4
          exact .stores ⟨he, .notRunnable, .inr ⟨h4, rfl⟩, rfl⟩
        · exact hrefl
  | envSetTrapframe envid tf =>
    simp only [syscall, sysEnvSetTrapframe]
    split
    · exact hrefl
    · rename_i e he
      split
      · rfl
      · rename_i f hf
        exact .stores ⟨he, f, hf, rfl⟩
  | envSetPgfaultUpcall envid func =>
    simp only [syscall, sysEnvSetPgfaultUpcall]
    split
    · exact hrefl
    · rename_i e he
      exact .stores ⟨he, rfl⟩
  | ipcTrySend envid value srcva perm => exact sysIpcTrySend_kept s cur envid value srcva perm
  | ipcRecv dstva =>
    simp only [syscall, sysIpcRecv]
    split
    · exact hrefl
    · exact .stores ⟨rfl, rfl⟩
  | netTrySend data len =>
    simp only [syscall, sysNetTrySend]
    split
    · exact hrefl
    · split
      · exact hrefl
      · split
        · split
          · rfl
          · split
            · rfl
            · exact ⟨fun _ => rfl, .inl ⟨rfl, rfl, rfl, rfl, rfl⟩⟩
        · exact hrefl
  | netTryReceive data len =>
    simp only [syscall, sysNetTryReceive]
    split
    · exact hrefl
    · cases hr : s.e1000Receive cur data with
      | none => rfl
      | some r =>
        rcases e1000Receive_cases hr with ⟨m, d, _, hs'⟩
        simp only [hs']
        split
        · rfl
        · exact ⟨fun hc => absurd hc (by simp [Call.writes]),
            .inl ⟨rfl, rfl, rfl, rfl, rfl⟩⟩

/-! ## Traps -/

/-- The current environment is freed, and the CPU looks for another one. -/
def envQuit {α : Type} (s : Kernel) (c cur : Nat) : Flow α :=
  (s.envFree c cur).bind fun _ s => (s.setCpuEnv c none).schedYield c

/-- `env_destroy` of the current environment does not return. -/
theorem envDestroy_self (hon : s.cpuEnv c = some cur) : s.envDestroy c cur = s.envQuit c cur := by
  have hfree := envFree_cases s c cur (U := fun _ => True) (H := fun _ => True) trivial
  rw [envDestroy, if_neg (fun hrun => hrun.2 hon), envQuit]
  cases hrun : s.envFree c cur with
  | ret u t =>
    rw [hrun] at hfree
    simp only [Lib.Flow.bind]
    rw [if_pos (by rwa [hfree.cpuEnv])]
  | user t => rfl
  | halt t => rfl

/-- A trap of a zombie frees it. -/
theorem trap_dying (tf : Trapframe) (cr2 : BitVec 64) (hon : s.cpuEnv c = some cur)
    (hdy : (s.envs cur).envStatus = .dying) : s.trap c tf cr2 = s.envQuit c cur := by
  unfold trap
  simp only [hon, if_pos hdy]
  rfl

/-- The rule for `user_mem_assert` on behalf of the current environment. -/
theorem userMemAssert_rule {R : Unit → Kernel → Prop} {va len : Nat} {perm : BitVec 32}
    (hon : s.cpuEnv c = some cur) (hret : s.userMemCheck cur va len perm = some true → R () s)
    (hhalt : H s)
    (hquit : s.userMemCheck cur va len perm = some false → (s.envQuit c cur).Sat R U H) :
    (s.userMemAssert c cur va len perm).Sat R U H := by
  unfold userMemAssert
  split
  · exact hhalt
  · rename_i hcheck
    exact hret hcheck
  · rename_i hcheck
    rw [envDestroy_self hon]
    exact hquit hcheck

/-- The page fault of the current environment is its end: it has no upcall, or no
    room for a frame. -/
def FatalFault (s : Kernel) (cur : Nat) : Prop :=
  (s.envs cur).envPgfaultUpcall = 0 ∨
    s.userMemCheck cur (Upcall.utf (s.envs cur).envTf.rsp.toNat) 160 2 = some false

/-- The rule for `page_fault_handler`: the environment quits, or it goes on in its upcall
    with a frame in its memory. -/
theorem pageFaultHandler_rule {R : Unit → Kernel → Prop} (cr2 : BitVec 64)
    (hon : s.cpuEnv c = some cur) (hhalt : H s)
    (hquit : s.FatalFault cur → ∀ R : Unit → Kernel → Prop, (s.envQuit c cur).Sat R U H)
    (hrun : (s.envs cur).envPml4e.isSome → ∀ m, s.vm.storeWords (s.curRoot cur)
        (Upcall.utf (s.envs cur).envTf.rsp.toNat) (utrapframe (s.envs cur).envTf cr2) = some m →
      U ((({ s with vm := m } : Kernel).setEnv cur { s.envs cur with
        envTf := { (s.envs cur).envTf with
          rip := (s.envs cur).envPgfaultUpcall
          rsp := BitVec.ofNat 64 (Upcall.utf (s.envs cur).envTf.rsp.toNat) } }).envRun c cur)) :
    (s.pageFaultHandler c cur cr2).Sat R U H := by
  unfold pageFaultHandler
  by_cases hup : (s.envs cur).envPgfaultUpcall ≠ 0
  · simp only [if_pos hup]
    refine Lib.Flow.Sat.bind (R := fun _ t => t = s ∧ (s.envs cur).envPml4e.isSome)
      (userMemAssert_rule hon ?_ hhalt fun hcheck => hquit (.inr hcheck) _) ?_
    · intro hcheck
      rcases bind_eq_some_iff.1 hcheck with ⟨root, hroot, _⟩
      exact ⟨rfl, by rw [hroot]; rfl⟩
    · rintro _ t ⟨rfl, hsome⟩
      split
      · exact hhalt
      · rename_i m hm
        exact hrun hsome m hm
  · simp only [if_neg hup]
    rw [envDestroy_self hon]
    exact hquit (.inl (not_not.1 hup)) R

/-- The rule for `trap_dispatch`: a page fault, an interrupt that ends the turn of
    the environment, a call, or a trap that is fatal; the others change nothing. -/
theorem trapDispatch_rule {R : Unit → Kernel → Prop} (cr2 : BitVec 64) (hret : R () s)
    (hfault : (s.envs cur).envTf.trapno.toNat = 14 → (s.pageFaultHandler c cur cr2).Sat R U H)
    (hyield : ∀ t, SameTable s { s with ticks := t } →
      (({ s with ticks := t } : Kernel).schedYield c).Sat R U H)
    (hhalt : ∀ t, H { s with ticks := t })
    (hcall : (s.envs cur).envTf.trapno.toNat = 48 →
      ((s.syscall c cur (Call.decode (s.envs cur).envTf.regs)).bind fun r s =>
        .ret () (s.setRax cur r)).Sat R U H)
    (hfatal : ∀ n, (s.envs cur).envTf.trapno.toNat = n → n ≠ 3 → n ≠ 14 → n ≠ 48 →
      ¬(32 ≤ n ∧ n < 48) → (s.envDestroy c cur).Sat R U H) :
    (s.trapDispatch c cur cr2).Sat R U H := by
  unfold trapDispatch
  split
  · exact hret
  · exact hret
  · exact hret
  · exact hret
  · rename_i hn
    exact hfault hn
  · simp only
    split
    · exact hhalt _
    · exact hyield _ ⟨rfl, rfl, rfl, rfl, rfl⟩
  · rename_i hn
    exact hcall hn
  · rename_i h3 h14 _ h48
    split
    · exact hyield s.ticks (.refl s)
    · rename_i hirq
      exact hfatal _ rfl h3 h14 h48 hirq

end Kernel

/-! ## Stores -/

namespace Vm

variable {J : Vm → Prop} {root top : Nat}

section Rule

variable (hJ : ∀ m m' va b, J m → va < top → m.storeByte root va b = some m' → J m')
include hJ

/-- What a store of a byte below `top` keeps, a copy that ends there keeps. -/
theorem storeBuf_rule (bs : List (BitVec 8)) : ∀ va m m', J m → va + bs.length ≤ top →
    m.storeBuf root va bs = some m' → J m' := by
  induction bs with
  | nil =>
    intro va m m' h _ hrun
    exact some.inj hrun ▸ h
  | cons b bs ih =>
    intro va m m' h hle hrun
    rw [List.length_cons] at hle
    rcases bind_eq_some_iff.1 hrun with ⟨m1, hm1, hrest⟩
    exact ih (va + 1) m1 m' (hJ m m1 va b h (by omega) hm1) (by omega) hrest

theorem storeBytes_rule (n : Nat) : ∀ va w m m', J m → va + n ≤ top →
    m.storeBytes root n va w = some m' → J m' := by
  induction n with
  | zero =>
    intro va w m m' h _ hrun
    exact some.inj hrun ▸ h
  | succ n ih =>
    intro va w m m' h hle hrun
    rcases bind_eq_some_iff.1 hrun with ⟨m1, hm1, hrest⟩
    exact ih (va + 1) _ m1 m' (hJ m m1 va _ h (by omega) hm1) (by omega) hrest

theorem storeWords_rule (ws : List (BitVec 64)) : ∀ va m m', J m → va + 8 * ws.length ≤ top →
    m.storeWords root va ws = some m' → J m' := by
  induction ws with
  | nil =>
    intro va m m' h _ hrun
    exact some.inj hrun ▸ h
  | cons w ws ih =>
    intro va m m' h hle hrun
    rw [List.length_cons] at hle
    rcases bind_eq_some_iff.1 hrun with ⟨m1, hm1, hrest⟩
    exact ih (va + 8) m1 m' (storeBytes_rule hJ 8 va w m m1 h (by omega) hm1) (by omega) hrest

end Rule

end Vm

/-- What the stores of `sys_net_try_receive` keep: those of the packet, if there is one,
    and of the four bytes at `len`. -/
theorem Kernel.sysNetTryReceive_rule {s : Kernel} {cur data len : Nat} {J : Vm → Prop}
    {U : Kernel → Prop} (h : J s.vm) (hstore : data < utop →
      (∀ m m' va b, J m → va < utop → m.storeByte (s.curRoot cur) va b = some m' → J m') ∧
        len + 4 ≤ utop ∧ (s.e1000.rcvDd s.e1000.rdt = true → s.e1000.rcvEop s.e1000.rdt = true →
          data + (s.e1000.rcvPkt s.e1000.rdt).length ≤ utop)) :
    (s.sysNetTryReceive cur data len).Sat
      (fun _ s' => ∃ m d, s' = { s with vm := m, e1000 := d } ∧ J m) U (fun _ => True) := by
  unfold sysNetTryReceive
  by_cases hlow : utop ≤ data
  · rw [if_pos hlow]
    exact ⟨s.vm, s.e1000, rfl, h⟩
  · rw [if_neg hlow]
    rcases hstore (by omega) with ⟨hJ, hlen, hpkt⟩
    cases hr : s.e1000Receive cur data with
    | none => trivial
    | some r =>
      rcases e1000Receive_cases hr with ⟨m, d, hm, hs'⟩
      have h1 : J m := by
        rcases hm with rfl | ⟨hdd, heop, hm⟩
        · exact h
        · exact Vm.storeBuf_rule hJ _ data s.vm m h (hpkt hdd heop) hm
      simp only [hs']
      split
      · trivial
      · rename_i m2 hm2
        exact ⟨m2, d, rfl, Vm.storeBytes_rule hJ 4 len _ m m2 h1 hlen hm2⟩

end Jos
