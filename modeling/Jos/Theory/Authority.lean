import Jos.Lib.Chain
import Jos.Theory.Footprint
import Jos.Theory.Isolation
import Jos.Theory.Smp

/-!
# Authority

An environment may change itself and its children, since `envid2env` checks the
parent. All other environments keep what they have when it makes a system call:
their records, and their mappings below `UTOP`, because a call writes only to
the tables of the environment it changes and to free pages.

The calls that are meant to reach other environments or user memory are left
out: `sys_ipc_try_send` and the two network calls.

## Main definitions

* `Kernel.Separate`: The tables of different environments are different pages,
  and none of them is free.
* `Kernel.Linked`, `Kernel.SlotsFree`, `Kernel.PdpsPresent`: The free lists and the roots
  are what they should be.
* `Kernel.Local`: Only one environment was changed.
* `Kernel.Undisturbed`: An environment has kept what it had.

## Theorems

* `Kernel.Local.undisturbed`: What is local to one leaves the others alone.
* `Kernel.syscall_undisturbed`: The calls.
* `Kernel.syscall_disturbs`: Runs to states in which a call reaches further.
-/

namespace Jos

open Option (bind_eq_some_iff map_eq_some_iff some.inj some.injEq)

namespace Kernel

variable {pool : Nat → Prop} {mem0 : Nat → Nat → Pte} {P : Pte → Prop} {e : Nat} {s : Kernel}

/-- The user page tables of different environments share no page, and no free
    page is one of them. -/
structure Separate (s : Kernel) : Prop where
  apart : ∀ a b ra rb p, a < nenv → b < nenv → a ≠ b → s.roots a = some ra → s.roots b = some rb →
    s.vm.IsTable ra p → ¬s.vm.IsTable rb p
  free : ∀ p, p ∈ s.vm.pageFreeList → ∀ e r, e < nenv → s.roots e = some r → ¬s.vm.IsTable r p

/-- How `page_free_list` is kept: a chain of links that ends, through pages, whose numbers
    have 52 bits. -/
structure Linked (m : Vm) : Prop where
  chain : ∃ link head, Lib.Chain link head m.pageFreeList
  pages : ∀ p, p ∈ m.pageFreeList → p < 2 ^ 52

/-- Only free slots are on `env_free_list`. -/
def SlotsFree (s : Kernel) : Prop :=
  ∀ e, e ∈ s.envFreeList → e < nenv ∧ (s.envs e).envStatus = .free

/-- Every address space has the table below the first slot of its root. -/
def PdpsPresent (s : Kernel) : Prop := ∀ e r, e < nenv → s.roots e = some r → s.vm.mem r 0 ≠ 0

/-- The pages that a call for `x` may write: the tables of `x` and the free
    pages. -/
def Writable (s : Kernel) (x q : Nat) : Prop :=
  (∃ r, s.roots x = some r ∧ s.vm.IsTable r q) ∨ q ∈ s.vm.pageFreeList

/-- From `s` to `s'` only `x` was changed. -/
structure Local (s s' : Kernel) (x : Nat) : Prop where
  env : ∀ i, i ≠ x → s'.envs i = s.envs i
  mem : s.vm.Only (s.Writable x) s'.vm

/-- The environment `b` has in `s'` what it had in `s`, but it may have been
    scheduled. -/
structure Undisturbed (s s' : Kernel) (b : Nat) : Prop where
  maps : ∀ r, s.roots b = some r → ∀ va, va < utop → s'.vm.translate r va = s.vm.translate r va
  env : s'.envs b = { s.envs b with envStatus := (s'.envs b).envStatus }
  status : (s'.envs b).envStatus = (s.envs b).envStatus ∨
    (s.envs b).envStatus = .runnable ∧ (s'.envs b).envStatus = .running

section Local

variable {s s' : Kernel} {x b c : Nat}

theorem Undisturbed.refl (s : Kernel) (b : Nat) : Undisturbed s s b :=
  ⟨fun _ _ _ _ => rfl, rfl, .inl rfl⟩

/-- What is local to one environment leaves the others alone. -/
theorem Local.undisturbed (h : Local s s' x) (hsep : s.Separate) (hx : x < nenv) (hbn : b < nenv)
    (hb : b ≠ x) : Undisturbed s s' b := by
  refine ⟨?_, by rw [h.env b hb], .inl (by rw [h.env b hb])⟩
  intro r hr va hva
  refine Vm.translate_of_only h.mem ?_ hva
  intro p hp hw
  rcases hw with ⟨rx, hrx, hpx⟩ | hfree
  · exact hsep.apart b x r rx p hbn hx hb hr hrx hp hpx
  · exact hsep.free p hfree b r hbn hr hp

/-- A change of the record of `x` only. -/
theorem Local.setEnv (s : Kernel) (x : Nat) (v : Env) : Local s (s.setEnv x v) x := by
  refine ⟨?_, .refl _⟩
  intro i hi
  rw [setEnv_envs, Function.update_of_ne hi]

/-- A further change of that record. -/
theorem Local.own (h : Local s s' x) (v : Env) : Local s (s'.setEnv x v) x := by
  refine ⟨?_, h.mem⟩
  intro i hi
  rw [setEnv_envs, Function.update_of_ne hi]
  exact h.env i hi

/-- Running an environment that may run takes nothing from `b`, unless `b` was
    running on this CPU. -/
theorem Undisturbed.envRun (h : Undisturbed s s' b) {j : Nat} (hc : s'.cpuEnv c ≠ some b)
    (hj : (s'.envs j).envStatus = .runnable ∨ (s'.envs j).envStatus = .running) :
    Undisturbed s (s'.envRun c j) b := by
  have henv := envRun_envs s' c j b
  rw [if_neg (fun hx : s'.cpuEnv c = some b ∧ _ => hc hx.1)] at henv
  have hvm := (SameMem.envRun s' c j).vm
  refine ⟨?_, ?_, ?_⟩
  · rw [hvm]
    exact h.maps
  · rw [henv]
    simp only
    rw [h.env]
  · rw [henv]
    simp only
    by_cases hbj : b = j
    · rw [if_pos hbj]
      rw [hbj] at h ⊢
      -- `b` is the one that runs now
      rcases h.status with hst | hst
      · rcases hj with hj | hj
        · exact .inr ⟨by rw [← hst, hj], rfl⟩
        · exact .inl (by rw [← hst, hj])
      · exact .inr ⟨hst.1, rfl⟩
    · rw [if_neg hbj]
      exact h.status

theorem Undisturbed.schedYield {α : Type} (h : Undisturbed s s' b) (hc : s'.cpuEnv c ≠ some b)
    (R : α → Kernel → Prop) :
    (s'.schedYield c).Sat R (fun t => Undisturbed s t b) (fun _ => True) := by
  refine schedYield_rule R ?_ ?_ ?_ trivial
  · intro j hj _ _
    exact h.envRun hc (.inl hj)
  · intro e _ he
    exact h.envRun hc (.inr he)
  · intro hidle
    exact h.envRun hc hidle

end Local

/-! ## The operations -/

section Ops

variable {s : Kernel} {b : Nat}

theorem Linked.ready (h : Linked s.vm) (x : Nat) : s.vm.Ready (s.Writable x) := by
  rcases h.chain with ⟨_, _, hchain⟩
  exact ⟨fun p hp => ⟨.inr hp, h.pages p hp⟩, hchain.nodup⟩

/-- `page_insert` for `e`, perhaps after a page was taken for it. -/
theorem Separate.insert (h : s.Separate) {root p va : Nat} {perm : BitVec 32} (he : e < nenv)
    (hroot : s.roots e = some root) (hva : va < utop) {m : Vm} (hready : m.Ready (s.Writable e))
    (honly : s.vm.Only (s.Writable e) m) (hlist : ∀ q, q ∈ m.pageFreeList → q ∈ s.vm.pageFreeList)
    (hsame : ∀ q i, s.vm.IsTable root q → m.mem q i = s.vm.mem q i) {r : Int} {m' : Vm}
    (hrun : m.pageInsert root p va perm = some (r, m')) : s.vm.Only (s.Writable e) m' := by
  refine honly.trans (m.pageInsert_only hready ?_ hrun)
  refine Vm.pathIn_of_tables hva ?_ hsame
  intro q hq
  exact ⟨.inl ⟨root, hroot, hq⟩, fun hc => h.free q (hlist q hc) e root he hroot hq⟩

/-- `env_free` is local to the environment that goes. -/
theorem PdpsPresent.envFree (h : s.PdpsPresent) (c : Nat) (he : e < nenv) :
    (s.envFree c e).Sat (fun _ s' => Local s s' e ∧ s'.cpuEnv = s.cpuEnv) (fun _ => False)
      (fun _ => True) := by
  unfold Kernel.envFree
  simp only
  split
  · trivial
  · rename_i m hm
    rcases bind_eq_some_iff.1 hm with ⟨root, hroot, hfree⟩
    refine ⟨⟨?_, ?_⟩, rfl⟩
    · intro i hi
      simp only [setEnv_envs, Function.update_of_ne hi]
    · intro q i hq
      refine s.vm.envFree_only (h e root he hroot) hfree q i ?_
      exact fun ht => hq (.inl ⟨root, hroot, ht⟩)

theorem PdpsPresent.envDestroy (h : s.PdpsPresent) (hsep : s.Separate) (c : Nat) (he : e < nenv)
    (hbn : b < nenv) (hb : b ≠ e) :
    (s.envDestroy c e).Sat (fun _ s' => Undisturbed s s' b) (fun s' => Undisturbed s s' b)
      (fun _ => True) := by
  unfold Kernel.envDestroy
  by_cases hrun : (s.envs e).envStatus = .running ∧ s.cpuEnv c ≠ some e
  · rw [if_pos hrun]
    exact (Local.setEnv s e _).undisturbed hsep he hbn hb
  · rw [if_neg hrun]
    refine ((h.envFree c he).mono (fun _ _ hs => hs) (fun _ hf => hf.elim) (fun _ ht => ht)).bind ?_
    intro _ s' hs'
    have hconf := hs'.1.undisturbed hsep he hbn hb
    split
    · have hleft : Undisturbed s (s'.setCpuEnv c none) b := ⟨hconf.maps, hconf.env, hconf.status⟩
      refine hleft.schedYield ?_ _
      rw [setCpuEnv_cpuEnv, Function.update_self]
      simp
    · exact hconf

/-- `sys_exofork` fills a slot that was free. -/
theorem SlotsFree.sysExofork (h : s.SlotsFree) (hlink : Linked s.vm) (hsep : s.Separate) (cur : Nat)
    (hbn : b < nenv) (hb : (s.envs b).envStatus ≠ .free) :
    (s.sysExofork cur).Sat (fun _ s' => Undisturbed s s' b) (fun _ => False) (fun _ => True) := by
  unfold Kernel.sysExofork
  cases hr : s.envAlloc (s.envs cur).envId with
  | none => trivial
  | some x =>
    rcases x with ⟨r, s'⟩
    have hvm : ∀ o m, s.vm.envSetupVm s.bootPml4e = some (o, m) → ∀ e,
        s.vm.Only (s.Writable e) m := fun o m hm e =>
      s.vm.envSetupVm_only (hlink.ready e) hm
    have hlocal : ∀ e rest, s.envFreeList = e :: rest → ∀ t, Local s t e → Undisturbed s t b := by
      intro e rest hlist t ht
      have hslot := h e (hlist ▸ List.mem_cons_self)
      exact ht.undisturbed hsep hslot.1 hbn fun hc => hb (hc ▸ hslot.2)
    rcases envAlloc_cases hr with ⟨⟨err, rfl⟩, hs' | ⟨e, rest, m, hlist, hm, hs'⟩⟩ |
      ⟨e, rest, p, m, rfl, hlist, hm, hs'⟩
    · rw [hs']
      exact .refl s b
    · refine hlocal e rest hlist s' ?_
      rw [hs']
      exact ⟨fun _ _ => rfl, hvm _ m hm e⟩
    · have hnew : Local s s' e := by
        rw [hs']
        refine ⟨?_, hvm _ m hm e⟩
        intro i hi
        simp only [setEnv_envs, Function.update_of_ne hi]
      exact hlocal e rest hlist _ (hnew.own _)

end Ops

/-- The calls that may reach beyond the caller and its children. -/
def Call.reaches : Call → Bool
  | .ipcTrySend .. => true
  | .netTrySend .. => true
  | .netTryReceive .. => true
  | _ => false

/-- Where memory is in order, the tables are separate. -/
theorem MemInv.separate (h : s.MemInv pool mem0 P) : s.Separate := by
  rcases h.wf with ⟨kind, hwf, _⟩
  -- a table is labelled with its environment
  have hlab : ∀ e r p, s.roots e = some r → s.vm.IsTable r p →
      ∃ π, labels kind p = some (e, π) := by
    rintro e r p hr ⟨π, hok, hlen, hp⟩
    exact ⟨π, hwf.tree.label_of_node e hr hok hlen hp⟩
  refine ⟨?_, ?_⟩
  · intro a b ra rb p _ _ hab hra hrb hpa hpb
    rcases hlab a ra p hra hpa with ⟨π, hla⟩
    rcases hlab b rb p hrb hpb with ⟨π', hlb⟩
    rw [hla, some.injEq, Prod.mk.injEq] at hlb
    exact hab hlb.1
  · intro p hp e r _ hr ht
    rcases hlab e r p hr ht with ⟨π, hl⟩
    rw [labels_eq_some, (hwf.free p).1 hp] at hl
    cases hl

theorem MemInv.linked (h : s.MemInv pool mem0 P) : Linked s.vm ∧ s.PdpsPresent := by
  rcases h.wf with ⟨kind, hwf, hpdp⟩
  refine ⟨⟨Lib.exists_chain hwf.nodup, fun p hp => ?_⟩, ?_⟩
  · exact hwf.lt_of_kind (by rw [(hwf.free p).1 hp]; simp)
  · intro e r _ hr
    rcases hpdp e r hr with ⟨q, hq⟩
    have hlq := (labels_eq_some kind q e [0]).2 hq
    rcases hwf.tree.up q e 0 [] hlq with ⟨_, _, t, ht, hne, _⟩
    rw [← hwf.tree.root e t, hr, some.injEq] at ht
    rwa [ht]

/-- A system call of `cur` leaves an environment in use that is neither `cur` nor
    a child of `cur` what it has: its record, its mappings below `UTOP`, and its
    status unless it is scheduled. -/
theorem syscall_undisturbed (s : Kernel) (hsep : s.Separate) (hlink : Linked s.vm)
    (hslots : s.SlotsFree) (hpdp : s.PdpsPresent) (c cur b : Nat) (hcn : cur < nenv)
    (hbn : b < nenv) (hcur : s.cpuEnv c = some cur) (call : Call)
    (hcall : Call.reaches call = false) (hb : b ≠ cur) (hfree : (s.envs b).envStatus ≠ .free)
    (hparent : (s.envs b).envParentId ≠ (s.envs cur).envId) :
    (s.syscall c cur call).Sat (fun _ s' => Undisturbed s s' b) (fun s' => Undisturbed s s' b)
      (fun _ => True) := by
  have hrefl : Undisturbed s s b := .refl s b
  -- whatever the caller may name is in the array and not `b`
  have hother : ∀ envid e, s.envid2env cur envid true = some e → e < nenv ∧ b ≠ e := by
    intro envid e he
    rcases envid2env_cases he with rfl | ⟨hlt, _, hpar⟩
    · exact ⟨hcn, hb⟩
    · exact ⟨hlt, fun hc => hparent (hc ▸ hpar rfl)⟩
  have hlocal : ∀ envid e s', s.envid2env cur envid true = some e → Local s s' e →
      Undisturbed s s' b :=
    fun envid e _ he hl => hl.undisturbed hsep (hother envid e he).1 hbn (hother envid e he).2
  by_cases hsimple : call.simple = true ∧ call.writes = false
  · refine (syscall_simple s c cur hsimple.1).mono ?_ (fun _ hf => hf.elim) (fun _ _ => trivial)
    rintro _ s' ⟨hvm, hsame | ⟨e, v, hst, hsame⟩⟩
    · exact (Local.undisturbed ⟨fun i _ => by rw [hsame.envs], .of_mem (.refl _)
        (by rw [hvm hsimple.2])⟩ hsep hcn hbn hb)
    · have hl : Local s s' e := by
        refine ⟨fun i hi => ?_, .of_mem (.refl _) (by rw [hvm hsimple.2])⟩
        rw [hsame.envs, setEnv_envs, Function.update_of_ne hi]
      cases call with
      | envSetStatus envid status => exact hlocal envid e s' hst.1 hl
      | envSetTrapframe envid tf => exact hlocal envid e s' hst.1 hl
      | envSetPgfaultUpcall envid func => exact hlocal envid e s' hst.1 hl
      | ipcRecv dstva => exact hl.undisturbed hsep (hst.1 ▸ hcn) hbn (hst.1 ▸ hb)
      | ipcTrySend envid value srcva perm => exact absurd hcall (by simp [Call.reaches])
      | _ => exact hst.elim
  · cases call with
    | cputs str len =>
      refine sysCputs_sat ?_ fun _ _ => trivial
      unfold userMemAssert
      split
      · trivial
      · exact hrefl
      · exact hpdp.envDestroy hsep c hcn hbn hb
    | envDestroy envid =>
      simp only [syscall, sysEnvDestroy]
      split
      · exact hrefl
      · rename_i e he
        exact (hpdp.envDestroy hsep c (hother envid e he).1 hbn (hother envid e he).2).bind
          fun _ _ hs => hs
    | pageAlloc envid va perm =>
      refine sysPageAlloc_rule (fun _ _ => hrefl) trivial ?_
      intro e p m root r m' he hva _ ha hroot hins
      rcases s.vm.pageAlloc_only (hlink.ready e) ha with ⟨honly, hready, _, hlist, hsame⟩
      have hpfree : p ∈ s.vm.pageFreeList := hlist ▸ List.mem_cons_self
      have hen := (hother envid e he).1
      -- the page taken is not a table, so the tables are as they were
      have hall := hsep.insert hen hroot (lt_utop_of_badVa hva) hready honly
        (fun q hq => hlist ▸ List.mem_cons_of_mem _ hq)
        (fun q i hq => hsame q i fun hc => hsep.free p hpfree e root hen hroot (hc ▸ hq)) hins
      refine hlocal envid e _ he ⟨fun _ _ => rfl, hall.of_mem ?_⟩
      simp only
      split
      · exact Vm.pageFree_mem _ _
      · rfl
    | pageMap srcenvid srcva dstenvid dstva perm =>
      refine sysPageMap_rule (fun _ _ => hrefl) trivial ?_
      intro src dst p pt root r m _ hdst _ hva _ hroot hins
      exact hlocal dstenvid dst _ hdst ⟨fun _ _ => rfl,
        hsep.insert (hother dstenvid dst hdst).1 hroot (lt_utop_of_badVa hva) (hlink.ready dst)
          (.refl _) (fun _ hq => hq) (fun _ _ _ => rfl) hins⟩
    | pageUnmap envid va =>
      refine sysPageUnmap_rule (fun _ _ => hrefl) trivial ?_
      intro e root m he hva hroot hrem
      refine hlocal envid e _ he ⟨fun _ _ => rfl, fun q i hq => ?_⟩
      exact s.vm.pageRemove_only (lt_utop_of_badVa hva) hrem q i
        fun ht => hq (.inl ⟨root, hroot, ht⟩)
    | exofork =>
      exact (hslots.sysExofork hlink hsep cur hbn hfree).mono (fun _ _ hs => hs)
        (fun _ hx => hx.elim) (fun _ ht => ht)
    | yield =>
      refine hrefl.schedYield ?_ _
      rw [hcur]
      exact fun hc => hb (some.inj hc).symm
    | ipcTrySend envid value srcva perm => exact absurd hcall (by simp [Call.reaches])
    | netTryReceive data len => exact absurd hcall (by simp [Call.reaches])
    | _ => exact absurd ⟨rfl, rfl⟩ hsimple

/-- Two environments were created at boot and the first runs. It maps a page for itself,
    and the second keeps what it has. -/
theorem syscall_undisturbed_pageAlloc : ∃ s : Kernel, s.cpuEnv 0 = some 0 ∧
    (s.envs 1).envStatus = .runnable ∧
    (s.syscall 0 0 (.pageAlloc 0 0x800000 7)).Sat (fun _ s' => Undisturbed s s' 1)
      (fun s' => Undisturbed s s' 1) (fun _ => True) := by
  have hobs : ((Mem.step Mem.start (.create .user 0x800020 [])).bind fun s1 =>
      (Mem.step s1 (.create .user 0x800020 [])).map fun s2 =>
        ((s2.envRun 0 0).cpuEnv 0, ((s2.envRun 0 0).envs 1).envStatus,
          ((s2.envRun 0 0).envs 1).envParentId, ((s2.envRun 0 0).envs 0).envId,
          decide (∀ e ∈ (s2.envRun 0 0).envFreeList,
            e < nenv ∧ ((s2.envRun 0 0).envs e).envStatus = .free))) =
      some (some 0, .runnable, 0, 4096, true) := by
    decide +kernel
  rcases bind_eq_some_iff.1 hobs with ⟨s1, hs1, hobs⟩
  rcases map_eq_some_iff.1 hobs with ⟨s2, hs2, hobs⟩
  simp only [Prod.mk.injEq, decide_eq_true_eq] at hobs
  rcases hobs with ⟨hcpu, hst, hpar, hid, hslots⟩
  have hrun : Lib.Run Mem.step (fun s ev => Mem.Tame s ev ∧ Mem.PermOk (fun _ => True) s ev)
      Mem.start s2 :=
    (Relation.ReflTransGen.refl.tail ⟨.create .user 0x800020 [], ⟨trivial, trivial⟩, hs1⟩).tail
      ⟨.create .user 0x800020 [], ⟨trivial, trivial⟩, hs2⟩
  have hinv := (Mem.run_inv Mem.allows_all Mem.booted_start hrun).congr
    (SameMem.envRun s2 0 0)
  refine ⟨s2.envRun 0 0, hcpu, hst, syscall_undisturbed _ hinv.separate hinv.linked.1 hslots
    hinv.linked.2 0 0 1 (by decide) (by decide) hcpu _ rfl (by decide) ?_ ?_⟩
  · rw [hst]
    simp
  · rw [hpar, hid]
    decide

end Kernel

/-! ## Runs that leave the conditions -/

/-- The tables below those of the list, with their paths. -/
def Vm.nextTables (m : Vm) (l : List (List Nat × Nat)) : List (List Nat × Nat) :=
  l.flatMap fun x => (List.range 512).filterMap fun k =>
    if UserIdx x.1 k ∧ m.mem x.2 k ≠ 0 then some (k :: x.1, ppn (m.mem x.2 k)) else none

/-- The tables at a level of an address space, with their paths. -/
def Vm.tablesAt (m : Vm) (root : Nat) : Nat → List (List Nat × Nat)
  | 0 => [([], root)]
  | n + 1 => m.nextTables (m.tablesAt root n)

theorem Vm.mem_tablesAt {m : Vm} {root : Nat} {π : List Nat} : ∀ {p : Nat},
    Lib.Radix.OkPath UserIdx π → Lib.Radix.node ppn m.mem root π = some p →
      (π, p) ∈ m.tablesAt root π.length := by
  -- by induction on the path: the last step is found below the tables of the level before
  induction π with
  | nil =>
    intro p _ hp
    rw [← some.inj hp]
    exact List.mem_cons_self
  | cons k π ih =>
    intro p hok hp
    rcases bind_eq_some_iff.1 hp with ⟨q, hq, hstep⟩
    refine List.mem_flatMap.2 ⟨(π, q), ih hok.1 hq, List.mem_filterMap.2 ⟨k, ?_, ?_⟩⟩
    · exact List.mem_range.2 (userIdx_lt π k hok.2)
    · rcases Option.ite_none_left_eq_some.1 hstep with ⟨hz, hstep⟩
      rw [some.injEq] at hstep
      rw [if_pos ⟨hok.2, hz⟩, hstep]

/-- The tables of an address space. -/
def Vm.tables (m : Vm) (root : Nat) : List Nat :=
  (List.range 4).flatMap fun n => (m.tablesAt root n).map Prod.snd

theorem Vm.IsTable.mem_tables {m : Vm} {root p : Nat} (h : m.IsTable root p) :
    p ∈ m.tables root := by
  rcases h with ⟨π, hok, hlen, hp⟩
  exact List.mem_flatMap.2 ⟨π.length, List.mem_range.2 hlen,
    List.mem_map.2 ⟨(π, p), Vm.mem_tablesAt hok hp, rfl⟩⟩

namespace Kernel

/-- The tables of all environments. -/
def allTables (s : Kernel) : List (List Nat) :=
  (List.range nenv).filterMap fun e => (s.roots e).map s.vm.tables

/-- `Separate` and `Linked`, computed. -/
def separateTest (s : Kernel) : Bool :=
  decide (s.allTables.flatten.Nodup ∧ (∀ p ∈ s.allTables.flatten, p ∉ s.vm.pageFreeList) ∧
    s.vm.pageFreeList.Nodup ∧ ∀ p ∈ s.vm.pageFreeList, p < 2 ^ 52)

theorem separate_of_test {s : Kernel} (h : s.separateTest = true) :
    s.Separate ∧ Linked s.vm := by
  rw [separateTest, decide_eq_true_eq] at h
  rcases h with ⟨hnodup, hfree, hlist, hpages⟩
  let R : Nat → Nat → Prop := fun a b => ∀ ra rb, s.roots a = some ra → s.roots b = some rb →
    (s.vm.tables ra).Disjoint (s.vm.tables rb)
  have : Std.Symm R := ⟨fun a b h rb ra hrb hra => (h ra rb hra hrb).symm⟩
  have hpair : (List.range nenv).Pairwise R := by
    have hdisj := (List.nodup_flatten.1 hnodup).2
    rw [allTables, List.pairwise_filterMap] at hdisj
    refine hdisj.imp fun h ra rb hra hrb => ?_
    exact h _ (by rw [hra]; rfl) _ (by rw [hrb]; rfl)
  refine ⟨⟨?_, ?_⟩, Lib.exists_chain hlist, hpages⟩
  · intro a b ra rb p ha hb hab hra hrb hpa hpb
    exact hpair.forall (List.mem_range.2 ha) (List.mem_range.2 hb) hab ra rb hra hrb
      hpa.mem_tables hpb.mem_tables
  · intro p hp e r he hr ht
    refine hfree p (List.mem_flatten.2 ⟨_, List.mem_filterMap.2 ⟨e, List.mem_range.2 he, ?_⟩,
      ht.mem_tables⟩) hp
    rw [hr]
    rfl

/-- The machine: environments are created and programs store, as in `Mem.step`, and the
    CPUs enter the kernel. -/
def machine (s : Kernel) : Mem.Event ⊕ Event → Option Kernel
  | .inl (.call _ _ _) => none
  | .inl ev => Mem.step s ev
  | .inr ev => s.step ev

/-- Two environments are created; the first forks, makes the child runnable, and destroys
    it twice while the second CPU runs it; the child, which is free now, sets its own
    status. -/
def listedEvents : List (Mem.Event ⊕ Event) :=
  [.inl (.create .user 0x800020 []), .inl (.create .user 0x800020 []), .inr (.start 0),
    .inr (.trap 0 (callFrame 7 0 0) 0), .inr (.trap 0 (callFrame 8 0x1002 2) 0), .inr (.start 1),
    .inr (.trap 0 (callFrame 3 0x1002 0) 0), .inr (.trap 0 (callFrame 3 0x1002 0) 0),
    .inr (.trap 1 (callFrame 8 0 4) 0)]

/-- Three environments are created; the third maps the root of the first, by the address in
    `perm`, erases its first entry, maps page 0, and stores an entry for the directory of
    the second there. -/
def erasedEvents : List (Mem.Event ⊕ Event) :=
  [.inl (.create .user 0x800020 []), .inl (.create .user 0x800020 []),
    .inl (.create .user 0x800020 []), .inr (.start 0), .inr (.start 1),
    .inr (.trap 0 (Mem.remapFrame Mem.emptyva Mem.lowva 0x3b007) 0), .inl (.store 2 Mem.lowva 0),
    .inl (.store 2 (Mem.lowva + 1) 0), .inl (.store 2 (Mem.lowva + 2) 0),
    .inr (.trap 0 (Mem.remapFrame Mem.emptyva (Mem.lowva - pgSize) 7) 0),
    .inl (.store 2 (Mem.lowva - pgSize + 24) 1), .inl (.store 2 (Mem.lowva - pgSize + 25) 0x40),
    .inl (.store 2 (Mem.lowva - pgSize + 26) 3)]

/-- Each of the two conditions is needed. In the first run the free child is on
    `env_free_list` and in use again, and `sys_exofork` takes its slot. In the second the
    first environment has no table below its root; when it destroys itself, `env_free`
    takes page 0 for that table and erases the directory of the second environment. -/
theorem syscall_disturbs :
    (∃ s n s', Lib.Run machine (fun _ _ => True) Mem.start s ∧ s.Separate ∧ Linked s.vm ∧
      s.PdpsPresent ∧ s.cpuEnv 1 = some 1 ∧ (s.envs 2).envStatus ≠ .free ∧
      (s.envs 2).envParentId ≠ (s.envs 1).envId ∧ s.syscall 1 1 .exofork = .ret n s' ∧
      ¬Undisturbed s s' 2) ∧
    ∃ s s', Lib.Run machine (fun _ _ => True) Mem.start s ∧ s.Separate ∧ Linked s.vm ∧
      s.SlotsFree ∧ s.cpuEnv 1 = some 0 ∧ (s.envs 1).envStatus ≠ .free ∧
      (s.envs 1).envParentId ≠ (s.envs 0).envId ∧ s.syscall 1 0 (.envDestroy 0) = .user s' ∧
      ¬Undisturbed s s' 1 := by
  refine ⟨?_, ?_⟩
  · have hobs : (Lib.runEvents machine Mem.start listedEvents).bind (fun s =>
        (s.syscall 1 1 .exofork).result?.map fun x =>
          (s.separateTest, decide ((∀ e, e < nenv → ∀ r ∈ s.roots e, s.vm.mem r 0 ≠ 0) ∧
            s.cpuEnv 1 = some 1 ∧ (s.envs 2).envStatus ≠ .free ∧
            (s.envs 2).envParentId ≠ (s.envs 1).envId),
            decide ((x.2.envs 2).envId = (s.envs 2).envId))) = some (true, true, false) := by
      decide +kernel
    rcases bind_eq_some_iff.1 hobs with ⟨s, hs, hobs⟩
    rcases map_eq_some_iff.1 hobs with ⟨⟨n, s'⟩, hcall, hobs⟩
    rw [Lib.Flow.result?_eq_some] at hcall
    simp only [Prod.mk.injEq, decide_eq_true_eq, decide_eq_false_iff_not] at hobs
    rcases hobs with ⟨htest, ⟨hpdp, hcpu, hlive, hpar⟩, hid⟩
    refine ⟨s, n, s', Lib.Run.of_runEvents _ _ hs, (separate_of_test htest).1,
      (separate_of_test htest).2, fun e r he hr => hpdp e he r hr, hcpu, hlive, hpar, hcall,
      fun h => hid ?_⟩
    rw [h.env]
  · have hobs : (Lib.runEvents machine Mem.start erasedEvents).bind (fun s =>
        (s.syscall 1 0 (.envDestroy 0)).exit?.bind fun s' => (s.roots 1).map fun r =>
          (s.separateTest, decide ((∀ e ∈ s.envFreeList, e < nenv ∧ (s.envs e).envStatus = .free) ∧
            s.cpuEnv 1 = some 0 ∧ (s.envs 1).envStatus ≠ .free ∧
            (s.envs 1).envParentId ≠ (s.envs 0).envId),
            decide (s'.vm.translate r Mem.stackva = s.vm.translate r Mem.stackva))) =
        some (true, true, false) := by
      decide +kernel
    rcases bind_eq_some_iff.1 hobs with ⟨s, hs, hobs⟩
    rcases bind_eq_some_iff.1 hobs with ⟨s', hcall, hobs⟩
    rcases map_eq_some_iff.1 hobs with ⟨r, hr, hobs⟩
    rw [Lib.Flow.exit?_eq_some] at hcall
    simp only [Prod.mk.injEq, decide_eq_true_eq, decide_eq_false_iff_not] at hobs
    rcases hobs with ⟨htest, ⟨hslots, hcpu, hlive, hpar⟩, htr⟩
    exact ⟨s, s', Lib.Run.of_runEvents _ _ hs, (separate_of_test htest).1,
      (separate_of_test htest).2, hslots, hcpu, hlive, hpar, hcall,
      fun h => htr (h.maps r hr _ (by decide))⟩

end Kernel

end Jos
