import Jos.Lib.Flow
import Jos.Theory.Calls
import Jos.Theory.EnvFree

/-!
# The Page Calls

What `sys_page_alloc`, `sys_page_map`, `sys_page_unmap`, `sys_exofork`,
`sys_env_destroy`, `sys_ipc_recv` and `sys_ipc_try_send` do to physical memory
and to the maps of the environments. The calls check their arguments less than
their comments say, so the invariant of the pages survives a call only under a
condition, `Tame`.

## Main definitions

* `Kernel.maps`: The entry for every page of every environment.
* `Kernel.MemInv`: Pages, counts and maps are in order.
* `Kernel.mapping`, `Kernel.Mapped`: The mapping a call asks for, and its effect.
* `Kernel.Tame`: The calls that keep the invariant.

## Theorems

* `sysPageMap_step`, `sysIpcTrySend_step`: The calls that map a page.
* `sysPageAlloc_inv`, …, `syscall_inv`: One call.
* `trap_rule`, `trap_inv`: A trap with one of the calls.
* `Wf.storeByte`, `Wf.markAccess`: What user programs and the hardware do.
-/

namespace Jos

open Lib.Radix (OkPath)
open Option (bind_eq_some_iff some.injEq)
open Function (update update_self update_of_ne)

variable {s' : Kernel} {α : Type} {cur e va : Nat} {call : Call}

/-- The calls this system is about. -/
def Call.onPages : Call → Bool
  | .envDestroy _ | .pageAlloc _ _ _ | .pageMap _ _ _ _ _ | .pageUnmap _ _ | .exofork
  | .ipcTrySend _ _ _ _ | .ipcRecv _ => true
  | _ => false

/-- Every address space has its directory pointers. -/
def HavePdp (roots : Nat → Option Nat) (kind : Nat → Kind) : Prop :=
  ∀ e r, roots e = some r → ∃ q, kind q = .table e [0]

theorem HavePdp.stay {roots : Nat → Option Nat} {kind kind' : Nat → Kind} (h : HavePdp roots kind)
    (hstay : TablesStay kind kind') : HavePdp roots kind' := by
  intro e r hr
  rcases h e r hr with ⟨q, hq⟩
  exact ⟨q, hstay q e _ hq⟩

/-! ## Accesses of user programs -/

namespace Vm

/-- The hardware notes in the entry for `va` that the page was accessed, and
    written if `dirty`. -/
def markAccess (m : Vm) (root va : Nat) (dirty : Bool) : Option Vm :=
  (Lib.Radix.node ppn m.mem root (ptPath va)).bind fun pt =>
    let w := m.mem pt (ptx va)
    if hasFlags w pteP then
      some (m.setEntry pt (ptx va) (w ||| (if dirty then pteA ||| pteD else pteA)))
    else none

variable {root : Nat}

namespace Wf

variable {pool : Nat → Prop} {mem0 : Nat → Nat → Pte} {roots : Nat → Option Nat} {kind : Nat → Kind}
  {m m' : Vm}

section

variable (h : m.Wf pool mem0 roots kind none) (hroot : roots e = some root) (hva : va < utop)
include h hroot hva

/-- What an address below `UTOP` is translated to is a user page. -/
theorem kind_of_translate {w : Pte} {b1 b2 : Bool}
    (htr : m.translate root va = some (w, b1, b2)) : kind (ppn w) = .user := by
  rcases m.translate_node htr with ⟨pt, hn, hw, hp⟩
  rcases h.leafMap_of_node hroot hva hn with ⟨_, hleaf, _⟩
  have hne : m.leafMap roots (e, va / pgSize) ≠ 0 := by
    rw [hleaf, ← hw]
    exact ne_zero_of_present hp
  have huser := h.kind_of_leafMap hva hne
  rwa [hleaf, ← hw] at huser

/-- A store below `UTOP` lands in a user page. -/
theorem storeByte {b : BitVec 8} (hrun : m.storeByte root va b = some m') :
    m'.Wf pool mem0 roots kind none ∧ m'.leafMap roots = m.leafMap roots := by
  unfold Vm.storeByte at hrun
  rcases bind_eq_some_iff.1 hrun with ⟨⟨w, b1, b2⟩, htr, hrest⟩
  have huser := h.kind_of_translate hroot hva htr
  simp only at hrest
  split at hrest
  · rw [some.injEq] at hrest
    have hmem : ∀ q i, kind q = .kernel ∨ (∃ e π, kind q = .table e π ∧ UserIdx π i) →
        m'.mem q i = m.mem q i := by
      intro q i hq
      rw [← hrest, setEntry_mem, Lib.Radix.setSlot_of_ne _ _ (.inl ?_)]
      intro hc
      rw [hc, huser] at hq
      rcases hq with hq | ⟨_, _, hq, _⟩ <;> cases hq
    have hm' : m' = { m with mem := m'.mem } := by
      rw [← hrest]
      rfl
    refine ⟨?_, leafMap_congr ?_⟩
    · rw [hm']
      exact h.scribble hmem
    · intro e' π' hok hlen
      exact h.entry_scribble hmem e' π' hok (by omega)
  · cases hrest

/-- The hardware's notes change no page and no count. -/
theorem markAccess {dirty : Bool} (hrun : m.markAccess root va dirty = some m') :
    m'.Wf pool mem0 roots kind none ∧ m'.leafMap roots = update (m.leafMap roots)
      (e, va / pgSize) (m.leafMap roots (e, va / pgSize) |||
        if dirty then pteA ||| pteD else pteA) := by
  unfold Vm.markAccess at hrun
  rcases bind_eq_some_iff.1 hrun with ⟨pt, hn, hrest⟩
  rcases h.leafMap_of_node hroot hva hn with ⟨hpt, hleaf, _⟩
  simp only at hrest
  rcases Option.ite_none_right_eq_some.1 hrest with ⟨hp, hrest⟩
  rw [some.injEq] at hrest
  have hok := leafPath_ok hva
  have hne := ne_zero_of_present hp
  have huser := h.kind_of_leafMap hva (by rwa [hleaf])
  rw [hleaf] at huser
  have hlt : (if dirty = true then pteA ||| pteD else pteA).toNat < 4096 := by
    cases dirty <;> decide
  have hptr := ppn_or (m.mem pt (ptx va)) hlt
  have hpres := hasFlags_or (if dirty = true then pteA ||| pteD else pteA) hp
  rw [← hrest, hleaf]
  refine ⟨h.setLeaf none (ptPath va) _ hpt rfl hok.2 ?_ ?_, ?_⟩
  · intro _
    rw [hptr]
    exact ⟨hpres, huser⟩
  · intro p
    rw [target_of_present hpres, target_of_present hp, hptr]
  · refine leafMap_update hva ?_
    intro e' π' hok' hlen
    exact h.entry_setLeaf (ptx va) _ hpt rfl e' π' hok' (by omega)

end

end Wf
end Vm

namespace Kernel

/-- The roots of the address spaces. -/
def roots (s : Kernel) : Nat → Option Nat := fun e => (s.envs e).envPml4e

/-- What user programs may do with their pages: the map of every environment. -/
def maps (s : Kernel) : Nat × Nat → Pte := s.vm.leafMap s.roots

/-- Memory, the address spaces and the list of free slots are the same. -/
structure SameMem (s s' : Kernel) : Prop where
  vm : s'.vm = s.vm
  root : ∀ e, (s'.envs e).envPml4e = (s.envs e).envPml4e
  cr3 : ∀ e, (s'.envs e).envCr3 = (s.envs e).envCr3
  list : s'.envFreeList = s.envFreeList
  boot : s'.bootPml4e = s.bootPml4e

namespace SameMem

variable {s : Kernel}

theorem roots (h : s.SameMem s') : s'.roots = s.roots := funext h.root

theorem maps {s : Kernel} (h : s.SameMem s') : s'.maps = s.maps := by
  rw [Kernel.maps, Kernel.maps, h.vm, h.roots]

theorem onPml4e (h : s.SameMem s') (e : Nat) (op : Nat → Option α) :
    s'.onPml4e e op = s.onPml4e e op := by
  rw [Kernel.onPml4e, h.root, Kernel.onPml4e]

theorem refl (s : Kernel) : s.SameMem s := ⟨rfl, fun _ => rfl, fun _ => rfl, rfl, rfl⟩

theorem trans {s'' : Kernel} (h : s.SameMem s') (h' : s'.SameMem s'') : s.SameMem s'' :=
  ⟨h'.vm.trans h.vm, fun e => (h'.root e).trans (h.root e), fun e => (h'.cr3 e).trans (h.cr3 e),
    h'.list.trans h.list, h'.boot.trans h.boot⟩

theorem of_table (h : SameTable s s') (hvm : s'.vm = s.vm) : s.SameMem s' :=
  ⟨hvm, fun e => by rw [h.envs], fun e => by rw [h.envs], h.list, h.boot⟩

theorem setVm (h : s.SameMem s') (m : Vm) :
    ({ s with vm := m } : Kernel).SameMem { s' with vm := m } :=
  ⟨rfl, h.root, h.cr3, h.list, h.boot⟩

theorem setCpuEnv (s : Kernel) (c : Nat) (o : Option Nat) : s.SameMem (s.setCpuEnv c o) :=
  ⟨rfl, fun _ => rfl, fun _ => rfl, rfl, rfl⟩

theorem setEnv (v : Env) (hroot : v.envPml4e = (s.envs e).envPml4e)
    (hcr3 : v.envCr3 = (s.envs e).envCr3) : s.SameMem (s.setEnv e v) := by
  refine ⟨rfl, ?_, ?_, rfl, rfl⟩
  · intro i
    by_cases hi : i = e
    · rw [hi, setEnv_envs, update_self, hroot]
    · rw [setEnv_envs, update_of_ne hi]
  · intro i
    by_cases hi : i = e
    · rw [hi, setEnv_envs, update_self, hcr3]
    · rw [setEnv_envs, update_of_ne hi]

theorem envRun (s : Kernel) (c e : Nat) : s.SameMem (s.envRun c e) := by
  refine ⟨(envRun_frame s c e).1, ?_, ?_, (envRun_frame s c e).2.1, (envRun_frame s c e).2.2.2⟩
  · intro i; rw [envRun_envs]
  · intro i; rw [envRun_envs]

/-- The scheduler leaves memory alone. -/
theorem schedYield (s : Kernel) (c : Nat) (R : α → Kernel → Prop) :
    (s.schedYield c).Sat R (SameMem s) (fun _ => True) :=
  schedYield_rule R (fun j _ _ _ => envRun s c j) (fun e _ _ => envRun s c e)
    (fun _ => envRun s c c) trivial

end SameMem

/-- Memory is in order: every page has one use, the counts are right, every
    address space has its directory pointers, the free slots of the table have
    none, and every entry of every map satisfies `P`. -/
structure MemInv (pool : Nat → Prop) (mem0 : Nat → Nat → Pte) (P : Pte → Prop) (s : Kernel) :
    Prop where
  wf : ∃ kind, s.vm.Wf pool mem0 s.roots kind none ∧ HavePdp s.roots kind
  cr3 : ∀ e r, s.roots e = some r → (s.envs e).envCr3 = r
  freeNodup : s.envFreeList.Nodup
  freeList : ∀ e, e ∈ s.envFreeList → s.roots e = none ∧ e < nenv
  boot : BootTables pool mem0 s.bootPml4e
  leaves : ∀ x, P (s.maps x)

variable {m : Vm}

namespace MemInv

variable {pool : Nat → Prop} {mem0 : Nat → Nat → Pte} {P : Pte → Prop} {s : Kernel}
  (h : s.MemInv pool mem0 P)
include h

theorem congr (hsame : s.SameMem s') :
    s'.MemInv pool mem0 P := by
  refine ⟨?_, ?_, ?_, ?_, ?_, ?_⟩
  · rw [hsame.vm, hsame.roots]; exact h.wf
  · intro e r hr
    rw [hsame.cr3]
    rw [hsame.roots] at hr
    exact h.cr3 e r hr
  · rw [hsame.list]; exact h.freeNodup
  · rw [hsame.list, hsame.roots]; exact h.freeList
  · rw [hsame.boot]; exact h.boot
  · rw [hsame.maps]; exact h.leaves

/-- The fields of a slot besides its address space do not matter. -/
theorem setEnv (v : Env) (hroot : v.envPml4e = (s.envs e).envPml4e)
    (hcr3 : v.envCr3 = (s.envs e).envCr3) : (s.setEnv e v).MemInv pool mem0 P :=
  h.congr (.setEnv v hroot hcr3)

theorem schedYield (c : Nat) (R : α → Kernel → Prop) :
    (s.schedYield c).Sat R (MemInv pool mem0 P) (fun _ => True) :=
  (SameMem.schedYield s c R).mono (fun _ _ hr => hr) (fun _ hs => h.congr hs) (fun _ ht => ht)

/-- Memory changes with the roots left alone. -/
theorem setVm (hwf : ∃ kind, m.Wf pool mem0 s.roots kind none ∧ HavePdp s.roots kind)
    (hP : ∀ x, P (m.leafMap s.roots x)) : ({ s with vm := m } : Kernel).MemInv pool mem0 P :=
  ⟨hwf, h.cr3, h.freeNodup, h.freeList, h.boot, hP⟩

end MemInv

/-- A page of one address space that is to be mapped in another. -/
structure Mapping where
  src : Nat
  srcva : Nat
  dst : Nat
  dstva : Nat
  perm : BitVec 32

/-- The mapping that a call asks for, if its arguments pass the checks. -/
def mapping (s : Kernel) (cur : Nat) : Call → Option Mapping
  | .pageMap srcenvid srcva dstenvid dstva perm =>
    match s.envid2env cur srcenvid true, s.envid2env cur dstenvid true with
    | some src, some dst =>
      if badVa srcva || badVa dstva then none else some ⟨src, srcva, dst, dstva, perm⟩
    | _, _ => none
  | .ipcTrySend envid _ srcva perm =>
    match s.envid2env cur envid false with
    | some dst =>
      if (s.envs dst).envIpcRecving = true ∧ srcva < utop then
        some ⟨cur, srcva, dst, (s.envs dst).envIpcDstva, perm⟩
      else none
    | none => none
  | _ => none

/-- The entry at the source of a mapping, and the slot for its destination. -/
def Mapping.source (g : Mapping) (s : Kernel) : Pte := s.maps (g.src, g.srcva / pgSize)

def Mapping.dest (g : Mapping) : Nat × Nat := (g.dst, g.dstva / pgSize)

/-- The mapping is sound: it goes below `UTOP`, its flags are flags, the source
    is mapped or has no page table, and the reference count has room. -/
structure CanMap (s : Kernel) (g : Mapping) : Prop where
  low : g.dstva < utop
  flags : g.perm.toNat < 4096
  mapped : g.source s ≠ 0 ∨ Lib.Radix.entry ppn s.roots s.vm.mem (g.src, ptPath g.srcva) = 0
  room : s.vm.ppRef (ppn (g.source s)) ≠ 65535 ∨ ppn (s.maps g.dest) = ppn (g.source s)

instance (s : Kernel) (g : Mapping) : Decidable (s.CanMap g) :=
  decidable_of_iff (g.dstva < utop ∧ g.perm.toNat < 4096 ∧
    (g.source s ≠ 0 ∨ Lib.Radix.entry ppn s.roots s.vm.mem (g.src, ptPath g.srcva) = 0) ∧
    (s.vm.ppRef (ppn (g.source s)) ≠ 65535 ∨ ppn (s.maps g.dest) = ppn (g.source s)))
    ⟨fun h => ⟨h.1, h.2.1, h.2.2.1, h.2.2.2⟩, fun h => ⟨h.low, h.flags, h.mapped, h.room⟩⟩

/-- What the mapping does if there is memory for it. -/
def Mapped (s : Kernel) (g : Mapping) (s' : Kernel) : Prop :=
  s'.maps = update s.maps g.dest (Vm.insertedEntry (ppn (g.source s)) g.perm)

/-- The mapping of a call that comes as far as `page_insert`, since there is a page at
    its source. -/
def inserting (s : Kernel) (cur : Nat) (call : Call) : Option Mapping :=
  (s.mapping cur call).filter fun g =>
    (s.onPml4e g.src fun root => s.vm.pageLookup root g.srcva).any Option.isSome

/-- The call keeps the counts right: what it maps can be mapped, it does not unmap an
    empty slot, what it frees is freed completely, and a received packet goes to user
    memory. -/
def Tame (s : Kernel) (cur : Nat) (call : Call) : Prop :=
  (∀ g ∈ s.inserting cur call, s.CanMap g) ∧
  match call with
  | .cputs str len => s.userMemCheck cur str len 4 = some false → s.vm.TailFree s.roots cur
  | .pageUnmap envid va => ∀ e, s.envid2env cur envid true = some e → badVa va = false →
      s.maps (e, va / pgSize) ≠ 0 ∨ Lib.Radix.entry ppn s.roots s.vm.mem (e, ptPath va) = 0
  | .envDestroy envid => ∀ e, s.envid2env cur envid true = some e →
      ¬((s.envs e).envStatus = .running ∧ e ≠ cur) → s.vm.TailFree s.roots e
  | .netTryReceive data len => data < utop → (s.roots cur).isSome ∧ len + 4 ≤ utop ∧
      (s.e1000.rcvDd s.e1000.rdt = true → s.e1000.rcvEop s.e1000.rdt = true →
        data + (s.e1000.rcvPkt s.e1000.rdt).length ≤ utop)
  | _ => True

section Calls

variable {pool : Nat → Prop} {mem0 : Nat → Nat → Pte} {P : Pte → Prop} {s : Kernel}
  {perm : BitVec 32} {type : EnvType} {entry : BitVec 64} {segs : List (Nat × Nat)} {c : Nat}

theorem perm_lt (h : perm &&& ~~~0xE07 = 0) : perm.toNat < 4096 := by
  refine Nat.lt_pow_two_of_testBit (n := 12) perm.toNat ?_
  intro i hi
  cases hbit : perm.toNat.testBit i with
  | false => rfl
  | true =>
    -- a flag of the mask has a number below 12
    have hmask := (and_not_eq_zero_iff perm 0xE07).1 h i hbit
    have hall : ∀ j : Fin 32, (0xE07 : BitVec 32).getLsbD j = true → j.val < 12 := by decide
    exact absurd (hall ⟨i, BitVec.lt_of_getLsbD hmask⟩ hmask) (by simp only; omega)

theorem sysPageAlloc_inv (h : s.MemInv pool mem0 P) (cur : Nat) (envid : BitVec 32) (va : Nat)
    (hnew : ∀ pp, perm &&& ~~~0xE07 = 0 → P (Vm.insertedEntry pp perm)) :
    (s.sysPageAlloc cur envid va perm).Ensures (MemInv pool mem0 P) := by
  refine sysPageAlloc_rule (fun _ _ => h) trivial ?_
  intro e p m root r m' _ hva hperm ha hroot hins
  rcases h.wf with ⟨kind, hwf, hpdp⟩
  rcases hwf.allocInsert P true perm hroot (lt_utop_of_badVa hva) (perm_lt hperm) h.leaves
    (fun pp => hnew pp hperm) p m ha r m' hins with ⟨kind', hwf', hstay, hP', hlost⟩
  by_cases hr : r ≠ 0
  · -- there was no memory for a table, so the page goes back
    simp only [if_pos hr]
    have hstay' := @TablesStay.update kind' p .free (by rw [hlost hr]; simp)
    refine h.setVm ⟨_, hwf'.release (hlost hr), (hpdp.stay hstay).stay hstay'⟩ ?_
    intro x
    unfold Vm.leafMap
    rw [Vm.pageFree_mem]
    exact hP' x
  · simp only [if_neg hr]
    exact h.setVm ⟨kind', hwf', hpdp.stay hstay⟩ hP'

/-- A page of one address space is mapped in another. -/
theorem mapPage_inv (h : s.MemInv pool mem0 P) {g : Mapping} (hsrc : g.srcva < utop)
    (hcan : s.CanMap g) (hnew : ∀ pp, P (Vm.insertedEntry pp g.perm)) {p pt : Nat}
    (hlook : (s.onPml4e g.src fun root => s.vm.pageLookup root g.srcva) = some (some (p, pt)))
    {r : Int}
    (hins : (s.onPml4e g.dst fun root => s.vm.pageInsert root p g.dstva g.perm) = some (r, m)) :
    ({ s with vm := m } : Kernel).MemInv pool mem0 P ∧
      ((r = Vm.eNoMem ∧ ({ s with vm := m } : Kernel).maps = s.maps) ∨
        (r = 0 ∧ s.Mapped g { s with vm := m })) := by
  rcases h.wf with ⟨kind, hwf, hpdp⟩
  rcases bind_eq_some_iff.1 hlook with ⟨roota, hroota, hlook⟩
  rcases bind_eq_some_iff.1 hins with ⟨rootb, hrootb, hins⟩
  rcases s.vm.pageLookup_cases hlook with ⟨_, hc⟩ | ⟨pt', hn, _, hp⟩
  · cases hc
  · rcases hwf.leafMap_of_node hroota hsrc hn with ⟨_, hleaf, htable⟩
    rw [some.injEq, Prod.mk.injEq, ← hleaf] at hp
    -- the page table exists, so the source entry is not empty
    have huser := hwf.kind_of_leafMap hsrc (hcan.mapped.resolve_right htable)
    rw [← hp.1] at huser
    have hroom := hcan.room
    unfold Mapping.source maps at hroom
    rw [← hp.1] at hroom
    rcases hwf.pageInsert hrootb hcan.low (.inl huser) hcan.flags
      hroom hins with ⟨kind', hwf', _, _, hstay, ⟨hr, hmap, _⟩ | ⟨hr, hmap⟩⟩
    · refine ⟨h.setVm ⟨kind', hwf', hpdp.stay hstay⟩ ?_, .inl ⟨hr, hmap⟩⟩
      rw [hmap]
      exact h.leaves
    · refine ⟨h.setVm ⟨kind', hwf', hpdp.stay hstay⟩ ?_, .inr ⟨hr, ?_⟩⟩
      · intro x
        rw [hmap]
        by_cases hx : x = (g.dst, g.dstva / pgSize)
        · rw [hx, update_self]; exact hnew p
        · rw [update_of_ne hx]; exact h.leaves x
      · have hsource : p = ppn (g.source s) := hp.1
        rwa [Mapped, ← hsource]

/-- A call that may map a page either leaves every map alone or does what it
    asks for. -/
def MapEffect (s : Kernel) (cur : Nat) (call : Call) (s' : Kernel) : Prop :=
  s'.maps = s.maps ∨ ∃ g ∈ s.inserting cur call, s.Mapped g s'

theorem MapEffect.congr {t t' : Kernel} (h : s.MapEffect cur call t) (hsame : t.SameMem t') :
    s.MapEffect cur call t' := by
  unfold MapEffect Mapped at h ⊢
  rwa [hsame.maps]

/-- What `P` must allow for a call: the entries that it stores with the caller's
    flags. -/
def PermOk (P : Pte → Prop) (s : Kernel) (cur : Nat) (call : Call) : Prop :=
  ∀ g ∈ s.inserting cur call, ∀ pp, P (Vm.insertedEntry pp g.perm)

/-- What a call that maps a page does: nothing to memory, or it inserts the page it
    finds at the source. -/
def MapStep (s : Kernel) (cur : Nat) (call : Call) (n : Int) (s' : Kernel) : Prop :=
  (s.SameMem s' ∧ (s.mapping cur call = none ∨ n ≠ 0)) ∨
  ∃ g p pt r m, s.mapping cur call = some g ∧ g.srcva < utop ∧
    (s.onPml4e g.src fun root => s.vm.pageLookup root g.srcva) = some (some (p, pt)) ∧
    (s.onPml4e g.dst fun root => s.vm.pageInsert root p g.dstva g.perm) = some (r, m) ∧
    (n = 0 ↔ r = 0) ∧ ({ s with vm := m } : Kernel).SameMem s'

theorem sysPageMap_step (s : Kernel) (cur : Nat) (srcenvid : BitVec 32) (srcva : Nat)
    (dstenvid : BitVec 32) (dstva : Nat) (perm : BitVec 32) :
    (s.sysPageMap cur srcenvid srcva dstenvid dstva perm).Sat
      (s.MapStep cur (.pageMap srcenvid srcva dstenvid dstva perm)) (fun _ => False)
      (fun _ => True) := by
  refine sysPageMap_rule (fun _ hn => .inl ⟨.refl s, .inr hn⟩) trivial ?_
  intro src dst p pt root r m hsrc hdst hlow hlow' hlook hroot hins
  have hg : s.mapping cur (.pageMap srcenvid srcva dstenvid dstva perm) =
      some ⟨src, srcva, dst, dstva, perm⟩ := by
    simp [mapping, hsrc, hdst, hlow, hlow']
  refine .inr ⟨_, p, pt, r, m, hg, lt_utop_of_badVa hlow, hlook,
    bind_eq_some_iff.2 ⟨root, hroot, hins⟩, ?_, .refl _⟩
  by_cases hr : r = 0
  · simp [hr]
  · simp [hr]

theorem sysIpcTrySend_step (s : Kernel) (cur : Nat) (envid value : BitVec 32) (srcva : Nat)
    (perm : BitVec 32) :
    (s.sysIpcTrySend cur envid value srcva perm).Sat
      (s.MapStep cur (.ipcTrySend envid value srcva perm)) (fun _ => False) (fun _ => True) := by
  unfold sysIpcTrySend
  cases hb : s.envid2env cur envid false with
  | none => exact .inl ⟨.refl s, .inr (by decide)⟩
  | some b =>
    simp only
    by_cases hrecv : (s.envs b).envIpcRecving = false
    · rw [if_pos hrecv]
      exact .inl ⟨.refl s, .inr (by decide)⟩
    · rw [if_neg hrecv]
      rw [Bool.not_eq_false] at hrecv
      -- the message is stored before the page is looked at
      have hsame : s.SameMem (s.setEnv b { s.envs b with
        envIpcRecving := false, envIpcFrom := (s.envs cur).envId, envIpcValue := value }) :=
        .setEnv _ rfl rfl
      have hdst : ((s.setEnv b { s.envs b with
          envIpcRecving := false, envIpcFrom := (s.envs cur).envId,
          envIpcValue := value }).envs b).envIpcDstva = (s.envs b).envIpcDstva := by
        rw [setEnv_envs, update_self]
      generalize s.setEnv b { s.envs b with
        envIpcRecving := false, envIpcFrom := (s.envs cur).envId, envIpcValue := value } = s1
        at hsame hdst ⊢
      by_cases hsrc : srcva < utop
      · rw [if_pos hsrc]
        simp only [hdst, hsame.vm, hsame.onPml4e]
        have hg : s.mapping cur (.ipcTrySend envid value srcva perm) =
            some ⟨cur, srcva, b, (s.envs b).envIpcDstva, perm⟩ := by
          simp only [mapping, hb, hrecv, hsrc, and_self, if_true]
        cases hlook : s.onPml4e cur fun root => s.vm.pageLookup root srcva with
        | none => trivial
        | some o =>
          cases o with
          | none => exact .inl ⟨hsame, .inr (by decide)⟩
          | some x =>
            simp only
            cases hins : s.onPml4e b fun root =>
                s.vm.pageInsert root x.1 (s.envs b).envIpcDstva perm with
            | none => trivial
            | some r =>
              simp only
              by_cases hr : r.1 = 0
              · rw [if_neg (not_not.2 hr)]
                refine .inr ⟨_, x.1, x.2, r.1, r.2, hg, hsrc, hlook, hins, by simp [hr],
                  ?_⟩
                exact (hsame.setVm r.2).trans (.setEnv _ rfl rfl)
              · rw [if_pos hr]
                refine .inr ⟨_, x.1, x.2, r.1, r.2, hg, hsrc, hlook, hins, ?_,
                  hsame.setVm r.2⟩
                simp [hr]
      · rw [if_neg hsrc]
        refine .inl ⟨hsame.trans (.setEnv _ rfl rfl), .inl ?_⟩
        simp only [mapping, hb, hsrc, and_false, if_false]

theorem inserting_of {g : Mapping} {x : Nat × Nat} (hg : s.mapping cur call = some g)
    (hlook : (s.onPml4e g.src fun root => s.vm.pageLookup root g.srcva) = some (some x)) :
    g ∈ s.inserting cur call := by
  rw [Option.mem_def, inserting, hg, Option.filter_eq_some_iff]
  exact ⟨rfl, by rw [hlook]; rfl⟩

theorem mapping_of_inserting {g : Mapping} (hg : g ∈ s.inserting cur call) :
    g ∈ s.mapping cur call :=
  (Option.filter_eq_some_iff.1 hg).1

/-- A tame call that maps a page keeps memory in order. -/
theorem MapStep.inv {n : Int} (hstep : s.MapStep cur call n s') (h : s.MemInv pool mem0 P)
    (htame : s.Tame cur call) (hperm : PermOk P s cur call) :
    s'.MemInv pool mem0 P ∧ s.MapEffect cur call s' := by
  rcases hstep with ⟨hsame, _⟩ | ⟨g, p, pt, r, m, hmap, hsrc, hlook, hins, _, hsame⟩
  · exact ⟨h.congr hsame, .inl hsame.maps⟩
  · have hg := inserting_of hmap hlook
    rcases mapPage_inv h hsrc (htame.1 g hg) (hperm g hg) hlook hins with ⟨h', heff⟩
    refine ⟨h'.congr hsame, MapEffect.congr ?_ hsame⟩
    exact heff.imp (fun hm => hm.2) (fun hm => ⟨g, hg, hm.2⟩)

theorem sysPageUnmap_inv (h : s.MemInv pool mem0 P) {envid : BitVec 32}
    (htame : s.Tame cur (.pageUnmap envid va)) (hzero : P 0) :
    (s.sysPageUnmap cur envid va).Ensures (MemInv pool mem0 P) := by
  refine sysPageUnmap_rule (fun _ _ => h) trivial ?_
  intro e root m he hva hroot hrem
  rcases h.wf with ⟨kind, hwf, hpdp⟩
  rcases hwf.pageRemove hroot (lt_utop_of_badVa hva) (htame.2 e he hva) hrem with
    ⟨kind', hwf', hleaf, _, _, _, _, hstay⟩
  refine h.setVm ⟨kind', hwf', hpdp.stay hstay⟩ ?_
  intro x
  rw [hleaf]
  by_cases hx : x = (e, va / pgSize)
  · rw [hx, update_self]; exact hzero
  · rw [update_of_ne hx]; exact h.leaves x

theorem roots_setEnv (s : Kernel) (e : Nat) (v : Env) :
    (s.setEnv e v).roots = update s.roots e v.envPml4e := by
  funext i
  by_cases hi : i = e
  · rw [hi, update_self, roots, setEnv_envs, update_self]
  · rw [update_of_ne hi, roots, setEnv_envs, update_of_ne hi, roots]

/-- The address spaces left when that of `e` goes. -/
theorem roots_setEnv_none {v : Env} {i r : Nat} (hv : v.envPml4e = none)
    (h : (s.setEnv e v).roots i = some r) : i ≠ e ∧ s.roots i = some r := by
  rw [roots_setEnv, hv] at h
  by_cases hi : i = e
  · rw [hi, update_self] at h
    cases h
  · rw [update_of_ne hi] at h
    exact ⟨hi, h⟩

/-- `env_alloc` makes an address space with an empty map, or loses a few pages. -/
theorem envAlloc_inv (h : s.MemInv pool mem0 P) {pid : BitVec 32} {r : Except Int Nat}
    (hrun : s.envAlloc pid = some (r, s')) : s'.MemInv pool mem0 P := by
  rcases h.wf with ⟨kind, hwf, hpdp⟩
  rcases envAlloc_cases hrun with ⟨_, hs' | ⟨e, rest, m, hlist, hvm, hs'⟩⟩ |
    ⟨e, rest, p, m, _, hlist, hvm, hs'⟩
  · rw [hs']; exact h
  · -- the pages that were taken are lost
    rcases h.freeList e (hlist ▸ List.mem_cons_self) with ⟨hroot, he⟩
    rcases hwf.envSetupVm h.boot he hroot hvm with
      ⟨kind', hwf', _, hmap, hstay, _⟩
    have hsame : update s.roots e none = s.roots := by
      rw [← hroot, Function.update_eq_self]
    rw [hsame] at hwf' hmap
    rw [hs']
    refine h.setVm ⟨kind', hwf', hpdp.stay hstay⟩ ?_
    rw [hmap]
    exact h.leaves
  · -- the slot has a new address space, and the others have theirs
    rcases h.freeList e (hlist ▸ List.mem_cons_self) with ⟨hroot, he⟩
    have hnd := h.freeNodup
    rw [hlist, List.nodup_cons] at hnd
    rcases hwf.envSetupVm h.boot he hroot hvm with
      ⟨kind', hwf', _, hmap, hstay, hnewpdp⟩
    have hroots : s'.roots = update s.roots e (some p) := by
      rw [hs']
      exact roots_setEnv s e (newEnv (s.envs e) e p pid)
    have hself : s'.envs e = newEnv (s.envs e) e p pid := by
      rw [hs']
      simp only [setEnv_envs, update_self]
    have hother : ∀ i, i ≠ e → s'.envs i = s.envs i := by
      intro i hi
      rw [hs']
      simp only [setEnv_envs, update_of_ne hi]
    have hvm' : s'.vm = m := by rw [hs']
    have hlist' : s'.envFreeList = rest := by rw [hs']
    refine ⟨⟨kind', ?_, ?_⟩, ?_, ?_, ?_, ?_, ?_⟩
    · rw [hvm', hroots]; exact hwf'
    · intro i r hr
      by_cases hi : i = e
      · rw [hi]; exact hnewpdp (by simp)
      · rw [hroots, update_of_ne hi] at hr
        exact hpdp.stay hstay i r hr
    · intro i r hr
      by_cases hi : i = e
      · rw [hi, hroots, update_self, some.injEq] at hr
        rw [hi, hself, ← hr]
        rfl
      · rw [hroots, update_of_ne hi] at hr
        rw [hother i hi]
        exact h.cr3 i r hr
    · rw [hlist']; exact hnd.2
    · intro i hi
      rw [hlist'] at hi
      have hie : i ≠ e := fun hc => hnd.1 (hc ▸ hi)
      rw [hroots, update_of_ne hie]
      exact h.freeList i (hlist ▸ List.mem_cons_of_mem _ hi)
    · have hboot : s'.bootPml4e = s.bootPml4e := by rw [hs']; rfl
      rw [hboot]
      exact h.boot
    · rw [maps, hvm', hroots, hmap]
      exact h.leaves

theorem sysExofork_inv (h : s.MemInv pool mem0 P) (cur : Nat) :
    (s.sysExofork cur).Ensures (MemInv pool mem0 P) := by
  unfold sysExofork
  cases hr : s.envAlloc (s.envs cur).envId with
  | none => trivial
  | some x =>
    rcases x with ⟨r, s'⟩
    have h' := envAlloc_inv h hr
    cases r with
    | error err => exact h'
    | ok e => exact h'.setEnv _ rfl rfl

/-- `env_create` allocates an environment and loads the image into its address
    space. -/
theorem envCreate_cases (h : s.envCreate type entry segs = some s') :
    ∃ e t m, s.envAlloc 0 = some (.ok e, t) ∧ t.roots e = some (t.envs e).envCr3 ∧
      t.vm.loadIcode (t.envs e).envCr3 segs = some m ∧
      ({ t with vm := m } : Kernel).SameMem s' := by
  unfold envCreate at h
  rcases bind_eq_some_iff.1 h with ⟨⟨r, t⟩, halloc, hrest⟩
  cases r with
  | error err => cases hrest
  | ok e =>
    simp only [Option.map_eq_some_iff] at hrest
    rcases hrest with ⟨m, hload, hs'⟩
    refine ⟨e, t, m, halloc, ?_, hload, ?_⟩
    · -- the new slot has a root, and `env_cr3` names it
      rcases envAlloc_cases halloc with ⟨⟨err, hc⟩, _⟩ | ⟨e', rest, p, m', hok, _, _, ht'⟩
      · cases hc
      · rw [Except.ok.injEq] at hok
        rw [ht', hok]
        simp only [roots, setEnv_envs, update_self, newEnv]
    · rw [← hs']
      exact SameMem.setEnv _ rfl rfl

/-- `env_create` for an image below `UTOP`. -/
theorem envCreate_inv (h : s.MemInv pool mem0 P) (hsegs : ∀ sg ∈ segs, sg.1 + sg.2 ≤ utop)
    (hnew : ∀ pp, P (Vm.insertedEntry pp 7) ∧ P (Vm.insertedEntry pp 6))
    (hrun : s.envCreate type entry segs = some s') : s'.MemInv pool mem0 P := by
  rcases envCreate_cases hrun with ⟨e, t, m, halloc, hroot, hload, hsame⟩
  have ht := envAlloc_inv h halloc
  rcases ht.wf with ⟨kind, hwf, hpdp⟩
  rcases hwf.loadIcode hroot hnew ht.leaves hsegs hload with ⟨kind', hwf', hstay, hP'⟩
  exact (ht.setVm ⟨kind', hwf', hpdp.stay hstay⟩ hP').congr hsame

/-- `env_free` on an address space it looks at completely. -/
theorem envFree_inv (h : s.MemInv pool mem0 P) {e : Nat} (c : Nat) (hzero : P 0)
    (htail : s.vm.TailFree s.roots e) :
    (s.envFree c e).Sat (fun _ s' => s'.MemInv pool mem0 P) (fun _ => False) (fun _ => True) := by
  unfold envFree
  simp only
  split
  · trivial
  · rename_i m hm
    rcases bind_eq_some_iff.1 hm with ⟨root, hroot, hfree⟩
    rw [h.cr3 e root hroot] at hfree
    rcases h.wf with ⟨kind, hwf, hpdp⟩
    rcases hpdp e root hroot with ⟨pdp, hkpdp⟩
    rcases hwf.envFree hroot hkpdp htail hfree with ⟨kind', hwf', htab, hleaf⟩
    have hroots : (s.setEnv e { s.envs e with
        envPml4e := none, envCr3 := 0, envStatus := .free }).roots =
        update s.roots e none := roots_setEnv s e _
    refine ⟨⟨kind', ?_, ?_⟩, ?_, ?_, ?_, h.boot, ?_⟩
    · exact hroots.symm ▸ hwf'
    · intro i r hr
      rcases roots_setEnv_none rfl hr with ⟨hi, hr'⟩
      rcases hpdp i r hr' with ⟨q, hq⟩
      exact ⟨q, htab q i _ hq hi⟩
    · intro i r hr
      rcases roots_setEnv_none rfl hr with ⟨hi, hr'⟩
      simp only [setEnv_envs, update_of_ne hi]
      exact h.cr3 i r hr'
    · -- a slot with an address space is not on the list
      refine List.nodup_cons.2 ⟨?_, h.freeNodup⟩
      intro hmem
      have hnone := (h.freeList e hmem).1
      rw [roots, hroot] at hnone
      cases hnone
    · intro i hi
      have hsplit : update s.roots e none i = none ∧ i < nenv := by
        by_cases hie : i = e
        · rw [hie, update_self]
          exact ⟨rfl, hwf.rootLt e root hroot⟩
        · rw [update_of_ne hie]
          rcases List.mem_cons.1 hi with hc | hi
          · exact absurd hc hie
          · exact h.freeList i hi
      exact hroots.symm ▸ hsplit
    · intro x
      have hx : P (m.leafMap (update s.roots e none) x) := by
        rw [hleaf x]
        split
        · exact hzero
        · exact h.leaves x
      unfold maps
      exact hroots.symm ▸ hx

/-- `env_destroy` on an environment it frees completely, or does not free yet. -/
theorem envDestroy_inv (h : s.MemInv pool mem0 P) (hzero : P 0)
    (htail : ¬((s.envs e).envStatus = .running ∧ s.cpuEnv c ≠ some e) → s.vm.TailFree s.roots e) :
    (s.envDestroy c e).Ensures (MemInv pool mem0 P) := by
  unfold envDestroy
  by_cases hrun : (s.envs e).envStatus = .running ∧ s.cpuEnv c ≠ some e
  · rw [if_pos hrun]
    exact h.setEnv _ rfl rfl
  · rw [if_neg hrun]
    refine ((envFree_inv h c hzero (htail hrun)).mono (fun _ _ hs => hs) (fun _ hf => hf.elim)
      (fun _ ht => ht)).bind ?_
    intro _ s' hs'
    split
    · have hnone : (s'.setCpuEnv c none).MemInv pool mem0 P :=
        hs'.congr (.setCpuEnv s' c none)
      exact hnone.schedYield c _
    · exact hs'

/-- What a program or the kernel stores below `UTOP` of an address space. -/
theorem MemInv.storeByte {s : Kernel} {root : Nat} (hroot : s.roots e = some root) :
    ∀ m m' va b, ({ s with vm := m } : Kernel).MemInv pool mem0 P → va < utop →
      m.storeByte root va b = some m' → ({ s with vm := m' } : Kernel).MemInv pool mem0 P := by
  intro m m' va b h hva hrun
  rcases h.wf with ⟨kind, hwf, hpdp⟩
  rcases hwf.storeByte hroot hva hrun with ⟨hwf', hmap⟩
  exact h.setVm ⟨kind, hwf', hpdp⟩ (hmap ▸ h.leaves)

/-- The packet, and then its length. -/
theorem sysNetTryReceive_inv (h : s.MemInv pool mem0 P) {data len : Nat}
    (htame : s.Tame cur (.netTryReceive data len)) :
    (s.sysNetTryReceive cur data len).Ensures (MemInv pool mem0 P) := by
  refine (sysNetTryReceive_rule (J := fun m => ({ s with vm := m } : Kernel).MemInv pool mem0 P)
    h fun hdata => ?_).mono ?_ (fun _ hf => hf) (fun _ ht => ht)
  · rcases htame.2 hdata with ⟨hsome, hlen, hpkt⟩
    rcases Option.isSome_iff_exists.1 hsome with ⟨root, hroot⟩
    rw [show s.curRoot cur = root from h.cr3 cur root hroot]
    exact ⟨MemInv.storeByte hroot, hlen, hpkt⟩
  · intro n s' hs'
    rcases hs' with ⟨m, d, rfl, h'⟩
    exact h'.congr ⟨rfl, fun _ => rfl, fun _ => rfl, rfl, rfl⟩

/-- The current environment goes, if `env_free` looks at all of it. -/
theorem envQuit_inv (h : s.MemInv pool mem0 P) (hzero : P 0) (htail : s.vm.TailFree s.roots cur)
    (R : α → Kernel → Prop) : (s.envQuit c cur).Sat R (MemInv pool mem0 P) (fun _ => True) := by
  refine ((envFree_inv h c hzero htail).mono (fun _ _ hs => hs) (fun _ hf => hf.elim)
    (fun _ ht => ht)).bind ?_
  intro _ s' hs'
  exact (hs'.congr (.setCpuEnv s' c none)).schedYield c _

/-- A simple call that does not write to memory leaves it alone. -/
theorem Kept.sameMem (h : s.Kept cur call s') (hcall : call.writes = false) : s.SameMem s' := by
  rcases h with ⟨hvm, hsame | ⟨e, v, hst, hsame⟩⟩
  · exact .of_table hsame (hvm hcall)
  · suffices hset : s.SameMem (s.setEnv e v) from hset.trans (.of_table hsame (hvm hcall))
    cases call with
    | envSetStatus envid status =>
      rcases hst with ⟨_, st, _, rfl⟩
      exact .setEnv _ rfl rfl
    | envSetTrapframe envid tf =>
      rcases hst with ⟨_, f, _, rfl⟩
      exact .setEnv _ rfl rfl
    | envSetPgfaultUpcall envid func =>
      rcases hst with ⟨_, rfl⟩
      exact .setEnv _ rfl rfl
    | ipcRecv dstva =>
      rcases hst with ⟨rfl, rfl⟩
      exact .setEnv _ rfl rfl
    | ipcTrySend envid value srcva perm => exact absurd hcall (by simp [Call.writes])
    | _ => exact hst.elim

/-- What `P` must allow anyway: empty entries, and the flags that `sys_page_alloc` and
    the loader use. -/
structure Permits (P : Pte → Prop) : Prop where
  zero : P 0
  syscall : ∀ pp (perm : BitVec 32), perm &&& ~~~0xE07 = 0 → P (Vm.insertedEntry pp perm)

/-- The calls. -/
theorem syscall_inv (hP : Permits P) (h : s.MemInv pool mem0 P) (hcpu : s.cpuEnv c = some cur)
    (htame : s.Tame cur call) (hperm : PermOk P s cur call) :
    (s.syscall c cur call).Ensures (MemInv pool mem0 P) := by
  cases call with
  | pageAlloc envid va perm =>
    exact sysPageAlloc_inv h cur envid va (fun pp hp => hP.syscall pp perm hp)
  | pageMap srcenvid srcva dstenvid dstva perm =>
    exact (sysPageMap_step s cur srcenvid srcva dstenvid dstva perm).mono
      (fun _ _ hs => (hs.inv h htame hperm).1) (fun _ hf => hf.elim) (fun _ ht => ht)
  | pageUnmap envid va => exact sysPageUnmap_inv h htame hP.zero
  | ipcTrySend envid value srcva perm =>
    exact (sysIpcTrySend_step s cur envid value srcva perm).mono
      (fun _ _ hs => (hs.inv h htame hperm).1) (fun _ hf => hf.elim) (fun _ ht => ht)
  | netTryReceive data len => exact sysNetTryReceive_inv h htame
  | cputs str len =>
    exact sysCputs_sat (userMemAssert_rule hcpu (fun _ => h) trivial fun hcheck =>
      envQuit_inv h hP.zero (htame.2 hcheck) _) fun _ _ => trivial
  | exofork => exact sysExofork_inv h cur
  | envDestroy envid =>
    simp only [syscall, sysEnvDestroy]
    cases he : s.envid2env cur envid true with
    | none => exact h
    | some e =>
      refine (envDestroy_inv h hP.zero ?_).bind (fun _ _ hs => hs)
      intro hnot
      refine htame.2 e he (fun hc => hnot ⟨hc.1, ?_⟩)
      rw [hcpu]
      exact fun hs => hc.2 (Option.some.inj hs).symm
  | yield => exact h.schedYield c _
  | _ =>
    exact (syscall_simple s c cur rfl).mono (fun _ _ hs => h.congr (hs.sameMem rfl))
      (fun _ hf => hf.elim) (fun _ _ => trivial)

/-! ## Traps -/

/-- A trap keeps memory in order if an environment that it ends is freed completely and
    a call is tame. -/
structure TameTrap (s : Kernel) (cur : Nat) (tf : Trapframe) : Prop where
  dying : (s.envs cur).envStatus = .dying → s.vm.TailFree s.roots cur
  fault : tf.trapno.toNat = 14 →
    (s.setEnv cur { s.envs cur with envTf := tf }).FatalFault cur → s.vm.TailFree s.roots cur
  fatal : ∀ n, tf.trapno.toNat = n → n ≠ 3 → n ≠ 14 → n ≠ 48 → ¬(32 ≤ n ∧ n < 48) →
    s.vm.TailFree s.roots cur
  call : tf.trapno.toNat = 48 →
    (s.setEnv cur { s.envs cur with envTf := tf }).Tame cur (Call.decode tf.regs)

/-- What holds of memory after the dispatch of a trap holds when the CPU is back in user
    mode. -/
theorem trap_rule {tf : Trapframe} (cr2 : BitVec 64) (hcpu : s.cpuEnv c = some cur)
    (halive : (s.envs cur).envStatus ≠ .dying) (J : Kernel → Prop)
    (hJ : ∀ t t' : Kernel, t.SameMem t' → J t → J t')
    (hdisp : ((s.setEnv cur { s.envs cur with envTf := tf }).trapDispatch c cur cr2).Ensures J) :
    (s.trap c tf cr2).Sat (fun _ _ => False) J (fun _ => True) := by
  have hsched : ∀ t : Kernel, J t →
      (t.schedYield c).Sat (fun (_ : Unit) _ => False) J (fun _ => True) := by
    intro t ht
    exact (SameMem.schedYield t c _).mono (fun _ _ hr => hr) (fun _ hs => hJ _ _ hs ht)
      (fun _ ht => ht)
  unfold trap
  simp only [hcpu, if_neg halive]
  refine hdisp.bind ?_
  intro _ s' hs'
  split
  · split
    · exact hJ _ _ (.envRun s' c _) hs'
    · exact hsched s' hs'
  · exact hsched s' hs'

/-- The dispatch of a call. -/
theorem trapDispatch_call (cr2 : BitVec 64) (hno : (s.envs cur).envTf.trapno.toNat = 48)
    {J : Kernel → Prop} (hJ : ∀ t t' : Kernel, t.SameMem t' → J t → J t')
    (hcall : (s.syscall c cur (Call.decode (s.envs cur).envTf.regs)).Ensures J) :
    (s.trapDispatch c cur cr2).Ensures J := by
  simp only [trapDispatch, hno]
  exact hcall.bind fun r s' hs' => hJ _ _ (.setEnv _ rfl rfl) hs'

/-- The upcall is entered with a frame on the exception stack. -/
theorem pageFaultHandler_inv (h : s.MemInv pool mem0 P) (hzero : P 0) (hcpu : s.cpuEnv c = some cur)
    (cr2 : BitVec 64) (htail : s.FatalFault cur → s.vm.TailFree s.roots cur) :
    (s.pageFaultHandler c cur cr2).Ensures (MemInv pool mem0 P) := by
  refine pageFaultHandler_rule cr2 hcpu trivial
    (fun hf R => envQuit_inv h hzero (htail hf) R) fun hsome m hm => ?_
  rcases Option.isSome_iff_exists.1 hsome with ⟨root, hroot⟩
  have hcr3 : s.curRoot cur = root := h.cr3 cur root hroot
  rw [hcr3] at hm
  have hm' := Vm.storeWords_rule (MemInv.storeByte (e := cur) hroot) _ _ s.vm m h
    (Upcall.utf_bounds _).2 hm
  refine MemInv.congr ?_ (.envRun _ c cur)
  exact hm'.setEnv (e := cur) _ rfl rfl

/-- A tame trap, from user mode to user mode. -/
theorem trap_inv (hP : Permits P) (h : s.MemInv pool mem0 P) (tf : Trapframe) (cr2 : BitVec 64)
    (hcpu : s.cpuEnv c = some cur) (htame : s.TameTrap cur tf)
    (hperm : tf.trapno.toNat = 48 →
      PermOk P (s.setEnv cur { s.envs cur with envTf := tf }) cur (Call.decode tf.regs)) :
    (s.trap c tf cr2).Sat (fun _ _ => False) (MemInv pool mem0 P) (fun _ => True) := by
  by_cases hdy : (s.envs cur).envStatus = .dying
  · rw [trap_dying tf cr2 hcpu hdy]
    exact envQuit_inv h hP.zero (htame.dying hdy) _
  · refine trap_rule cr2 hcpu hdy _ (fun _ _ hs ht => ht.congr hs) ?_
    have hsame : s.SameMem (s.setEnv cur { s.envs cur with envTf := tf }) := .setEnv _ rfl rfl
    have htf : ((s.setEnv cur { s.envs cur with envTf := tf }).envs cur).envTf = tf := by
      rw [setEnv_envs, update_self]
    have htail : s.vm.TailFree s.roots cur →
        (s.setEnv cur { s.envs cur with envTf := tf }).vm.TailFree
          (s.setEnv cur { s.envs cur with envTf := tf }).roots cur := by
      rw [hsame.roots]
      exact id
    have h1 := h.congr hsame
    refine trapDispatch_rule cr2 h1 ?_ ?_ (fun _ => trivial) ?_ ?_
    · intro hn
      rw [htf] at hn
      exact pageFaultHandler_inv h1 hP.zero hcpu cr2 fun hf => htail (htame.fault hn hf)
    · intro t hsame'
      exact (h1.congr (.of_table hsame' rfl)).schedYield c _
    · intro hn
      rw [htf] at hn ⊢
      exact (syscall_inv hP h1 hcpu (htame.call hn) (hperm hn)).bind
        fun r s' hs' => hs'.setEnv _ rfl rfl
    · intro n hn h3 h14 h48 hirq
      rw [htf] at hn
      rw [envDestroy_self (s := s.setEnv cur _) hcpu]
      exact envQuit_inv h1 hP.zero (htail (htame.fatal n hn h3 h14 h48 hirq)) _

end Calls
end Kernel

end Jos
