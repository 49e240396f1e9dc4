import Jos.Theory.Calls
import Jos.Theory.EnvTable
import Jos.Theory.Setup

/-!
# Allocations That Fail

What is left behind when memory runs out in the middle of an operation. The page-table
walk may have hung up to two new tables when the third allocation fails, and it takes back
each of them on its way out: the entry it wrote was empty before, and the page goes back to
the front of the free list, which is where it came from. So `page_insert` and
`sys_page_alloc` fail without a trace, apart from the bytes of pages that are free.

`env_setup_vm` takes its three pages one after the other and returns when one of them is
missing, with nothing done for the ones before. With one or two free pages in the machine
a failed `env_alloc` loses them.

## Main definitions

* `FreePages`, `TablesInUse`: The free list, and tables that are not on it.
* `Untouched`: Nothing but the bytes of free pages has changed.
* `Undone`: What a failed `env_alloc` should leave behind.

## Theorems

* `pml4eWalk_untouched`: The walk undoes what it has done.
* `insert_untouched`: `page_insert` and `sys_page_alloc` undo what they have done.
* `alloc_undone_iff`: `env_alloc` does so unless one or two pages are free.
-/

namespace Jos

open Lib.Radix (node clearPage)

variable {root n : Nat}

namespace Vm

/-- The free list is one of distinct pages of physical memory without references. -/
structure FreePages (m : Vm) : Prop where
  nodup : m.pageFreeList.Nodup
  zero : ∀ p ∈ m.pageFreeList, m.ppRef p = 0
  lt : ∀ p ∈ m.pageFreeList, p < m.npages
  size : m.npages ≤ 2 ^ 52

/-- No table of the tree at `root` is free. -/
def TablesInUse (m : Vm) (root : Nat) : Prop :=
  ∀ π t, (∀ k ∈ π, k < 512) → π.length < 4 → node ppn m.mem root π = some t → t ∉ m.pageFreeList

/-- The allocator is as before, and so is every page that is not free. -/
structure Untouched (m m' : Vm) : Prop where
  free : m'.pageFreeList = m.pageFreeList
  ppRef : m'.ppRef = m.ppRef
  mem : ∀ q, q ∉ m.pageFreeList → ∀ i, m'.mem q i = m.mem q i

theorem Untouched.refl (m : Vm) : Untouched m m := ⟨rfl, rfl, fun _ _ _ => rfl⟩

variable {m : Vm} {ks rest : List Nat} {va p : Nat}

/-- The tables on the way to an address are among those of the tree. -/
theorem TablesInUse.pathIn (h : m.TablesInUse root) :
    ∀ π t, (∀ k ∈ π, k < 512) → (∀ k ∈ ks, k < 512) → π.length + ks.length < 4 →
      node ppn m.mem root π = some t → PathIn (fun _ => True) m t ks := by
  -- by induction on the slots that are still to go
  induction ks with
  | nil => exact fun _ _ _ _ _ _ => trivial
  | cons k ks ih =>
    intro π t hπ hks hlen ht
    rw [List.length_cons] at hlen
    refine ⟨trivial, h π t hπ (by omega) ht, fun hne => ?_⟩
    refine ih (k :: π) _ ?_ (fun k' hk' => hks k' (List.mem_cons_of_mem k hk')) ?_ ?_
    · intro k' hk'
      rcases List.mem_cons.1 hk' with hk' | hk'
      · rw [hk']
        exact hks k List.mem_cons_self
      · exact hπ k' hk'
    · rw [List.length_cons]
      omega
    · simp only [node, ht, Option.bind_some, if_neg hne]

theorem FreePages.ready (h : m.FreePages) : Ready (fun _ => True) m :=
  ⟨fun p hp => ⟨trivial, (h.lt p hp).trans_le h.size⟩, h.nodup⟩

/-- A walk that finds nothing leaves everything as it was. -/
theorem pml4eWalk_untouched (hfree : m.FreePages)
    (hpath : PathIn (fun _ => True) m root [pml4 va, pdpe va, pdx va]) {m' : Vm}
    (hrun : m.pml4eWalk root va true = some (none, m')) : Untouched m m' := by
  have hun := (m.pml4eWalk_descent hrun).undone rfl hfree.ready hpath
  refine ⟨hun.free, ?_, hun.mem⟩
  funext q
  rcases hun.refs q with hr | ⟨hq, hr⟩
  · exact hr
  · rw [hr, hfree.zero q hq]

theorem TablesInUse.walk {root : Nat} (h : m.TablesInUse root) (va : Nat) :
    PathIn (fun _ => True) m root [pml4 va, pdpe va, pdx va] := by
  refine h.pathIn [] root (fun k hk => absurd hk List.not_mem_nil) ?_ (by simp) rfl
  intro k hk
  simp only [List.mem_cons, List.not_mem_nil, or_false] at hk
  unfold pml4 pdpe pdx at hk
  omega

theorem pageInsert_untouched (m : Vm) {pp : Nat} {perm : BitVec 32} (hfree : m.FreePages)
    (hpath : PathIn (fun _ => True) m root [pml4 va, pdpe va, pdx va]) {m' : Vm}
    (hrun : m.pageInsert root pp va perm = some (eNoMem, m')) : Untouched m m' := by
  rcases m.pageInsert_cases hrun with ⟨o, m1, hwalk, hres⟩
  cases o with
  | none =>
    rw [hres.2]
    exact pml4eWalk_untouched hfree hpath hwalk
  | some pt => exact absurd hres.1 (by decide)

/-! ## A page that was allocated before -/

/-- The memory after `page_alloc` has taken the page `p` and cleared it. -/
def taken (m : Vm) (p : Nat) (rest : List Nat) : Vm :=
  { m.zeroPage p with pageFreeList := rest }

theorem FreePages.taken (h : m.FreePages) (hlist : m.pageFreeList = p :: rest) :
    (m.taken p rest).FreePages := by
  have hnodup := h.nodup
  rw [hlist, List.nodup_cons] at hnodup
  have hmem : ∀ q ∈ rest, q ∈ m.pageFreeList := by
    intro q hq
    rw [hlist]
    exact List.mem_cons_of_mem p hq
  exact ⟨hnodup.2, fun q hq => h.zero q (hmem q hq), fun q hq => h.lt q (hmem q hq), h.size⟩

theorem PathIn.taken (hlist : m.pageFreeList = p :: rest) : ∀ t, PathIn (fun _ => True) m t ks →
      PathIn (fun _ => True) (m.taken p rest) t ks := by
  induction ks with
  | nil => exact fun _ h => h
  | cons k ks ih =>
    intro t h
    have hout := h.2.1
    rw [hlist, List.mem_cons, not_or] at hout
    refine ⟨trivial, hout.2, ?_⟩
    change clearPage m.mem p t k ≠ 0 → PathIn _ _ (ppn (clearPage m.mem p t k)) ks
    rw [Lib.Radix.clearPage_of_ne _ _ hout.1]
    exact fun hne => ih _ (h.2.2 hne)

/-- The page goes back to the front of the list. -/
theorem Untouched.pageFree {m2 : Vm} (h : m.FreePages) (hlist : m.pageFreeList = p :: rest)
    (hrest : Untouched (m.taken p rest) m2) : Untouched m (m2.pageFree p) := by
  have hnodup := h.nodup
  rw [hlist, List.nodup_cons] at hnodup
  have hlist2 : m2.pageFreeList = rest := hrest.free
  have href : m2.ppRef = m.ppRef := hrest.ppRef
  have hzero := h.zero p (hlist ▸ List.mem_cons_self)
  refine ⟨?_, ?_, ?_⟩
  · rw [Vm.pageFree, if_neg (by rw [href, hzero]; simp), hlist2, if_neg hnodup.1, hlist]
  · rw [pageFree_ppRef, href]
  · intro q hq i
    rw [hlist, List.mem_cons, not_or] at hq
    rw [pageFree_mem, hrest.mem q hq.2 i]
    exact Lib.Radix.clearPage_of_ne _ _ hq.1

end Vm

namespace Kernel

theorem sysPageAlloc_untouched (s : Kernel) (hfree : s.vm.FreePages)
    (huse : ∀ e root, (s.envs e).envPml4e = some root → s.vm.TablesInUse root) (cur : Nat)
    (envid : BitVec 32) (va : Nat) (perm : BitVec 32) :
    (s.sysPageAlloc cur envid va perm).Sat
      (fun r s' => r = Vm.eNoMem → Vm.Untouched s.vm s'.vm) (fun _ => True) (fun _ => True) := by
  refine sysPageAlloc_rule (fun _ _ _ => Vm.Untouched.refl s.vm) trivial ?_
  intro e p m root r m' _ _ _ halloc hroot hins hr
  cases hlist : s.vm.pageFreeList with
  | nil =>
    simp only [Vm.pageAlloc, hlist] at halloc
    cases halloc
  | cons q rest =>
    simp only [Vm.pageAlloc, hlist, if_true, Prod.mk.injEq, Option.some.injEq] at halloc
    rcases halloc with ⟨rfl, rfl⟩
    rw [hr] at hins
    have hun := (s.vm.taken q rest).pageInsert_untouched (hfree.taken hlist)
      (Vm.PathIn.taken hlist _ ((huse e root hroot).walk va)) hins
    change Vm.Untouched s.vm (if r ≠ 0 then m'.pageFree q else m')
    rw [hr, if_pos (by decide)]
    exact Vm.Untouched.pageFree hfree hlist hun

/-- `page_insert` and `sys_page_alloc` that run out of memory have changed nothing, in
    whatever way the tables for the address are there or not and wherever the memory ends. -/
theorem insert_untouched (s : Kernel) (hfree : s.vm.FreePages)
    (huse : ∀ e root, (s.envs e).envPml4e = some root → s.vm.TablesInUse root) :
    (∀ root pp va perm m', s.vm.TablesInUse root →
      s.vm.pageInsert root pp va perm = some (Vm.eNoMem, m') → Vm.Untouched s.vm m') ∧
    ∀ cur envid va perm s', s.sysPageAlloc cur envid va perm = .ret Vm.eNoMem s' →
      Vm.Untouched s.vm s'.vm := by
  refine ⟨?_, ?_⟩
  · intro root pp va perm m' huse hrun
    exact s.vm.pageInsert_untouched hfree (huse.walk va) hrun
  · intro cur envid va perm s' hrun
    have hsat := s.sysPageAlloc_untouched hfree huse cur envid va perm
    rw [hrun] at hsat
    exact hsat rfl

/-- A machine with `n` free pages, in which every environment has an empty root at page 1. -/
def scarce (n : Nat) : Kernel :=
  { Kernel.envInit ⟨16, fun _ => 0, (List.range n).map (· + 2), fun _ _ => 0⟩ 9 with
    envs := fun _ => { envPml4e := some 1 } }

theorem scarce_inUse (hroot : root ∉ (scarce n).vm.pageFreeList) :
    (scarce n).vm.TablesInUse root := by
  intro π t _ _ ht
  cases π with
  | nil =>
    rwa [← Option.some.inj ht]
  | cons k π =>
    -- the memory is blank, so there is nothing below the root
    rcases Option.bind_eq_some_iff.1 ht with ⟨q, _, hq⟩
    exact absurd hq (by simp [scarce, Kernel.envInit])

/-- Two tables are taken back when there is no page for the third. -/
theorem insert_untouched_two : ∃ m', (scarce 2).vm.pageInsert 1 5 0 7 = some (Vm.eNoMem, m') ∧
    Vm.Untouched (scarce 2).vm m' := by
  have hrun : ((scarce 2).vm.pageInsert 1 5 0 7).map Prod.fst = some Vm.eNoMem := by decide
  rcases Option.map_eq_some_iff.1 hrun with ⟨⟨r, m'⟩, hrun, hr⟩
  have hr' : r = Vm.eNoMem := hr
  rw [hr'] at hrun
  have huse : (scarce 2).vm.TablesInUse 1 := scarce_inUse (by decide)
  refine ⟨m', hrun, (insert_untouched (scarce 2) ⟨by decide, ?_, by decide, by decide⟩ ?_).1
    1 5 0 7 m' huse hrun⟩
  · exact fun _ _ => rfl
  · intro e root he
    rwa [← Option.some.inj he]

/-! ## Environments -/

/-- What a call leaves behind that should have done nothing: the same pages are free with
    the same counts, the same slots are free, and every name leads to the same record. -/
structure Undone (s s' : Kernel) : Prop where
  free : ∀ p, p ∈ s'.vm.pageFreeList ↔ p ∈ s.vm.pageFreeList
  ppRef : s'.vm.ppRef = s.vm.ppRef
  envFree : s'.envFreeList = s.envFreeList
  names : ∀ cur envid checkperm, s'.envid2env cur envid checkperm = s.envid2env cur envid checkperm
  envs : ∀ cur envid checkperm e, s.envid2env cur envid checkperm = some e → s'.envs e = s.envs e

theorem Undone.refl (s : Kernel) : Undone s s :=
  ⟨fun _ => Iff.rfl, rfl, rfl, fun _ _ _ => rfl, fun _ _ _ _ _ => rfl⟩

end Kernel

/-- `env_setup_vm` fails if there are fewer than three pages, and has taken them all. -/
theorem Vm.envSetupVm_fails (m : Vm) {boot : Nat} {m' : Vm}
    (hrun : m.envSetupVm boot = some (none, m')) :
    m.pageFreeList.length < 3 ∧ m'.pageFreeList = [] ∧ m'.ppRef = m.ppRef := by
  rcases envSetupVm_cases hrun with ⟨-, hnil, ps, hlen, htakes⟩ | ⟨_, _, _, _, _, _, hsome, -⟩
  · rcases htakes.facts with ⟨hlist, -, hrefs, -⟩
    rw [hlist, hnil, List.append_nil, List.length_reverse]
    exact ⟨hlen, rfl, hrefs⟩
  · cases hsome

/-- With fewer than three pages it fails. -/
theorem Vm.envSetupVm_short (m : Vm) (boot : Nat) (hlen : m.pageFreeList.length < 3) :
    ∃ m', m.envSetupVm boot = some (none, m') := by
  unfold Vm.envSetupVm
  cases h1 : m.pageFreeList with
  | nil => simp only [Vm.pageAlloc, h1]; exact ⟨_, rfl⟩
  | cons p rest =>
    cases h2 : rest with
    | nil => simp only [Vm.pageAlloc, h1, h2, if_true]; exact ⟨_, rfl⟩
    | cons p2 rest2 =>
      cases h3 : rest2 with
      | nil => simp only [Vm.pageAlloc, h1, h2, h3, if_true]; exact ⟨_, rfl⟩
      | cons p3 rest3 =>
        rw [h1, h2, h3] at hlen
        simp only [List.length_cons] at hlen
        omega

namespace Kernel

/-- One or two pages are free. -/
def FewPages (s : Kernel) : Prop :=
  s.envFreeList ≠ [] ∧ s.vm.pageFreeList ≠ [] ∧ s.vm.pageFreeList.length < 3

/-- Unless one or two pages are free, a failed `env_alloc` has done nothing. -/
theorem envAlloc_undone (s : Kernel) (h : ¬s.FewPages) (parentId : BitVec 32) (err : Int)
    (s' : Kernel) (hrun : s.envAlloc parentId = some (.error err, s')) : Undone s s' := by
  rcases envAlloc_cases hrun with ⟨-, hs | ⟨e, rest, m', hlist, hsetup, hs⟩⟩ |
    ⟨e, rest, p, m, hok, -⟩
  · rw [hs]
    exact Undone.refl s
  · rcases s.vm.envSetupVm_fails hsetup with ⟨hlen, hnil, href⟩
    have hempty : s.vm.pageFreeList = [] := by
      by_contra hne
      exact h ⟨by simp [hlist], hne, hlen⟩
    rw [hs]
    exact ⟨fun p => by rw [hnil, hempty], href, rfl, fun _ _ _ => rfl, fun _ _ _ _ _ => rfl⟩
  · cases hok

theorem sysExofork_undone (s : Kernel) (hslots : ∀ e ∈ s.envFreeList, e < nenv)
    (h : ¬s.FewPages) (cur : Nat) (r : Int) (s' : Kernel) (hrun : s.sysExofork cur = .ret r s')
    (hr : r < 0) : Undone s s' := by
  unfold sysExofork at hrun
  cases halloc : s.envAlloc (s.envs cur).envId with
  | none =>
    rw [halloc] at hrun
    cases hrun
  | some a =>
    rcases a with ⟨o, s1⟩
    rw [halloc] at hrun
    cases o with
    | error err =>
      simp only [Lib.Flow.ret.injEq] at hrun
      rw [← hrun.2]
      exact envAlloc_undone s h _ err s1 halloc
    | ok e =>
      -- the name that is returned is positive
      rcases Table.envAlloc_cases halloc with
        ⟨-, -, err, hbad⟩ | ⟨e', rest, root, hlist, -, he, henvs⟩
      · cases hbad
      · have hslot := hslots e' (hlist ▸ List.mem_cons_self)
        rw [Except.ok.injEq] at he
        simp only [Lib.Flow.ret.injEq] at hrun
        have hpos := nextEnvId_pos (s.envs e').envId hslot
        rw [← hrun.1, henvs, he, Function.update_self] at hr
        exact absurd hpos (Int.not_lt.2 (Int.le_of_lt hr))

/-- With one or two pages they are lost. -/
theorem envAlloc_loses {s : Kernel} (h : s.FewPages) (parentId : BitVec 32) :
    ∃ err s', s.envAlloc parentId = some (.error err, s') ∧ ¬Undone s s' := by
  rcases h with ⟨henv, hne, hlen⟩
  rcases s.vm.envSetupVm_short s.bootPml4e hlen with ⟨m', hsetup⟩
  rcases s.vm.envSetupVm_fails hsetup with ⟨-, hnil, -⟩
  refine ⟨-4, { s with vm := m' }, ?_, ?_⟩
  · unfold envAlloc
    cases hlist : s.envFreeList with
    | nil => exact absurd hlist henv
    | cons e rest =>
      simp only [hsetup, Option.map_some]
  · intro hun
    rcases List.exists_mem_of_ne_nil _ hne with ⟨p, hp⟩
    have hp' := (hun.free p).2 hp
    change p ∈ m'.pageFreeList at hp'
    rw [hnil] at hp'
    exact absurd hp' List.not_mem_nil

/-- A failed `env_alloc` or `sys_exofork` has done nothing, exactly if it is not the case
    that there is a slot for the environment and one or two pages for its three tables. -/
theorem alloc_undone_iff (s : Kernel) (hslots : ∀ e ∈ s.envFreeList, e < nenv) :
    ((∀ parentId err s', s.envAlloc parentId = some (.error err, s') → Undone s s') ∧
      ∀ cur r s', s.sysExofork cur = .ret r s' → r < 0 → Undone s s') ↔ ¬s.FewPages := by
  refine ⟨?_, ?_⟩
  · intro hall hfew
    rcases envAlloc_loses hfew 0 with ⟨err, s', hrun, hnot⟩
    exact hnot (hall.1 0 err s' hrun)
  · intro h
    exact ⟨envAlloc_undone s h, sysExofork_undone s hslots h⟩

theorem scarce_list (n : Nat) : (scarce n).envFreeList = List.range nenv := by
  rw [scarce, Kernel.envInit]

theorem scarce_slots : ∀ e ∈ (scarce n).envFreeList, e < nenv := by
  intro e he
  rw [scarce_list] at he
  exact List.mem_range.1 he

/-- Without any page a failed call has nothing to lose. -/
theorem alloc_undone_empty : ¬(scarce 0).FewPages ∧
    ∀ cur r s', (scarce 0).sysExofork cur = .ret r s' → r < 0 → Undone (scarce 0) s' := by
  have hnone : ¬(scarce 0).FewPages := fun h => h.2.1 rfl
  exact ⟨hnone, ((alloc_undone_iff (scarce 0) scarce_slots).2 hnone).2⟩

/-- With two free pages a failed `env_alloc` leaves none. -/
theorem alloc_not_undone : ¬∀ parentId err s',
    (scarce 2).envAlloc parentId = some (.error err, s') → Undone (scarce 2) s' := by
  intro hall
  have hfew : (scarce 2).FewPages := by
    refine ⟨?_, by decide, by decide⟩
    rw [scarce_list, ne_eq, List.range_eq_nil]
    decide
  rcases envAlloc_loses hfew 0 with ⟨err, s', hrun, hnot⟩
  exact hnot (hall 0 err s' hrun)

end Kernel
end Jos
