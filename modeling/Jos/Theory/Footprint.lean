import Jos.Theory.AddrSpace

/-!
# What Page Operations Write

Which pages an operation on one address space can write to: the tables of that
address space below `UTOP`, and pages that were free. Nothing is asked of the
tables but that free pages are not among them. A page may even be a table at
several places of the same address space, so there are no labels here; a table
is a page that some path from the root leads to.

## Main definitions

* `Vm.IsTable`: The tables of an address space.
* `Vm.Only`: Only some pages were written.
* `Vm.Walks`: What a walk did.
* `Vm.Pruned`: Only entries of some tables were erased.

## Theorems

* `Vm.translate_of_only`: Translations through other tables are the same.
* `Descent.only`, `Vm.pageInsert_only`, `Vm.envSetupVm_only`: What the
  operations write.
* `Pruned.envFree`: What `env_free` writes.
-/

namespace Jos

open Lib.Radix (OkPath node setSlot clearPage setSlot_of_ne setSlot_self)
open Option (bind_eq_some_iff bind_some map_eq_some_iff)

namespace Vm

variable {root va cr3 : Nat}

/-- A translation depends on the four slots it reads. -/
theorem translate_congr (m m' : Vm) (h1 : m'.mem root (pml4 va) = m.mem root (pml4 va))
    (h2 : ∀ w, m.mem root (pml4 va) = w → w ≠ 0 →
      m'.mem (ppn w) (pdpe va) = m.mem (ppn w) (pdpe va))
    (h3 : ∀ w v, m.mem root (pml4 va) = w → w ≠ 0 → m.mem (ppn w) (pdpe va) = v → v ≠ 0 →
      m'.mem (ppn v) (pdx va) = m.mem (ppn v) (pdx va))
    (h4 : ∀ w v u, m.mem root (pml4 va) = w → w ≠ 0 → m.mem (ppn w) (pdpe va) = v → v ≠ 0 →
      m.mem (ppn v) (pdx va) = u → u ≠ 0 → m'.mem (ppn u) (ptx va) = m.mem (ppn u) (ptx va)) :
    m'.translate root va = m.translate root va := by
  unfold translate
  simp only [h1]
  by_cases p1 : hasFlags (m.mem root (pml4 va)) pteP = true
  · have n1 := ne_zero_of_present p1
    simp only [if_pos p1, bind_some, h2 _ rfl n1]
    by_cases p2 : hasFlags (m.mem (ppn (m.mem root (pml4 va))) (pdpe va)) pteP = true
    · have n2 := ne_zero_of_present p2
      simp only [if_pos p2, bind_some, h3 _ _ rfl n1 rfl n2]
      by_cases p3 : hasFlags (m.mem (ppn (m.mem (ppn (m.mem root (pml4 va))) (pdpe va)))
          (pdx va)) pteP = true
      · simp only [if_pos p3, bind_some,
          h4 _ _ _ rfl n1 rfl n2 rfl (ne_zero_of_present p3)]
      · simp only [if_neg p3, Option.bind_none]
    · simp only [if_neg p2, Option.bind_none]
  · simp only [if_neg p1, Option.bind_none]

/-- `p` is a table of the address space at `root`, on the way to an address
    below `UTOP`. -/
def IsTable (m : Vm) (root p : Nat) : Prop :=
  ∃ π, OkPath UserIdx π ∧ π.length < 4 ∧ node ppn m.mem root π = some p

/-- Only pages of `S` were written. -/
def Only (S : Nat → Prop) (m m' : Vm) : Prop := ∀ q i, ¬S q → m'.mem q i = m.mem q i

section Only

variable {S : Nat → Prop} {m m' m'' : Vm}

theorem Only.refl (m : Vm) : Only S m m := fun _ _ _ => rfl

theorem Only.of_mem (h : Only S m m') (hmem : m''.mem = m'.mem) : Only S m m'' := by
  intro q i hq
  rw [hmem]
  exact h q i hq

theorem Only.setEntry (h : Only S m m') {p : Nat} (k : Nat) (v : Pte) (hp : S p) :
    Only S m (m'.setEntry p k v) := by
  intro q i hq
  have hqp : q ≠ p := fun hc => hq (hc ▸ hp)
  rw [setEntry_mem, setSlot_of_ne _ _ (.inl hqp)]
  exact h q i hq

theorem Only.trans (h : Only S m m') (h' : Only S m' m'') : Only S m m'' := by
  intro q i hq
  rw [h' q i hq, h q i hq]

/-- A step below a table is a table. -/
theorem isTable_next (m : Vm) (root p k : Nat) (π : List Nat) (hok : OkPath UserIdx (k :: π))
    (hlen : π.length < 3) (hp : node ppn m.mem root π = some p) (hne : m.mem p k ≠ 0) :
    node ppn m.mem root (k :: π) = some (ppn (m.mem p k)) ∧ m.IsTable root (ppn (m.mem p k)) := by
  have hnode : node ppn m.mem root (k :: π) = some (ppn (m.mem p k)) := by
    simp only [node, hp, bind_some, if_neg hne]
  exact ⟨hnode, k :: π, hok, by rw [List.length_cons]; omega, hnode⟩

/-- Writes elsewhere than to the tables of an address space leave its
    translations alone. -/
theorem translate_of_only (h : Only S m m') (hS : ∀ p, m.IsTable root p → ¬S p) (hva : va < utop) :
    m'.translate root va = m.translate root va := by
  rcases leafPath_ok hva with ⟨⟨⟨⟨_, h4⟩, h3⟩, h2⟩, _⟩
  -- the tables on the way, as far as the entries lead
  have t1 := m.isTable_next root root (pml4 va) [] ⟨trivial, h4⟩ (by simp) rfl
  have t2 := fun n1 => m.isTable_next root _ (pdpe va) [pml4 va] ⟨⟨trivial, h4⟩, h3⟩ (by simp)
    (t1 n1).1
  have t3 := fun n1 n2 => m.isTable_next root _ (pdx va) [pdpe va, pml4 va]
    ⟨⟨⟨trivial, h4⟩, h3⟩, h2⟩ (by simp) (t2 n1 n2).1
  refine translate_congr m m' (h _ _ (hS _ ⟨[], trivial, by simp, rfl⟩)) ?_ ?_ ?_
  · rintro _ rfl n1
    exact h _ _ (hS _ (t1 n1).2)
  · rintro _ _ rfl n1 rfl n2
    exact h _ _ (hS _ (t2 n1 n2).2)
  · rintro _ _ _ rfl n1 rfl n2 rfl n3
    exact h _ _ (hS _ (t3 n1 n2 n3).2)

end Only

/-! ## The walk -/

/-- The page that the slots `ks` lead to from `t`, top down. -/
def follow (m : Vm) : Nat → List Nat → Option Nat
  | t, [] => some t
  | t, k :: ks => if m.mem t k = 0 then none else m.follow (ppn (m.mem t k)) ks

theorem follow_ptPath (m : Vm) (root va : Nat) :
    m.follow root [pml4 va, pdpe va, pdx va] = node ppn m.mem root (ptPath va) := by
  simp only [follow, ptPath, node, bind_some]
  by_cases h1 : m.mem root (pml4 va) = 0
  · simp only [if_pos h1, Option.bind_none]
  · simp only [if_neg h1, bind_some]
    by_cases h2 : m.mem (ppn (m.mem root (pml4 va))) (pdpe va) = 0
    · simp only [if_pos h2, Option.bind_none]
    · simp only [if_neg h2, bind_some]

/-- What a walk from `t` along `ks` did: only pages of `S` were written, no entry
    of a table in use was changed, and the page table it found is where the slots
    lead now. -/
structure Walks (S : Nat → Prop) (m : Vm) (t : Nat) (ks : List Nat) (r : Option Nat)
    (m' : Vm) : Prop where
  only : Only S m m'
  keep : ∀ q i, q ∉ m.pageFreeList → m.mem q i ≠ 0 → m'.mem q i = m.mem q i
  found : ∀ pt, r = some pt → S pt ∧ m'.follow t ks = some pt

section Walk

variable {S : Nat → Prop} {m m' : Vm} {r : Option Nat}

/-- What was taken back was written to free pages only. -/
theorem Walks.of_undone (hready : Ready S m) (hun : m.Undone m') (t : Nat) (ks : List Nat) :
    Walks S m t ks none m' :=
  ⟨fun q i hq => hun.mem q (fun hc => hq (hready.free q hc).1) i,
    fun q i hq _ => hun.mem q hq i, fun pt hpt => by cases hpt⟩

/-- A walk writes to the tables on its way and to new ones. -/
theorem Descent.only {t : Nat} {ks : List Nat} (h : m.Descent t ks r m') :
    Ready S m → PathIn S m t ks → Walks S m t ks r m' := by
  induction h with
  | found m t =>
    intro _ hpath
    refine ⟨.refl m, fun _ _ _ _ => rfl, ?_⟩
    intro pt hpt
    rw [← Option.some.inj hpt]
    exact ⟨hpath, rfl⟩
  | stop hz => exact fun hready _ => .of_undone hready (.refl _) _ _
  | @down m t k ks r m' hne _ ih =>
    intro hready hpath
    have hw := ih hready (hpath.2.2 hne)
    refine ⟨hw.only, hw.keep, fun pt hpt => ⟨(hw.found pt hpt).1, ?_⟩⟩
    rw [follow, hw.keep t k hpath.2.1 hne, if_neg hne]
    exact (hw.found pt hpt).2
  | @build m t k p ks rest pt m' hz hlist htp hlt _ ih =>
    intro hready hpath
    have hw := ih (hready.newTable hlist t k) (hready.pathIn_newTable hlist htp ks)
    have hmem := m.newTable_mem k rest htp
    have hlist' : (m.newTable t k p rest).pageFreeList = rest := rfl
    refine ⟨?_, ?_, ?_⟩
    · intro q i hq
      have hqt : q ≠ t := fun hc => hq (hc ▸ hpath.1)
      have hqp : q ≠ p := fun hc => hq (hc ▸ (hready.head hlist).1)
      rw [hw.only q i hq, hmem, setSlot_of_ne _ _ (.inl hqt),
        Lib.Radix.clearPage_of_ne _ _ hqp]
    · intro q i hq hne
      rw [hlist, List.mem_cons, not_or] at hq
      have hslot : q ≠ t ∨ i ≠ k := by
        by_contra hc
        push Not at hc
        rw [hc.1, hc.2] at hne
        exact hne hz
      have hsame : (m.newTable t k p rest).mem q i = m.mem q i := by
        rw [hmem, setSlot_of_ne _ _ hslot,
          Lib.Radix.clearPage_of_ne _ _ hq.1]
      rw [hw.keep q i (hlist' ▸ hq.2) (by rwa [hsame]), hsame]
    · -- the entry for the new table is still there
      intro pt' hpt'
      have hslot : (m.newTable t k p rest).mem t k = page2pa p ||| 7 := by
        rw [hmem, setSlot_self]
      have hne : page2pa p ||| 7 ≠ 0 := or_ne_zero _ (by decide)
      have hstill : m'.mem t k = page2pa p ||| 7 := by
        rw [hw.keep t k ?_ (by rwa [hslot]), hslot]
        intro hc
        refine hpath.2.1 ?_
        rw [hlist]
        exact List.mem_cons_of_mem p hc
      refine ⟨(hw.found pt' hpt').1, ?_⟩
      rw [follow, hstill, if_neg hne, ppn_mk hlt (by decide)]
      exact (hw.found pt' hpt').2
  | undo hz hlist htp hlt h ih =>
    intro hready hpath
    exact .of_undone hready ((Descent.undo hz hlist htp hlt h).undone rfl hready hpath) _ _
  | wild hlist hbad => exact fun hready hpath => absurd hbad (hready.not_wild hpath hlist)

/-- A walk goes through the tables of the address space, also if other pages have
    changed since. -/
theorem pathIn_of_tables (hva : va < utop) (hin : ∀ p, m.IsTable root p → S p ∧ p ∉ m'.pageFreeList)
    (hsame : ∀ p i, m.IsTable root p → m'.mem p i = m.mem p i) :
    PathIn S m' root [pml4 va, pdpe va, pdx va] := by
  rcases leafPath_ok hva with ⟨⟨⟨⟨_, h4⟩, h3⟩, h2⟩, _⟩
  have t0 : m.IsTable root root := ⟨[], trivial, by simp, rfl⟩
  have hstep := m.isTable_next root
  refine ⟨(hin _ t0).1, (hin _ t0).2, ?_⟩
  rw [hsame _ _ t0]
  intro n1
  have t1 := hstep root (pml4 va) [] ⟨trivial, h4⟩ (by simp) rfl n1
  refine ⟨(hin _ t1.2).1, (hin _ t1.2).2, ?_⟩
  rw [hsame _ _ t1.2]
  intro n2
  have t2 := hstep _ (pdpe va) [pml4 va] ⟨⟨trivial, h4⟩, h3⟩ (by simp) t1.1 n2
  refine ⟨(hin _ t2.2).1, (hin _ t2.2).2, ?_⟩
  rw [hsame _ _ t2.2]
  intro n3
  have t3 := hstep _ (pdx va) [pdpe va, pml4 va] ⟨⟨⟨trivial, h4⟩, h3⟩, h2⟩ (by simp) t2.1 n3
  exact (hin _ t3.2).1

/-- `page_insert` writes to the tables on its way and to the page table. -/
theorem pageInsert_only (m : Vm) {pp : Nat} {perm : BitVec 32} (hready : Ready S m)
    (hpath : PathIn S m root [pml4 va, pdpe va, pdx va]) {r : Int} {m' : Vm}
    (hrun : m.pageInsert root pp va perm = some (r, m')) : Only S m m' := by
  rcases m.pageInsert_cases hrun with ⟨o, m1, hwalk, hres⟩
  have hw := (m.pml4eWalk_descent hwalk).only hready hpath
  cases o with
  | none =>
    rw [hres.2]
    exact hw.only
  | some pt =>
    rcases hw.found pt rfl with ⟨hpt, hfol⟩
    rcases hres.2 with ⟨_, hm'⟩ | ⟨_, m2, hclear, hm'⟩
    · rw [hm']
      exact hw.only.setEntry _ _ hpt
    · have h2 : Only S m m2 := by
        rcases hclear with ⟨_, hm2⟩ | ⟨_, hrem⟩
        · rw [hm2]
          exact hw.only
        · -- the old page is looked up on the same way
          rcases m1.pageRemove_cases hrem with ⟨_, hm2⟩ | ⟨pt', hn, _, hm2⟩
          · rw [hm2]
            exact hw.only
          · rw [← follow_ptPath, hfol, Option.some.injEq] at hn
            rw [hm2, ← hn]
            exact (hw.only.of_mem (pageDecref_mem _ _)).setEntry _ _ hpt
      rw [hm']
      exact (h2.of_mem rfl).setEntry _ _ hpt

/-- `page_alloc` writes to the page it takes from the list. -/
theorem pageAlloc_only (m : Vm) {zero : Bool} {p : Nat} {m' : Vm} (hready : Ready S m)
    (hrun : m.pageAlloc zero = (some p, m')) :
    Only S m m' ∧ Ready S m' ∧ S p ∧ m.pageFreeList = p :: m'.pageFreeList ∧
      ∀ q i, q ≠ p → m'.mem q i = m.mem q i := by
  rcases m.pageAlloc_some hrun with ⟨hlist, -, -, hmem, -⟩
  have hin := hready.free p (hlist ▸ List.mem_cons_self)
  have hnd := hready.nodup
  rw [hlist, List.nodup_cons] at hnd
  refine ⟨fun q i hq => hmem q (fun hc => hq (hc ▸ hin.1)) i, ⟨fun q hq => ?_, hnd.2⟩, hin.1, hlist,
    fun q i hq => hmem q hq i⟩
  exact hready.free q (hlist ▸ List.mem_cons_of_mem _ hq)

/-- `env_setup_vm` writes to the pages it takes. -/
theorem envSetupVm_only (m : Vm) {boot : Nat} (hready : Ready S m) {m' : Vm}
    (hrun : m.envSetupVm boot = some (r, m')) : Only S m m' := by
  have htaken : ∀ {ps : List Nat} {m1 : Vm}, Takes m ps m1 → (∀ p ∈ ps, S p) ∧ Only S m m1 := by
    intro ps m1 htakes
    rcases htakes.facts with ⟨hlist, -, -, hmem, -⟩
    have hin : ∀ p ∈ ps, S p := fun p hp => (hready.free p (by
      rw [hlist]
      exact List.mem_append_left _ (List.mem_reverse.2 hp))).1
    exact ⟨hin, fun q i hq => hmem q (fun hc => hq (hin q hc)) i⟩
  rcases envSetupVm_cases hrun with ⟨-, -, ps, -, htakes⟩ |
    ⟨p, p2, p3, m3, kpdp, kdir, -, htakes, -, -, rfl⟩
  · exact (htaken htakes).2
  · rcases htaken htakes with ⟨hin, honly⟩
    refine Only.setEntry ?_ _ _ (hin p (by simp))
    intro q i hq
    have hq3 : q ≠ p3 := fun hc => hq (hc ▸ hin p3 (by simp))
    simp only [copyEntries]
    rw [if_neg (fun hc => hq3 hc.1)]
    exact ((honly.setEntry _ _ (hin p (by simp))).setEntry _ _ (hin p2 (by simp))) q i hq

end Walk

/-! ## Destruction -/

/-- From `m` to `m'` entries of the tables `T` were erased and no other page was
    touched; `T π p` says that `p` is the table at `π`. What is left still points
    to such tables. -/
structure Pruned (T : List Nat → Nat → Prop) (m m' : Vm) : Prop where
  down : ∀ p π k, T π p → π.length + 1 < 4 → UserIdx π k → m'.mem p k ≠ 0 →
    T (k :: π) (ppn (m'.mem p k))
  other : ∀ q i, (∀ π, ¬T π q) → m'.mem q i = m.mem q i

namespace Pruned

variable {T : List Nat → Nat → Prop} {m m' m2 : Vm} {π : List Nat} {i : Nat}

section

variable (h : Pruned T m m')

include h

theorem of_mem (hmem : m2.mem = m'.mem) : Pruned T m m2 := by
  refine ⟨?_, ?_⟩
  · rw [hmem]; exact h.down
  · rw [hmem]; exact h.other

theorem erase {p : Nat} (k : Nat) (hp : T π p) :
    Pruned T m (m'.setEntry p k 0) := by
  refine ⟨?_, ?_⟩
  · intro q π' i hq hlen hi hne
    rw [setEntry_mem] at hne ⊢
    by_cases hc : q = p ∧ i = k
    · rw [hc.1, hc.2, setSlot_self] at hne
      exact absurd rfl hne
    · rw [not_and_or] at hc
      rw [setSlot_of_ne _ _ hc] at hne ⊢
      exact h.down q π' i hq hlen hi hne
  · intro q i hq
    have hqp : q ≠ p := fun hc => hq π (hc ▸ hp)
    rw [setEntry_mem, setSlot_of_ne _ _ (.inl hqp)]
    exact h.other q i hq

section

variable (hroot : T [] root)
include hroot

/-- Paths from the root lead to tables at these paths. -/
theorem table_of_node :
    ∀ p, OkPath UserIdx π → π.length < 4 → node ppn m'.mem root π = some p → T π p := by
  induction π with
  | nil =>
    intro p _ _ hp
    simp only [node] at hp
    cases hp
    exact hroot
  | cons k π ih =>
    intro p hok hlen hp
    rcases Lib.Radix.node_cons_eq_some.1 hp with ⟨q, hq, hz, rfl⟩
    rw [List.length_cons] at hlen
    exact h.down q π k (ih q hok.1 (by omega) hq) hlen hok.2 hz

theorem pageRemove (hva : va < utop) (hrun : m'.pageRemove root va = some m2) : Pruned T m m2 := by
  rcases m'.pageRemove_cases hrun with ⟨_, hm2⟩ | ⟨pt, hn, _, hm2⟩
  · rw [hm2]; exact h
  · have hpt := h.table_of_node hroot pt (leafPath_ok hva).1 (by simp) hn
    rw [hm2, pageDecref_setEntry]
    exact (h.erase (ptx va) hpt).of_mem (pageDecref_mem _ _)

theorem envFreePt {d pt : Nat} (hi : i < 4)
    (hd : UserIdx [i, 0] d) (hrun : m'.envFreePt root i d pt = some m2) : Pruned T m m2 := by
  refine Lib.forUpto_inv (fun _ m' => Pruned T m m') ?_ m' m2 h hrun
  intro n m3 m4 hn h3 hbody
  split at hbody
  · exact h3.pageRemove hroot (pgaddr_path hi hd (by omega)).1 hbody
  · cases hbody
    exact h3

theorem envFreePgdir {dir : Nat} (hdir : T [i, 0] dir)
    (hi : i < 4) (hrun : m'.envFreePgdir root i dir = some m2) : Pruned T m m2 := by
  refine Lib.forUpto_inv (fun _ m' => Pruned T m m') ?_ m' m2 h hrun
  intro n m3 m4 hn h3 hbody
  rw [show pdx utop = 380 by decide] at hn
  have hidx : UserIdx [i, 0] n := by
    simp only [UserIdx]
    split at hn <;> omega
  split at hbody
  · rcases bind_eq_some_iff.1 hbody with ⟨pt, _, hrest⟩
    rcases bind_eq_some_iff.1 hrest with ⟨m5, hm5, hrest⟩
    rcases map_eq_some_iff.1 hrest with ⟨p, _, hm4⟩
    have h5 := h3.envFreePt hroot hi hidx hm5
    rw [← hm4]
    exact (h5.erase n hdir).of_mem (pageDecref_mem _ _)
  · cases hbody
    exact h3

/-- `env_free` touches only tables of the environment. -/
theorem envFree (hpdp : m'.mem root 0 ≠ 0)
    (hrun : m'.envFree root cr3 = some m2) : Pruned T m m2 := by
  rcases bind_eq_some_iff.1 hrun with ⟨pdp, hkpdp, hrest⟩
  rcases bind_eq_some_iff.1 hrest with ⟨m3, hloop, hrest⟩
  rcases map_eq_some_iff.1 hrest with ⟨p, _, hm2⟩
  have htpdp := h.down root [] 0 hroot (by simp) rfl hpdp
  rw [← m'.kaddr_eq hkpdp] at htpdp
  have h3 : Pruned T m m3 := by
    refine Lib.forUpto_inv (fun _ m' => Pruned T m m') ?_ m' m3 h hloop
    intro n m4 m5 hn h4 hbody
    split at hbody
    · rename_i hpres
      rcases bind_eq_some_iff.1 hbody with ⟨dir, hkdir, hrest⟩
      rcases bind_eq_some_iff.1 hrest with ⟨m6, hm6, hrest⟩
      rcases map_eq_some_iff.1 hrest with ⟨p, _, hm5⟩
      have hne := ne_zero_of_present hpres
      have htdir := h4.down pdp [0] n htpdp (by simp) hn hne
      rw [← m4.kaddr_eq hkdir] at htdir
      have h6 := h4.envFreePgdir hroot htdir hn hm6
      rw [← hm5]
      exact (h6.erase n htpdp).of_mem (pageDecref_mem _ _)
    · cases hbody
      exact h4
  rw [← hm2]
  refine Pruned.of_mem ?_ (pageDecref_mem _ _)
  exact (h3.of_mem (pageDecref_mem m3 p)).erase 0 hroot

end

end

end Pruned

/-- `env_free` writes to the tables of its address space. -/
theorem envFree_only (m : Vm) (hpdp : m.mem root 0 ≠ 0) {m' : Vm}
    (hrun : m.envFree root cr3 = some m') : Only (m.IsTable root) m m' := by
  have hstart : Pruned (fun π p => OkPath UserIdx π ∧ π.length < 4 ∧
      node ppn m.mem root π = some p) m m := by
    refine ⟨?_, fun _ _ _ => rfl⟩
    intro p π k hp hlen hk hne
    exact ⟨⟨hp.1, hk⟩, hlen, (m.isTable_next root p k π ⟨hp.1, hk⟩ (by omega) hp.2.2 hne).1⟩
  have hend := hstart.envFree ⟨trivial, by simp, rfl⟩ hpdp hrun
  intro q i hq
  exact hend.other q i fun π hT => hq ⟨π, hT⟩

/-- `page_remove` writes to the page table. -/
theorem pageRemove_only (m : Vm) (hva : va < utop) {m' : Vm}
    (hrun : m.pageRemove root va = some m') : Only (m.IsTable root) m m' := by
  rcases m.pageRemove_cases hrun with ⟨_, hm'⟩ | ⟨pt, hn, _, hm'⟩
  · rw [hm']
    exact .refl m
  · rw [hm', pageDecref_setEntry]
    refine Only.of_mem ?_ (pageDecref_mem _ _)
    exact (Only.refl m).setEntry _ _ ⟨ptPath va, (leafPath_ok hva).1, by simp [ptPath], hn⟩

end Vm

end Jos
