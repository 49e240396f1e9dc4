import Jos.Core.Pmap

/-!
# The Page-Table Walk

All page-table operations go through `pml4e_walk`, which may build up to three
tables on its way and takes them back when it runs out of memory. `Descent` says
once what a walk can do. A walk that finds nothing leaves all as it was, but for
the bytes of free pages; for a walk that finds its page table there is a rule for
any invariant of labelled page tables that survives a new table below an empty
slot. The operations on mappings then start from the page table that was found.

## Main definitions

* `Label`: Which page is which table of which environment.
* `Vm.newTable`, `Vm.undoTable`: What a walk does to the memory.
* `Vm.Descent`: What a walk can do.
* `Vm.Undone`: A walk has taken back what it did.
* `WalkInv`: The invariants a walk keeps.
* `Vm.Inserted`: What `page_insert` does once it has the page table.

## Theorems

* `pml4eWalk_descent`: The walk is a descent.
* `Descent.undone`: A descent that finds nothing.
* `pml4eWalk_rule`: The walk keeps the invariant and finds the page table.
* `pml4eWalk_keep`: A walk that may not build tables changes nothing.
* `pageLookup_cases`, `pageRemove_cases`, `pageInsert_cases`: The operations.
-/

namespace Jos

open Lib.Radix (Tree setSlot clearPage clearPage_of_ne clearPage_self entry node setSlot_of_ne
  setSlot_self setSlot_setSlot)
open Option (bind_eq_some_iff bind_some map_eq_some_iff some.injEq)
open Function (update update_self update_of_ne)

variable {t k p root va e : Nat} {rest ks π path : List Nat} {r : Option Nat} {m' m : Vm}
  {next : Vm → Nat → Option (Option Nat × Vm)}

/-- Which page is which table of which environment; the path of a table is
    deepest index first. -/
abbrev Label := Nat → Option (Nat × List Nat)

/-- The path of the page table for `va`. -/
def ptPath (va : Nat) : List Nat := [pdx va, pdpe va, pml4 va]

theorem leafPath_eq (va : Nat) : leafPath va = ptx va :: ptPath va := rfl

namespace Vm

/-- Hang the free page `p` below slot `k` of the table `t`, as the walk does. -/
def newTable (m : Vm) (t k p : Nat) (rest : List Nat) : Vm :=
  ((({ m with pageFreeList := rest } : Vm).setRef p (m.ppRef p + 1)).setEntry t k
    (page2pa p ||| 7)).zeroPage p

/-- Take the table `p` away again. -/
def undoTable (m : Vm) (t k p : Nat) : Vm :=
  ((m.setEntry t k 0).setRef p 0).pageFree p

theorem kaddr_eq (m : Vm) {w : Pte} {q : Nat} (h : m.kaddr w = some q) : q = ppn w := by
  unfold kaddr at h
  split at h
  · exact (Option.some.inj h).symm
  · cases h

variable {zero : Bool}

theorem pageAlloc_none (m : Vm) {m' : Vm} (h : m.pageAlloc zero = (none, m')) : m' = m := by
  unfold pageAlloc at h
  split at h
  · exact (Prod.mk.inj h).2.symm
  · exact absurd (Prod.mk.inj h).1 (by simp)

/-- `page_alloc` takes the first page of the free list. -/
theorem pageAlloc_some (m : Vm) {m' : Vm} (hrun : m.pageAlloc zero = (some p, m')) :
    m.pageFreeList = p :: m'.pageFreeList ∧ m'.npages = m.npages ∧ m'.ppRef = m.ppRef ∧
      (∀ q, q ≠ p → ∀ i, m'.mem q i = m.mem q i) ∧ (zero = true → ∀ i, m'.mem p i = 0) := by
  unfold pageAlloc at hrun
  cases hlist : m.pageFreeList with
  | nil =>
    rw [hlist] at hrun
    cases hrun
  | cons q rest =>
    rw [hlist] at hrun
    simp only [Prod.mk.injEq, some.injEq] at hrun
    rcases hrun with ⟨rfl, rfl⟩
    cases zero with
    | false => exact ⟨rfl, rfl, rfl, fun _ _ _ => rfl, fun hc => by cases hc⟩
    | true =>
      refine ⟨rfl, rfl, rfl, ?_, fun _ i => clearPage_self m.mem q i⟩
      exact fun r hr i => clearPage_of_ne m.mem i hr

@[simp] theorem pageFree_mem (m : Vm) (p : Nat) : (m.pageFree p).mem = m.mem := by
  unfold pageFree
  split
  · rfl
  · split <;> rfl

@[simp] theorem pageFree_ppRef (m : Vm) (p : Nat) : (m.pageFree p).ppRef = m.ppRef := by
  unfold pageFree
  split
  · rfl
  · split <;> rfl

@[simp] theorem pageFree_npages (m : Vm) (p : Nat) : (m.pageFree p).npages = m.npages := by
  unfold pageFree
  split
  · rfl
  · split <;> rfl

@[simp] theorem pageDecref_mem (m : Vm) (p : Nat) : (m.pageDecref p).mem = m.mem := by
  unfold pageDecref
  simp only
  split <;> simp

@[simp] theorem pageDecref_ppRef (m : Vm) (p : Nat) :
    (m.pageDecref p).ppRef = update m.ppRef p (m.ppRef p - 1) := by
  unfold pageDecref
  simp only
  split <;> simp

@[simp] theorem pageDecref_npages (m : Vm) (p : Nat) : (m.pageDecref p).npages = m.npages := by
  unfold pageDecref
  simp only
  split <;> simp

/-- Erasing an entry and dropping a reference do not get in each other's way. -/
theorem pageDecref_setEntry (m : Vm) (p q k : Nat) (v : Pte) :
    (m.pageDecref p).setEntry q k v = (m.setEntry q k v).pageDecref p := by
  unfold pageDecref pageFree
  simp only [setEntry_ppRef, setRef_ppRef, setRef_pageFreeList, setEntry_pageFreeList,
    update_self]
  by_cases hz : m.ppRef p - 1 = 0
  · by_cases hm : p ∈ m.pageFreeList
    · simp only [if_pos hz, if_neg (not_not.2 hz), hm, if_true]
      rfl
    · simp only [if_pos hz, if_neg (not_not.2 hz), hm, if_false]
      rfl
  · simp only [if_neg hz]
    rfl

@[simp] theorem undoTable_mem (m : Vm) (t k p : Nat) :
    (m.undoTable t k p).mem = setSlot m.mem t k 0 := by
  simp [undoTable]

theorem newTable_mem (m : Vm) {t p : Nat} (k : Nat) (rest : List Nat) (h : t ≠ p) :
    (m.newTable t k p rest).mem = setSlot (clearPage m.mem p) t k (page2pa p ||| 7) := by
  funext q i
  simp only [newTable, zeroPage_mem, setEntry_mem, setRef_mem, setSlot, clearPage]
  by_cases hq : q = p
  · rw [if_pos hq, if_neg (fun hc => h (hc.1.symm.trans hq)), if_pos hq]
  · rw [if_neg hq, if_neg hq]

/-- A level that builds a table: the rest of the walk runs below the new table,
    which is taken away if the walk finds nothing. -/
theorem walkLevel_new (m : Vm) (hz : m.mem t k = 0) (hfree : m.pageFreeList = p :: rest)
    (htp : t ≠ p) (hp : p < 2 ^ 52) {m' : Vm} (hrun : m.walkLevel t k true next = some (r, m')) :
    ∃ r2 m2, next (m.newTable t k p rest) p = some (r2, m2) ∧ r = r2 ∧
      m' = if r2 = none then m2.undoTable t k p else m2 := by
  have hslot : (m.newTable t k p rest).mem t k = page2pa p ||| 7 := by
    rw [newTable_mem m k rest htp, setSlot_self]
  unfold walkLevel at hrun
  simp only [if_pos hz, pageAlloc, hfree, Bool.not_true, Bool.false_eq_true, if_false] at hrun
  rcases bind_eq_some_iff.1 hrun with ⟨t', ht', hrest⟩
  change (m.newTable t k p rest).kaddr ((m.newTable t k p rest).mem t k) = some t' at ht'
  rw [hslot, kaddr, ppn_mk hp (by decide)] at ht'
  split at ht'
  · cases ht'
    rcases map_eq_some_iff.1 hrest with ⟨⟨r2, m2⟩, hr2, hout⟩
    refine ⟨r2, m2, hr2, ?_⟩
    cases r2 with
    | none => simp only [Prod.mk.injEq] at hout; exact ⟨hout.1.symm, hout.2.symm⟩
    | some pt => simp only [Prod.mk.injEq] at hout; exact ⟨hout.1.symm, hout.2.symm⟩
  · cases ht'

/-- What a walk from the table `t` along the slots `ks` can do. A table that it has
    built is taken away again if the walk finds nothing below it. Nothing is said
    where the first page of the free list is no page or the table itself. -/
inductive Descent : Vm → Nat → List Nat → Option Nat → Vm → Prop
  | found (m : Vm) (t : Nat) : Descent m t [] (some t) m
  | stop {m : Vm} {t k : Nat} {ks : List Nat} (hz : m.mem t k = 0) : Descent m t (k :: ks) none m
  | down {m : Vm} {t k : Nat} {ks : List Nat} {r : Option Nat} {m' : Vm} (hne : m.mem t k ≠ 0)
      (h : Descent m (ppn (m.mem t k)) ks r m') : Descent m t (k :: ks) r m'
  | build {m : Vm} {t k p : Nat} {ks rest : List Nat} {pt : Nat} {m' : Vm} (hz : m.mem t k = 0)
      (hlist : m.pageFreeList = p :: rest) (htp : t ≠ p) (hlt : p < 2 ^ 52)
      (h : Descent (m.newTable t k p rest) p ks (some pt) m') : Descent m t (k :: ks) (some pt) m'
  | undo {m : Vm} {t k p : Nat} {ks rest : List Nat} {m' : Vm} (hz : m.mem t k = 0)
      (hlist : m.pageFreeList = p :: rest) (htp : t ≠ p) (hlt : p < 2 ^ 52)
      (h : Descent (m.newTable t k p rest) p ks none m') :
      Descent m t (k :: ks) none (m'.undoTable t k p)
  | wild {m : Vm} {t k p : Nat} {ks rest : List Nat} {r : Option Nat} {m' : Vm}
      (hlist : m.pageFreeList = p :: rest) (hbad : t = p ∨ 2 ^ 52 ≤ p) : Descent m t (k :: ks) r m'

/-- One level of the walk. -/
theorem walkLevel_descent (hnext : ∀ m1 t1 r m', next m1 t1 = some (r, m') → Descent m1 t1 ks r m')
    (hrun : m.walkLevel t k true next = some (r, m')) : Descent m t (k :: ks) r m' := by
  by_cases hz : m.mem t k = 0
  · cases hlist : m.pageFreeList with
    | nil =>
      simp only [walkLevel, if_pos hz, pageAlloc, hlist, Bool.not_true, Bool.false_eq_true,
        if_false] at hrun
      cases hrun
      exact .stop hz
    | cons p rest =>
      by_cases hbad : t = p ∨ 2 ^ 52 ≤ p
      · exact .wild hlist hbad
      · rw [not_or, not_le] at hbad
        rcases m.walkLevel_new hz hlist hbad.1 hbad.2 hrun with
          ⟨r2, m2, hr2, rfl, hm'⟩
        have hrest := hnext _ p r m2 hr2
        cases r with
        | none =>
          rw [if_pos rfl] at hm'
          rw [hm']
          exact .undo hz hlist hbad.1 hbad.2 hrest
        | some pt =>
          rw [if_neg (by simp)] at hm'
          rw [hm']
          exact .build hz hlist hbad.1 hbad.2 hrest
  · rw [walkLevel, if_neg hz] at hrun
    rcases bind_eq_some_iff.1 hrun with ⟨t', ht', hrest⟩
    rw [m.kaddr_eq ht'] at hrest
    exact .down hz (hnext m _ r m' hrest)

/-- The three levels of the walk. -/
theorem pml4eWalk_descent (m : Vm) {m' : Vm} (hrun : m.pml4eWalk root va true = some (r, m')) :
    Descent m root [pml4 va, pdpe va, pdx va] r m' := by
  refine walkLevel_descent ?_ hrun
  intro m1 t1 r1 m1'
  refine walkLevel_descent ?_
  intro m2 t2 r2 m2'
  refine walkLevel_descent ?_
  intro m3 t3 r3 m3' hend
  cases hend
  exact .found m3 t3

/-! ## Walks that find nothing -/

/-- The free list is as before, and so is every page that is not on it. -/
structure Undone (m m' : Vm) : Prop where
  free : m'.pageFreeList = m.pageFreeList
  npages : m'.npages = m.npages
  refs : ∀ q, m'.ppRef q = m.ppRef q ∨ (q ∈ m.pageFreeList ∧ m'.ppRef q = 0)
  mem : ∀ q, q ∉ m.pageFreeList → ∀ i, m'.mem q i = m.mem q i

theorem Undone.refl (m : Vm) : Undone m m := ⟨rfl, rfl, fun _ => .inl rfl, fun _ _ _ => rfl⟩

/-- Taking the new table away undoes the allocation: the entry was empty, and the
    page goes back to the front of the list. -/
theorem Undone.undoTable {m2 : Vm} (hlist : m.pageFreeList = p :: rest) (hnew : p ∉ rest)
    (htp : t ≠ p) (hz : m.mem t k = 0) (h : Undone (m.newTable t k p rest) m2) :
    Undone m (m2.undoTable t k p) := by
  have hlist2 : m2.pageFreeList = rest := h.free
  have href : (m2.undoTable t k p).ppRef = update m2.ppRef p 0 := by
    simp [Vm.undoTable]
  refine ⟨?_, ?_, ?_, ?_⟩
  · simp [Vm.undoTable, pageFree, hlist2, hnew, hlist]
  · rw [Vm.undoTable, pageFree_npages]
    exact h.npages
  · intro q
    rw [href, hlist, List.mem_cons]
    by_cases hq : q = p
    · rw [hq, update_self]
      exact .inr ⟨.inl rfl, rfl⟩
    · rw [update_of_ne hq]
      refine (h.refs q).imp (fun hr => ?_) (fun hr => ⟨.inr hr.1, hr.2⟩)
      rw [hr]
      exact update_of_ne hq _ _
  · intro q hq i
    rw [hlist, List.mem_cons, not_or] at hq
    rw [undoTable_mem]
    by_cases hs : q = t ∧ i = k
    · rw [hs.1, hs.2, setSlot_self, hz]
    · rw [not_and_or] at hs
      rw [setSlot_of_ne _ _ hs, h.mem q hq.2 i, newTable_mem m k rest htp,
        setSlot_of_ne _ _ hs, clearPage_of_ne _ _ hq.1]

/-- The pages that the slots `ks` lead through from `t` are in `S` and not free. -/
def PathIn (S : Nat → Prop) (m : Vm) : Nat → List Nat → Prop
  | t, [] => S t
  | t, k :: ks => S t ∧ t ∉ m.pageFreeList ∧
      (m.mem t k ≠ 0 → PathIn S m (ppn (m.mem t k)) ks)

/-- The free pages are in `S`, and each is on the list once. -/
structure Ready (S : Nat → Prop) (m : Vm) : Prop where
  free : ∀ p, p ∈ m.pageFreeList → S p ∧ p < 2 ^ 52
  nodup : m.pageFreeList.Nodup

section Ready

variable {S : Nat → Prop} {m : Vm}

theorem Ready.head (h : Ready S m) (hlist : m.pageFreeList = p :: rest) :
    S p ∧ p < 2 ^ 52 ∧ p ∉ rest := by
  have hnd := h.nodup
  rw [hlist, List.nodup_cons] at hnd
  have hp := h.free p (hlist ▸ List.mem_cons_self)
  exact ⟨hp.1, hp.2, hnd.1⟩

theorem Ready.newTable (h : Ready S m) (hlist : m.pageFreeList = p :: rest) (t k : Nat) :
    Ready S (m.newTable t k p rest) := by
  have hnd := h.nodup
  rw [hlist, List.nodup_cons] at hnd
  exact ⟨fun q hq => h.free q (hlist ▸ List.mem_cons_of_mem p hq), hnd.2⟩

/-- A new table leads nowhere. -/
theorem Ready.pathIn_newTable (h : Ready S m) (hlist : m.pageFreeList = p :: rest) (htp : t ≠ p)
    (ks : List Nat) :
    PathIn S (m.newTable t k p rest) p ks := by
  rcases h.head hlist with ⟨hp, -, hnew⟩
  cases ks with
  | nil => exact hp
  | cons k' ks =>
    refine ⟨hp, hnew, fun hne => absurd ?_ hne⟩
    rw [newTable_mem m k rest htp,
      setSlot_of_ne _ _ (.inl htp.symm), clearPage_self]

/-- The first free page is a page and not on the way. -/
theorem Ready.not_wild (h : Ready S m) (hpath : PathIn S m t (k :: ks))
    (hlist : m.pageFreeList = p :: rest) :
    ¬(t = p ∨ 2 ^ 52 ≤ p) := by
  rintro (hc | hc)
  · refine hpath.2.1 ?_
    rw [hlist, hc]
    exact List.mem_cons_self
  · exact absurd (h.head hlist).2.1 (not_lt.2 hc)

/-- A walk that finds nothing takes back all it has done. -/
theorem Descent.undone (h : Descent m t ks r m') :
    r = none → Ready S m → PathIn S m t ks → Undone m m' := by
  induction h with
  | found m t => exact fun hc => by cases hc
  | stop hz => exact fun _ _ _ => Undone.refl _
  | down hne _ ih => exact fun hr hready hpath => ih hr hready (hpath.2.2 hne)
  | build hz hlist htp hlt _ ih => exact fun hc => by cases hc
  | undo hz hlist htp hlt _ ih =>
    intro _ hready _
    exact Undone.undoTable hlist (hready.head hlist).2.2 htp hz
      (ih rfl (hready.newTable hlist _ _) (hready.pathIn_newTable hlist htp _))
  | wild hlist hbad => exact fun _ hready hpath => absurd hbad (hready.not_wild hpath hlist)

end Ready
end Vm

/-! ## Walks in labelled tables -/

variable {l : Label}

/-- A new table below an empty slot. The page is blanked first, which no other
    table notices. -/
theorem tree_newTable {roots : Nat → Option Nat} (h : Tree 4 UserIdx ppn roots m.mem l)
    (rest : List Nat) (ht : l t = some (e, π)) (hlen : π.length + 1 < 4) (hk : UserIdx π k)
    (hz : m.mem t k = 0) (hp : l p = none) (hlt : p < 2 ^ 52) :
    Tree 4 UserIdx ppn roots (m.newTable t k p rest).mem
      (update l p (some (e, k :: π))) ∧
    ∀ e' π', Lib.Radix.OkPath UserIdx π' → π'.length ≤ 4 →
      entry ppn roots (m.newTable t k p rest).mem (e', π') =
        update (entry ppn roots m.mem) (e, k :: π) (page2pa p ||| 7)
          (e', π') := by
  have hne : ∀ q x, l q = some x → q ≠ p := by
    intro q x hq hc
    rw [hc, hp] at hq
    cases hq
  have hclear : ∀ q e' π' i, l q = some (e', π') → UserIdx π' i →
      clearPage m.mem p q i = m.mem q i := fun q e' π' i hq _ =>
    clearPage_of_ne m.mem i (hne q _ hq)
  have htree := h.congr hclear
  have hz' : clearPage m.mem p t k = 0 := by
    rwa [clearPage_of_ne m.mem k (hne t _ ht)]
  have hv : page2pa p ||| 7 ≠ 0 := or_ne_zero _ (by decide)
  have hptr : ppn (page2pa p ||| 7) = p := ppn_mk hlt (by decide)
  have hblank := clearPage_self m.mem p
  rw [m.newTable_mem k rest (hne t _ ht)]
  refine ⟨htree.addChild ht hlen hk hz' hv hptr hp hblank, ?_⟩
  intro e' π' hok hlen'
  rw [htree.entry_addChild ht hlen hk hz' hv hptr hp hblank e' hok hlen']
  by_cases hx : (e', π') = (e, k :: π)
  · rw [hx, update_self, update_self]
  · rw [update_of_ne hx, update_of_ne hx, h.entry_congr hclear e' hok hlen']

/-- The invariants a walk keeps: they contain the tree of tables, the free pages
    are not among the tables, and a new table below an empty slot keeps them. -/
structure WalkInv (roots : Nat → Option Nat) (J : Label → Vm → Prop) : Prop where
  tree : ∀ l m, J l m → Tree 4 UserIdx ppn roots m.mem l
  fresh : ∀ l m, J l m → m.pageFreeList.Nodup ∧ ∀ p ∈ m.pageFreeList, l p = none ∧ p < 2 ^ 52
  newTable : ∀ l m e π t k p rest, J l m → l t = some (e, π) → π.length + 1 < 4 → UserIdx π k →
    m.mem t k = 0 → m.pageFreeList = p :: rest →
    J (update l p (some (e, k :: π))) (m.newTable t k p rest)

/-- The result `r` and memory `m'` of a walk for the table at `path` that starts
    with the labels `l` and the memory `m`: tables stay tables, and if none is
    found memory is as before. -/
def Walked (J : Label → Vm → Prop) (l : Label) (m : Vm) (e : Nat) (path : List Nat)
    (r : Option Nat) (m' : Vm) : Prop :=
  match r with
  | some pt => ∃ l', J l' m' ∧ (∀ q x, l q = some x → l' q = some x) ∧ l' pt = some (e, path)
  | none => m.Undone m'

section Rules

variable {roots : Nat → Option Nat} {J : Label → Vm → Prop}

/-- A walk from a table goes along the labels. -/
theorem Vm.Descent.walked (W : WalkInv roots J) (hok : Lib.Radix.OkPath UserIdx path)
    (hlen : path.length < 4) (h : m.Descent t ks r m') :
    ∀ l π, J l m → l t = some (e, π) → ks.reverse ++ π = path → Walked J l m e path r m' := by
  -- the slot in hand is one of the path
  have hslot : ∀ k ks π, (k :: ks).reverse ++ π = path →
      ks.reverse ++ k :: π = path ∧ UserIdx π k ∧ π.length + 1 < 4 := by
    intro k ks π hpath
    rw [List.reverse_cons, List.append_assoc, List.singleton_append] at hpath
    refine ⟨hpath, ?_, ?_⟩
    · rw [← hpath] at hok
      exact (Lib.Radix.OkPath.of_append hok).2
    · rw [← hpath, List.length_append, List.length_cons] at hlen
      omega
  have hne : ∀ l m p rest, J l m → m.pageFreeList = p :: rest → ∀ q x, l q = some x → q ≠ p := by
    intro l m p rest hJ hlist q x hq hc
    rw [hc, ((W.fresh l m hJ).2 p (hlist ▸ List.mem_cons_self)).1] at hq
    cases hq
  induction h with
  | found m t =>
    intro l π hJ ht hpath
    exact ⟨l, hJ, fun _ _ h => h, hpath ▸ ht⟩
  | stop hz => exact fun _ _ _ _ _ => Vm.Undone.refl _
  | down hz _ ih =>
    intro l π hJ ht hpath
    rcases hslot _ _ _ hpath with ⟨hpath', hk, hshort⟩
    exact ih l _ hJ ((W.tree l _ hJ).down _ e π _ ht hshort hk hz) hpath'
  | build hz hlist htp hlt _ ih =>
    intro l π hJ ht hpath
    rcases hslot _ _ _ hpath with ⟨hpath', hk, hshort⟩
    rcases ih _ _ (W.newTable l _ e π _ _ _ _ hJ ht hshort hk hz hlist) (update_self ..)
      hpath' with ⟨l', hJ', hext, hpt⟩
    refine ⟨l', hJ', fun q x hq => hext q x ?_, hpt⟩
    rw [update_of_ne (hne l _ _ _ hJ hlist q x hq), hq]
  | undo hz hlist htp hlt _ ih =>
    intro l π hJ ht hpath
    rcases hslot _ _ _ hpath with ⟨hpath', hk, hshort⟩
    have hnd := (W.fresh l _ hJ).1
    rw [hlist, List.nodup_cons] at hnd
    exact Vm.Undone.undoTable hlist hnd.1 htp hz (ih _ _
      (W.newTable l _ e π _ _ _ _ hJ ht hshort hk hz hlist) (update_self ..) hpath')
  | wild hlist hbad =>
    intro l π hJ ht _
    rcases hbad with hc | hc
    · exact absurd hc (hne l _ _ _ hJ hlist _ _ ht)
    · have hp := (W.fresh l _ hJ).2 _ (hlist ▸ List.mem_cons_self)
      exact absurd hp.2 (not_lt.2 hc)

/-- The walk below `UTOP`: if it finds a page table it is the one for `va`. -/
theorem pml4eWalk_rule (W : WalkInv roots J) {m : Vm} {root : Nat} (e va : Nat) (hJ : J l m)
    (hroot : roots e = some root) (hva : va < utop) (r : Option Nat) (m' : Vm)
    (hrun : m.pml4eWalk root va true = some (r, m')) : Walked J l m e (ptPath va) r m' :=
  Vm.Descent.walked W (leafPath_ok hva).1 (by simp)
    (m.pml4eWalk_descent hrun) l [] hJ (((W.tree l m hJ).root e root).1 hroot) rfl

end Rules

/-! ## Looking without building -/

namespace Vm

theorem walkLevel_keep (ht : node ppn m.mem root π = some t)
    (hstop : node ppn m.mem root (k :: π) = none →
      node ppn m.mem root path = none)
    (hnext : ∀ t' r m', node ppn m.mem root (k :: π) = some t' →
      next m t' = some (r, m') → m' = m ∧ r = node ppn m.mem root path)
    (hrun : m.walkLevel t k false next = some (r, m')) :
    m' = m ∧ r = node ppn m.mem root path := by
  unfold walkLevel at hrun
  by_cases hz : m.mem t k = 0
  · have hno : node ppn m.mem root (k :: π) = none := by
      simp only [node, ht, bind_some, if_pos hz]
    simp only [if_pos hz, Bool.not_false, if_true, some.injEq, Prod.mk.injEq] at hrun
    rw [hstop hno]
    exact ⟨hrun.2.symm, hrun.1.symm⟩
  · rw [if_neg hz] at hrun
    rcases bind_eq_some_iff.1 hrun with ⟨t', ht', hrest⟩
    unfold kaddr at ht'
    split at ht'
    · rw [some.injEq] at ht'
      refine hnext t' r m' ?_ hrest
      simp only [node, ht, bind_some, if_neg hz, ht']
    · cases ht'

/-- A walk that may not build tables finds the node of the tree. -/
theorem pml4eWalk_keep (m : Vm) {m' : Vm} (hrun : m.pml4eWalk root va false = some (r, m')) :
    m' = m ∧ r = node ppn m.mem root (ptPath va) := by
  have hcons : ∀ k π, node ppn m.mem root π = none →
      node ppn m.mem root (k :: π) = none := by
    intro k π h
    simp only [node, h, Option.bind_none]
  refine walkLevel_keep rfl (fun h => hcons _ _ (hcons _ _ h)) ?_ hrun
  intro t1 r1 m1 ht1
  refine walkLevel_keep ht1 (fun h => hcons _ _ h) ?_
  intro t2 r2 m2 ht2
  refine walkLevel_keep ht2 id ?_
  intro t3 r3 m3 ht3 hend
  simp only [some.injEq, Prod.mk.injEq] at hend
  exact ⟨hend.2.symm, hend.1 ▸ ht3.symm⟩

/-- Where the hardware's translation succeeds the kernel's walk finds the same
    entry. -/
theorem translate_node (m : Vm) {w : Pte} {b1 b2 : Bool}
    (h : m.translate root va = some (w, b1, b2)) :
    ∃ pt, node ppn m.mem root (ptPath va) = some pt ∧ w = m.mem pt (ptx va) ∧
      hasFlags w pteP = true := by
  simp only [translate, bind_eq_some_iff, map_eq_some_iff,
    Option.ite_none_right_eq_some, some.injEq, Prod.mk.injEq] at h
  rcases h with ⟨_, ⟨h1, rfl⟩, _, ⟨h2, rfl⟩, _, ⟨h3, rfl⟩, _, ⟨h4, rfl⟩, rfl, -⟩
  refine ⟨_, ?_, rfl, h4⟩
  simp only [ptPath, node, bind_some, if_neg (ne_zero_of_present h1),
    if_neg (ne_zero_of_present h2), if_neg (ne_zero_of_present h3)]

/-- `page_lookup` reads the entry from the page table, if there is one. -/
theorem pageLookup_cases (m : Vm) {r : Option (Nat × Nat)} (hrun : m.pageLookup root va = some r) :
    (node ppn m.mem root (ptPath va) = none ∧ r = none) ∨
    ∃ pt, node ppn m.mem root (ptPath va) = some pt ∧
      ppn (m.mem pt (ptx va)) < m.npages ∧ r = some (ppn (m.mem pt (ptx va)), pt) := by
  unfold pageLookup at hrun
  rcases bind_eq_some_iff.1 hrun with ⟨⟨o, m'⟩, hwalk, hrest⟩
  rcases pml4eWalk_keep m hwalk with ⟨_, ho⟩
  cases o with
  | none =>
    simp only [some.injEq] at hrest
    exact .inl ⟨ho.symm, hrest.symm⟩
  | some pt =>
    rcases map_eq_some_iff.1 hrest with ⟨p, hp, hr⟩
    unfold pa2page at hp
    rcases Option.ite_none_right_eq_some.1 hp with ⟨hlt, hp⟩
    rw [some.injEq] at hp
    exact .inr ⟨pt, ho.symm, hlt, by rw [← hr, hp]⟩

/-- `page_remove` drops the reference of the entry, if there is a page table,
    whatever the entry holds. -/
theorem pageRemove_cases (m : Vm) {m' : Vm} (hrun : m.pageRemove root va = some m') :
    (node ppn m.mem root (ptPath va) = none ∧ m' = m) ∨
    ∃ pt, node ppn m.mem root (ptPath va) = some pt ∧
      ppn (m.mem pt (ptx va)) < m.npages ∧
      m' = (m.pageDecref (ppn (m.mem pt (ptx va)))).setEntry pt (ptx va) 0 := by
  unfold pageRemove at hrun
  rcases map_eq_some_iff.1 hrun with ⟨r, hr, hm'⟩
  rcases pageLookup_cases m hr with ⟨hn, rfl⟩ | ⟨pt, hn, hlt, rfl⟩
  · exact .inl ⟨hn, hm'.symm⟩
  · exact .inr ⟨pt, hn, hlt, hm'.symm⟩

/-- The entry `page_insert` leaves for the page `pp`. -/
def insertedEntry (pp : Nat) (perm : BitVec 32) : Pte := page2pa pp ||| (perm ||| 1).signExtend 64

/-- What `page_insert` does to the page table `pt` once the walk has found it:
    the same page gets new flags, or a new page goes to an empty slot, or the
    old page goes first. -/
def Inserted (m : Vm) (root pt pp va : Nat) (perm : BitVec 32) (m' : Vm) : Prop :=
  (pteAddr (m.mem pt (ptx va)) = page2pa pp ∧
    m' = m.setEntry pt (ptx va) (insertedEntry pp perm)) ∨
  (pteAddr (m.mem pt (ptx va)) ≠ page2pa pp ∧ ∃ m2,
    ((m.mem pt (ptx va) = 0 ∧ m2 = m) ∨
      (m.mem pt (ptx va) ≠ 0 ∧ m.pageRemove root va = some m2)) ∧
    m' = (m2.setRef pp (m2.ppRef pp + 1)).setEntry pt (ptx va) (insertedEntry pp perm))

theorem pageInsert_cases (m : Vm) {pp : Nat} {perm : BitVec 32} {r : Int} {m' : Vm}
    (hrun : m.pageInsert root pp va perm = some (r, m')) :
    ∃ o m1, m.pml4eWalk root va true = some (o, m1) ∧
      match o with
      | none => r = eNoMem ∧ m' = m1
      | some pt => r = 0 ∧ m1.Inserted root pt pp va perm m' := by
  unfold pageInsert at hrun
  rcases bind_eq_some_iff.1 hrun with ⟨⟨o, m1⟩, hwalk, hrest⟩
  refine ⟨o, m1, hwalk, ?_⟩
  cases o with
  | none =>
    simp only [some.injEq, Prod.mk.injEq] at hrest
    exact ⟨hrest.1.symm, hrest.2.symm⟩
  | some pt =>
    simp only [map_eq_some_iff, Prod.mk.injEq] at hrest
    rcases hrest with ⟨m3, hm3, hr, hm'⟩
    refine ⟨hr.symm, ?_⟩
    rw [← hm']
    by_cases hsame : pteAddr (m1.mem pt (ptx va)) = page2pa pp
    · rw [if_neg (not_not.2 hsame), some.injEq] at hm3
      refine .inl ⟨hsame, ?_⟩
      rw [← hm3]
      simp only [setEntry, setSlot_setSlot, setSlot_self, hsame,
        insertedEntry]
    · rw [if_pos hsame, map_eq_some_iff] at hm3
      rcases hm3 with ⟨m2, hm2, hm3⟩
      refine .inr ⟨hsame, m2, ?_, ?_⟩
      · by_cases hz : m1.mem pt (ptx va) = 0
        · rw [if_neg (not_not.2 hz), some.injEq] at hm2
          exact .inl ⟨hz, hm2.symm⟩
        · rw [if_pos hz] at hm2
          exact .inr ⟨hz, hm2⟩
      · rw [← hm3]
        simp only [setEntry, setRef, setSlot_setSlot, setSlot_self,
          insertedEntry]

end Vm
end Jos
