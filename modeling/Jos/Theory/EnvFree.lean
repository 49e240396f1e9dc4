import Jos.Theory.AddrSpace

/-!
# What `env_free` Gives Back

`env_free` walks over the tree of one environment with three nested loops, drops
the reference of every entry that it visits and takes the tables away. The loops
stop one short: the innermost at `PTX(~0)`, the one over a directory at
`PDX(0xFFFFFFFF)`, both of which are 511. What they leave out keeps its
reference.

The state in the middle of the loops is described by the set of paths whose
entries have been dropped so far. The pages of the tree are labelled with their
paths once, at the start: `env_free` changes nothing but slots of these pages, so
that no labels have to be kept up to date.

## Main definitions

* `Vm.TableAt`, `Vm.treeCount`: The tables of a tree, and the number of entries
  that point to a page.
* `Vm.TailFree`: Nothing of an environment is where `env_free` does not look.
* `Vm.EnvTree`: The trees that `env_free` is called with.
* `Vm.Released`: A set of paths has been dropped.
* `Vm.visited`: The paths that the loops reach.
* `Vm.Gone`: The tree of one environment among others has been taken away.

## Theorems

* `Released.drop`, `Released.skip`: One entry.
* `released_pt`, `released_pgdir`, `released_dirs`: The loops.
* `envFree_released`: The whole of `env_free`.
* `dropped_visited_iff`: When the visited entries are all entries.
* `Wf.envFree`: An address space among others is given back.
-/

namespace Jos

open Lib.Refs (count_congr count_eq_zero)
open Option (bind_some getD_some map_some some.injEq)
open Lib.Radix (Tree node lookup entry OkPath setSlot okPaths)
open Function (update update_self update_of_ne)

/-! ## Counts -/

theorem update_sub_one (r : Nat → BitVec 16) (p q : Nat) :
    update r p (r p - 1) q = r q - (if p = q then 1 else 0) := by
  by_cases hp : p = q
  · rw [hp, update_self, if_pos rfl]
  · rw [update_of_ne (Ne.symm hp), if_neg hp, sub_zero]

theorem update_add_one (r : Nat → BitVec 16) (p q : Nat) :
    update r p (r p + 1) q = r q + (if p = q then 1 else 0) := by
  by_cases hp : p = q
  · rw [hp, update_self, if_pos rfl]
  · rw [update_of_ne (Ne.symm hp), if_neg hp, add_zero]

namespace Vm

/-- Page `p` is the table at the path `π` of the tree. -/
def TableAt (m : Vm) (root : Nat) (π : List Nat) (p : Nat) : Prop :=
  OkPath UserIdx π ∧ π.length < 4 ∧ node ppn m.mem root π = some p

/-- A page is the table at one path only. -/
theorem TableAt.unique {m : Vm} {roots : Nat → Option Nat} {l : Label} {root e p : Nat}
    {π π' : List Nat} (t : Tree 4 UserIdx ppn roots m.mem l) (hroot : roots e = some root)
    (hp : m.TableAt root π p) (hp' : m.TableAt root π' p) : π = π' := by
  have hlab := t.label_of_node e hroot hp.1 hp.2.1 hp.2.2
  rw [t.label_of_node e hroot hp'.1 hp'.2.1 hp'.2.2, some.injEq, Prod.mk.injEq] at hlab
  exact hlab.2.symm

/-- One environment with the tree. -/
def oneRoot (root : Nat) : Nat → Option Nat := fun e => if e = 0 then some root else none

theorem entry_oneRoot (mem : Nat → Nat → Pte) (root : Nat) (π : List Nat) :
    entry ppn (oneRoot root) mem (0, π) = lookup ppn mem root π := rfl

/-- Nothing of the environment `e` is where `env_free` does not look: no page is
    mapped by the last entry of a page table, and there is no page table in the
    last slot of the first three directories. -/
structure TailFree (m : Vm) (roots : Nat → Option Nat) (e : Nat) : Prop where
  page : ∀ i d, i < 4 → UserIdx [i, 0] d → entry ppn roots m.mem (e, [511, d, i, 0]) = 0
  table : ∀ i, i < 3 → entry ppn roots m.mem (e, [511, i, 0]) = 0

/-! ## Counting the entries of a tree -/

/-- The paths of a tree below `UTOP`: the root, the tables and the leaves. -/
@[irreducible] def treePaths : Finset (List Nat) :=
  (Finset.range 5).biUnion (okPaths UserIdx 512)

theorem mem_treePaths (π : List Nat) :
    π ∈ treePaths ↔ OkPath UserIdx π ∧ π.length ≤ 4 := by
  unfold treePaths
  simp only [Finset.mem_biUnion, Finset.mem_range, Lib.Radix.mem_okPaths UserIdx 512 userIdx_lt]
  constructor
  · rintro ⟨n, hn, hlen, hok⟩
    exact ⟨hok, by omega⟩
  · intro h
    exact ⟨π.length, by omega, rfl, h.1⟩

/-- The page that the entry at a path points to; the root is pointed to by the
    environment itself. -/
def refAt (m : Vm) (root : Nat) (π : List Nat) : Option Nat :=
  if π = [] then some root else target (lookup ppn m.mem root π)

/-- The number of entries of the tree that point to a page. -/
def treeCount (m : Vm) (root p : Nat) : Nat := Lib.Refs.count treePaths (m.refAt root) p

variable {π x : List Nat} {root p n k q i pdp : Nat} {R R' : Set (List Nat)}

variable (m : Vm)

/-- The entry above a table points to it. -/
theorem refAt_eq_node
    (hpresent : ∀ π, OkPath UserIdx π → π.length ≤ 4 → lookup ppn m.mem root π ≠ 0 →
      hasFlags (lookup ppn m.mem root π) pteP = true) (hok : OkPath UserIdx π)
    (hlen : π.length ≤ 4) : m.refAt root π = node ppn m.mem root π := by
  cases π with
  | nil => rfl
  | cons k π =>
    have hp := hpresent (k :: π) hok hlen
    rw [refAt, if_neg (by simp)]
    rw [lookup] at hp ⊢
    rw [node]
    cases hn : node ppn m.mem root π with
    | none => exact target_zero
    | some p =>
      rw [hn, map_some, getD_some] at hp
      rw [map_some, getD_some, bind_some]
      by_cases hz : m.mem p k = 0
      · rw [if_pos hz, hz, target_zero]
      · rw [if_neg hz, target_of_present (hp hz)]

/-- Every entry counts. -/
theorem treeCount_pos {root : Nat} (p : Nat) (hx : x ∈ treePaths)
    (href : m.refAt root x = some p) : 0 < m.treeCount root p := by
  rw [Nat.pos_iff_ne_zero, treeCount, ne_eq, count_eq_zero]
  exact fun h => h x hx href

open Classical in
/-- The page that a path in `R` leads to. -/
noncomputable def refIn (m : Vm) (root : Nat) (R : Set (List Nat)) (π : List Nat) : Option Nat :=
  if π ∈ R then m.refAt root π else none

theorem refIn_of_mem (root : Nat) (h : π ∈ R) :
    m.refIn root R π = m.refAt root π := if_pos h

theorem refIn_of_notMem (root : Nat) (R : Set (List Nat)) (π : List Nat) (h : π ∉ R) :
    m.refIn root R π = none := if_neg h

/-- The number of entries at paths in `R` that point to a page. -/
noncomputable def dropped (m : Vm) (root : Nat) (R : Set (List Nat)) (p : Nat) : Nat :=
  Lib.Refs.count treePaths (m.refIn root R) p

/-- The tree of an environment: its tables are distinct pages, its entries are
    present and name pages that exist, and the counts cover them. There is a page
    of directory pointers, since `env_setup_vm` makes one. -/
structure EnvTree (m : Vm) (root : Nat) : Prop where
  distinct : ∀ π π' p, m.TableAt root π p → m.TableAt root π' p → π = π'
  present : ∀ π, OkPath UserIdx π → π.length ≤ 4 → lookup ppn m.mem root π ≠ 0 →
    hasFlags (lookup ppn m.mem root π) pteP = true
  bound : ∀ π, OkPath UserIdx π → π.length ≤ 4 → lookup ppn m.mem root π ≠ 0 →
    ppn (lookup ppn m.mem root π) < m.npages
  pdp : m.mem root 0 ≠ 0
  counts : ∀ p, m.treeCount root p ≤ (m.ppRef p).toNat

theorem dropped_le (root : Nat) (R : Set (List Nat)) (p : Nat) :
    m.dropped root R p ≤ m.treeCount root p := by
  refine Finset.card_le_card ?_
  intro π hπ
  rw [Finset.mem_filter] at hπ ⊢
  refine ⟨hπ.1, ?_⟩
  by_cases hR : π ∈ R
  · rw [← m.refIn_of_mem root hR]
    exact hπ.2
  · have hnone := hπ.2
    rw [m.refIn_of_notMem root R π hR] at hnone
    cases hnone

theorem dropped_empty (root p : Nat) : m.dropped root ∅ p = 0 := by
  rw [dropped, count_eq_zero]
  intro π _
  rw [m.refIn_of_notMem root ∅ π (Set.notMem_empty π)]
  simp

/-- One path more. -/
theorem dropped_insert (root : Nat) (hx : x ∈ treePaths) (hR : x ∉ R) (p : Nat) :
    m.dropped root (insert x R) p =
      m.dropped root R p + if m.refAt root x = some p then 1 else 0 := by
  have hcount := Lib.Refs.count_update (m.refIn root R) (m.refIn root (insert x R)) hx
    (by
      intro y _ hyx
      by_cases hy : y ∈ R
      · rw [m.refIn_of_mem root hy,
          m.refIn_of_mem root (Set.mem_insert_of_mem x hy)]
      · rw [m.refIn_of_notMem root R y hy,
          m.refIn_of_notMem root _ y fun hc => hy (hc.resolve_left hyx)]) p
  rw [m.refIn_of_notMem root R x hR, m.refIn_of_mem root (Set.mem_insert x R),
    if_neg (by simp : ¬ (none : Option Nat) = some p), Nat.add_zero] at hcount
  exact hcount

/-- Paths whose entries point nowhere do not count. -/
theorem dropped_congr {root : Nat} (hsub : R ⊆ R')
    (hnone : ∀ x ∈ treePaths, x ∈ R' → x ∉ R → m.refAt root x = none) (p : Nat) :
    m.dropped root R' p = m.dropped root R p := by
  refine count_congr p ?_
  intro x hx
  by_cases hR : x ∈ R
  · rw [m.refIn_of_mem root hR, m.refIn_of_mem root (hsub hR)]
  · rw [m.refIn_of_notMem root R x hR]
    by_cases hR' : x ∈ R'
    · rw [m.refIn_of_mem root hR', hnone x hx hR' hR]
    · rw [m.refIn_of_notMem root R' x hR']

/-- An entry that was left out is missing from the count. -/
theorem dropped_lt (hx : x ∈ treePaths) (hR : x ∉ R) (hp : m.refAt root x = some p) :
    m.dropped root R p < m.treeCount root p := by
  have hle := m.dropped_le root (insert x R) p
  rw [m.dropped_insert root hx hR p, if_pos hp] at hle
  omega

/-! ## Dropping entries -/

/-- The entries at the paths in `R` of the tree in `m`, whose pages are labelled
    by `l`, have been erased and their references dropped. -/
structure Released (m : Vm) (root : Nat) (l : Label) (R : Set (List Nat)) (m' : Vm) : Prop where
  npages : m'.npages = m.npages
  gone : ∀ q k π, l q = some (0, π) → k :: π ∈ R → m'.mem q k = 0
  kept : ∀ q k, (∀ π, l q = some (0, π) → k :: π ∉ R) → m'.mem q k = m.mem q k
  refs : ∀ p, m'.ppRef p = m.ppRef p - BitVec.ofNat 16 (m.dropped root R p)
  freed : ∀ p, 0 < m.dropped root R p → m'.ppRef p = 0 → p ∈ m'.pageFreeList
  free : ∀ p ∈ m.pageFreeList, p ∈ m'.pageFreeList
  only : ∀ p ∈ m'.pageFreeList, p ∈ m.pageFreeList ∨ (0 < m.dropped root R p ∧ m'.ppRef p = 0)
  nodup : m.pageFreeList.Nodup → m'.pageFreeList.Nodup

/-- A decrement of a count that is not below what it is to cover. -/
theorem toNat_sub_ofNat {v : BitVec 16} (h : n ≤ v.toNat) :
    (v - BitVec.ofNat 16 n).toNat = v.toNat - n := by
  have hv := v.isLt
  rw [BitVec.toNat_sub, BitVec.toNat_ofNat]
  omega

/-- `page_decref` and the free list. -/
theorem pageDecref_pageFreeList (p : Nat) :
    (m.pageDecref p).pageFreeList =
      if m.ppRef p - 1 = 0 ∧ p ∉ m.pageFreeList then p :: m.pageFreeList
      else m.pageFreeList := by
  unfold pageDecref pageFree
  simp only [setRef_ppRef, update_self, setRef_pageFreeList]
  by_cases hz : m.ppRef p - 1 = 0
  · rw [if_pos hz, if_neg (not_not.2 hz)]
    by_cases hp : p ∈ m.pageFreeList
    · simp only [hp, if_true, setRef_pageFreeList, not_true_eq_false, and_false, if_false]
    · simp only [hp, hz, if_false, not_false_eq_true, and_self, if_true]
  · rw [if_neg hz, if_neg fun hc => hz hc.1, setRef_pageFreeList]

theorem mem_pageDecref (p q : Nat) :
    q ∈ (m.pageDecref p).pageFreeList ↔
      q ∈ m.pageFreeList ∨ (q = p ∧ m.ppRef p - 1 = 0) := by
  rw [pageDecref_pageFreeList]
  by_cases hnew : m.ppRef p - 1 = 0 ∧ p ∉ m.pageFreeList
  · rw [if_pos hnew, List.mem_cons, or_comm]
    exact or_congr_right ⟨fun hq => ⟨hq, hnew.1⟩, And.left⟩
  · -- the count is not 0, or the page is free already
    rw [if_neg hnew]
    refine ⟨.inl, fun hq => hq.elim id ?_⟩
    rintro ⟨rfl, hz⟩
    exact not_not.1 fun hp => hnew ⟨hz, hp⟩

theorem nodup_pageDecref {m : Vm} (p : Nat) (h : m.pageFreeList.Nodup) :
    (m.pageDecref p).pageFreeList.Nodup := by
  rw [pageDecref_pageFreeList]
  split
  · next hnew => exact List.nodup_cons.2 ⟨hnew.2, h⟩
  · exact h

namespace Released

variable {m : Vm} {root : Nat} {l : Label} {R : Set (List Nat)} {m1 : Vm}

theorem start (m : Vm) (root : Nat) (l : Label) : Released m root l ∅ m := by
  refine ⟨rfl, fun _ _ _ _ hx => absurd hx (Set.notMem_empty _), fun _ _ _ => rfl, ?_, ?_,
    fun _ hp => hp, fun _ hp => .inl hp, fun h => h⟩
  · intro p
    rw [dropped_empty]
    simp
  · intro p hp
    rw [dropped_empty] at hp
    exact absurd hp (Nat.lt_irrefl 0)

section

variable (h : Released m root l R m1)

include h

/-- The reference of the entry at `x` is dropped, in a memory `m2` from which the
    entry has been erased. -/
theorem decref (ht : m.EnvTree root) (hx : x ∈ treePaths) (hR : x ∉ R)
    (hp : m.refAt root x = some p) {m2 : Vm} (hnpages : m2.npages = m1.npages)
    (hrefs : m2.ppRef = m1.ppRef) (hlist : m2.pageFreeList = m1.pageFreeList)
    (hgone : ∀ q k π, l q = some (0, π) → k :: π ∈ insert x R → m2.mem q k = 0)
    (hkept : ∀ q k, (∀ π, l q = some (0, π) → k :: π ∉ insert x R) → m2.mem q k = m.mem q k) :
    Released m root l (insert x R) (m2.pageDecref p) := by
  have hdrop := m.dropped_insert root hx hR
  have hone : m.dropped root (insert x R) p = m.dropped root R p + 1 := by
    rw [hdrop p, if_pos hp]
  have hother : ∀ q, q ≠ p → m.dropped root (insert x R) q = m.dropped root R q := by
    intro q hq
    rw [hdrop q, if_neg, Nat.add_zero]
    rw [hp, some.injEq]
    exact fun hc => hq hc.symm
  -- The count of the page still covers the entry, so it was not 0 before.
  have hle := (m.dropped_le root (insert x R) p).trans (ht.counts p)
  have hpos : m1.ppRef p ≠ 0 := by
    intro hz
    have hnat := congrArg BitVec.toNat hz
    rw [h.refs p, toNat_sub_ofNat (by omega)] at hnat
    rw [hone] at hle
    have h0 : (0 : BitVec 16).toNat = 0 := rfl
    omega
  have hnew : (m2.pageDecref p).ppRef p = m1.ppRef p - 1 := by
    rw [pageDecref_ppRef, update_self, hrefs]
  have hsame : ∀ q, q ≠ p → (m2.pageDecref p).ppRef q = m1.ppRef q := by
    intro q hq
    rw [pageDecref_ppRef, update_of_ne hq, hrefs]
  refine ⟨?_, ?_, ?_, ?_, ?_, ?_, ?_, ?_⟩
  · rw [pageDecref_npages, hnpages, h.npages]
  · intro q k π hq hk
    rw [pageDecref_mem]
    exact hgone q k π hq hk
  · intro q k hq
    rw [pageDecref_mem]
    exact hkept q k hq
  · intro q
    by_cases hq : q = p
    · rw [hq, hnew, hone, h.refs p, BitVec.ofNat_add, BitVec.sub_sub]
      rfl
    · rw [hsame q hq, hother q hq]
      exact h.refs q
  · intro q hdropped hz
    rw [mem_pageDecref, hlist]
    by_cases hq : q = p
    · rw [hq, hnew] at hz
      exact .inr ⟨hq, by rwa [hrefs]⟩
    · rw [hsame q hq] at hz
      rw [hother q hq] at hdropped
      exact .inl (h.freed q hdropped hz)
  · intro q hq
    rw [mem_pageDecref, hlist]
    exact .inl (h.free q hq)
  · intro q hq
    rw [mem_pageDecref, hlist, hrefs] at hq
    by_cases hqp : q = p
    · rcases hq with hq | ⟨-, hz⟩
      · refine .inl ((h.only q hq).resolve_right fun hc => ?_)
        rw [hqp] at hc
        exact hpos hc.2
      · rw [hqp, hnew]
        exact .inr ⟨by omega, hz⟩
    · rw [hother q hqp, hsame q hqp]
      exact h.only q (hq.resolve_right fun hc => hqp hc.1)
  · intro hn
    refine nodup_pageDecref p ?_
    rw [hlist]
    exact h.nodup hn

/-- One entry of a table is erased and its reference dropped. -/
theorem drop (ht : m.EnvTree root)
    (hl : Tree 4 UserIdx ppn (oneRoot root) m.mem l) (hq : l q = some (0, π))
    (hx : k :: π ∈ treePaths) (hR : k :: π ∉ R) (hp : m.refAt root (k :: π) = some p) :
    Released m root l (insert (k :: π) R) ((m1.setEntry q k 0).pageDecref p) := by
  refine h.decref ht hx hR hp rfl rfl rfl ?_ ?_
  · intro q' k' π' hq' hk'
    by_cases hslot : q' = q ∧ k' = k
    · rw [setEntry_mem, hslot.1, hslot.2, Lib.Radix.setSlot_self]
    · rw [setEntry_mem, Lib.Radix.setSlot_of_ne _ _ (by rwa [← not_and_or])]
      refine h.gone q' k' π' hq' (hk'.resolve_left fun hc => ?_)
      -- The path has one table, so this is the slot that was written.
      rcases List.cons.inj hc with ⟨rfl, rfl⟩
      exact hslot ⟨hl.label_inj q' q hq' hq, rfl⟩
  · intro q' k' hno
    have hslot : ¬ (q' = q ∧ k' = k) := by
      rintro ⟨rfl, rfl⟩
      exact hno π hq (Set.mem_insert _ _)
    rw [setEntry_mem, Lib.Radix.setSlot_of_ne _ _ (by rwa [← not_and_or])]
    exact h.kept q' k' fun π' hq' hc => hno π' hq' (Set.mem_insert_of_mem _ hc)

/-- A slot of a table that has not been dropped is as it was. -/
theorem slot_kept (hq : l q = some (0, π)) (hR : k :: π ∉ R) :
    m1.mem q k = m.mem q k := by
  refine h.kept q k ?_
  intro π' hq'
  rw [hq] at hq'
  cases hq'
  exact hR

/-- Entries that are zero need not be dropped. -/
theorem skip (hl : Tree 4 UserIdx ppn (oneRoot root) m.mem l)
    (hsub : R ⊆ R') (hzero : ∀ x ∈ R', x ∉ R → x ≠ [] ∧ lookup ppn m.mem root x = 0) :
    Released m root l R' m1 := by
  have hdrop := m.dropped_congr hsub (by
    intro x _ hx hR
    rcases hzero x hx hR with ⟨hnil, hz⟩
    rw [refAt, if_neg hnil, hz, target_zero])
  refine ⟨h.npages, ?_, ?_, ?_, ?_, h.free, ?_, h.nodup⟩
  · intro q k π hq hk
    by_cases hR : k :: π ∈ R
    · exact h.gone q k π hq hR
    · rw [h.slot_kept hq hR, ← hl.entry_of_label q k hq, entry_oneRoot]
      exact (hzero _ hk hR).2
  · intro q k hno
    exact h.kept q k fun π hq hc => hno π hq (hsub hc)
  · intro p
    rw [hdrop p]
    exact h.refs p
  · intro p hp
    rw [hdrop p] at hp
    exact h.freed p hp
  · intro p hp
    rw [hdrop p]
    exact h.only p hp

end

end Released

/-! ## The loops -/

/-- The first `n` entries of a page table. -/
def ptPaths (i d n : Nat) : Set (List Nat) := {x | ∃ t < n, x = [t, d, i, 0]}

/-- The first `n` entries of a directory, and of each table below them what the
    innermost loop reaches. -/
def dirPaths (i n : Nat) : Set (List Nat) :=
  {x | ∃ d < n, x = [d, i, 0] ∨ x ∈ ptPaths i d 511}

/-- The bound of the loop over a directory. -/
def dirLimit (i : Nat) : Nat := if i = 3 then 380 else 511

/-- The first `n` directories with what is reached below them. -/
def pdpPaths (n : Nat) : Set (List Nat) :=
  {x | ∃ i < n, x = [i, 0] ∨ x ∈ dirPaths i (dirLimit i)}

/-- Everything that `env_free` reaches. -/
def visited : Set (List Nat) := insert [] (insert [0] (pdpPaths 4))

theorem ptPaths_succ (i d n : Nat) :
    ptPaths i d (n + 1) = insert [n, d, i, 0] (ptPaths i d n) := by
  ext x
  simp only [ptPaths, Set.mem_ofPred_eq, Set.mem_insert_iff, Nat.lt_succ_iff_lt_or_eq, or_and_right,
    exists_or, exists_eq_left]
  exact or_comm

theorem dirPaths_succ (i n : Nat) :
    dirPaths i (n + 1) = insert [n, i, 0] (dirPaths i n ∪ ptPaths i n 511) := by
  ext x
  simp only [dirPaths, Set.mem_ofPred_eq, Set.mem_insert_iff, Set.mem_union,
    Nat.lt_succ_iff_lt_or_eq, or_and_right, exists_or, exists_eq_left]
  exact or_left_comm

theorem pdpPaths_succ (n : Nat) :
    pdpPaths (n + 1) = insert [n, 0] (pdpPaths n ∪ dirPaths n (dirLimit n)) := by
  ext x
  simp only [pdpPaths, Set.mem_ofPred_eq, Set.mem_insert_iff, Set.mem_union,
    Nat.lt_succ_iff_lt_or_eq, or_and_right, exists_or, exists_eq_left]
  exact or_left_comm

/-- Below an entry that is zero there is nothing. -/
theorem lookup_below {mem : Nat → Nat → Pte} {root k : Nat} (t : Nat)
    (h : lookup ppn mem root (k :: π) = 0) : lookup ppn mem root (t :: k :: π) = 0 := by
  have hnode : node ppn mem root (k :: π) = none := by
    rw [lookup] at h
    rw [node]
    cases hn : node ppn mem root π with
    | none => rfl
    | some p =>
      rw [hn, map_some, getD_some] at h
      rw [bind_some, if_pos h]
  rw [lookup, hnode]
  rfl

/-- A level of the walk goes through an entry that is there. -/
theorem walkLevel_next {t : Nat} (create : Bool) (next : Vm → Nat → Option (Option Nat × Vm))
    (hz : m.mem t i ≠ 0) (hlt : ppn (m.mem t i) < m.npages) :
    m.walkLevel t i create next = next m (ppn (m.mem t i)) := by
  rw [walkLevel, if_neg hz, kaddr, if_pos hlt, bind_some]

/-- An entry that is zero is not present. -/
theorem not_present_of_eq_zero {e : Pte} (h : e = 0) : ¬ hasFlags e pteP = true := by
  rw [h]
  decide

section Loops

variable {m m1 : Vm} {root d pt : Nat} {l : Label}

section

variable (ht : m.EnvTree root)

include ht

section

variable (hl : Tree 4 UserIdx ppn (oneRoot root) m.mem l)

include hl

/-- The slots of the tables are the entries of the tree. -/
theorem slot_entry (hq : l q = some (0, π)) (hk : UserIdx π k) :
    k :: π ∈ treePaths ∧ lookup ppn m.mem root (k :: π) = m.mem q k ∧
      (m.mem q k ≠ 0 → hasFlags (m.mem q k) pteP = true ∧ ppn (m.mem q k) < m.npages ∧
        m.refAt root (k :: π) = some (ppn (m.mem q k))) := by
  have hlook : lookup ppn m.mem root (k :: π) = m.mem q k := by
    rw [← entry_oneRoot]
    exact hl.entry_of_label q k hq
  have hok : OkPath UserIdx (k :: π) := ⟨hl.okPath_of_label q hq, hk⟩
  have hlen : (k :: π).length ≤ 4 := hl.length_lt (by decide) hq
  refine ⟨(mem_treePaths _).2 ⟨hok, hlen⟩, hlook, ?_⟩
  intro hne
  rw [← hlook] at hne ⊢
  have hp := ht.present _ hok hlen hne
  exact ⟨hp, ht.bound _ hok hlen hne, by rw [refAt, if_neg (by simp), target_of_present hp]⟩

/-- The slot that a table hangs in. -/
theorem slot_above (h : Released m root l R m1) (hp : l p = some (0, k :: π)) (hR : k :: π ∉ R) :
    ∃ q, l q = some (0, π) ∧ m1.mem q k ≠ 0 ∧ ppn (m1.mem q k) = p ∧
      ppn (m1.mem q k) < m1.npages := by
  rcases hl.up p 0 k π hp with ⟨-, hk, q, hq, hne, hptr⟩
  refine ⟨q, hq, ?_⟩
  rw [h.slot_kept hq hR, h.npages]
  exact ⟨hne, hptr, ((slot_entry ht hl hq hk).2.2 hne).2.1⟩

/-- `page_remove` of one page in the innermost loop. The tables on the way to it
    have not been dropped yet, so that the walk still finds the page table. -/
theorem pageRemove_released (h : Released m root l R m1) (hi : i < 4) (hd : UserIdx [i, 0] d)
    (hn : n < 512) (hpt : l pt = some (0, [d, i, 0])) (hpdp : [0] ∉ R) (hdir : [i, 0] ∉ R)
    (htable : [d, i, 0] ∉ R) (hleaf : [n, d, i, 0] ∉ R) (hne : m.mem pt n ≠ 0) :
    m1.pageRemove root (pgaddr 0 i d n 0) =
      some ((m1.setEntry pt n 0).pageDecref (ppn (m.mem pt n))) := by
  rcases pgaddr_path hi hd hn with ⟨-, hpath, hptx⟩
  rw [ptPath, List.cons.injEq, List.cons.injEq, List.cons.injEq] at hpath
  rcases hpath with ⟨hpdx, hpdpe, hpml4, -⟩
  rcases slot_above ht hl h hpt htable with ⟨t2, ht2, hz2, hp2, hb2⟩
  rcases slot_above ht hl h ht2 hdir with ⟨t1, ht1, hz1, hp1, hb1⟩
  rcases slot_above ht hl h ht1 hpdp with ⟨t0, ht0, hz0, hp0, hb0⟩
  have hroot : t0 = root := hl.label_inj t0 root ht0 ((hl.root 0 root).1 rfl)
  rw [hroot] at hz0 hp0 hb0
  have hwalk : m1.pml4eWalk root (pgaddr 0 i d n 0) false = some (some pt, m1) := by
    rw [pml4eWalk, hpml4, m1.walkLevel_next _ _ hz0 hb0, hp0, pdpeWalk, hpdpe,
      m1.walkLevel_next _ _ hz1 hb1, hp1, pgdirWalk, hpdx, m1.walkLevel_next _ _ hz2 hb2,
      hp2]
  have hslot : m1.mem pt n = m.mem pt n := h.slot_kept hpt hleaf
  have hb := ((slot_entry ht hl hpt hn).2.2 hne).2.1
  rw [pageRemove, pageLookup, hwalk, bind_some]
  dsimp only
  rw [hptx, hslot, pa2page, h.npages, if_pos hb, map_some, map_some]
  dsimp only
  rw [pageDecref_setEntry]

/-- The innermost loop drops the entries of a page table but for the last. -/
theorem released_pt (h : Released m root l R m1) (hi : i < 4) (hd : UserIdx [i, 0] d)
    (hpt : l pt = some (0, [d, i, 0])) (hpdp : [0] ∉ R) (hdir : [i, 0] ∉ R) (htable : [d, i, 0] ∉ R)
    (hleaf : ∀ t, [t, d, i, 0] ∉ R) :
    ∃ m2, m1.envFreePt root i d pt = some m2 ∧ Released m root l (R ∪ ptPaths i d 511) m2 := by
  refine Lib.forUpto_total _ (fun n m2 => Released m root l (R ∪ ptPaths i d n) m2) 511 ?_ m1 ?_
  · intro n m2 hn hinv
    rw [ptPaths_succ, Set.union_insert]
    have hnew : [n, d, i, 0] ∉ R ∪ ptPaths i d n := by simp [ptPaths, hleaf]
    rcases slot_entry ht hl hpt (show n < 512 by omega) with ⟨hpath, hlook, hentry⟩
    rw [hinv.slot_kept hpt hnew]
    by_cases hz : m.mem pt n = 0
    · -- Nothing is mapped here.
      refine ⟨m2, if_neg (not_present_of_eq_zero hz), hinv.skip hl (Set.subset_insert _ _) ?_⟩
      intro x hx hxR
      rw [hx.resolve_right hxR, hlook]
      exact ⟨by simp, hz⟩
    · rcases hentry hz with ⟨hflag, -, href⟩
      refine ⟨_, ?_, hinv.drop ht hl hpt hpath hnew href⟩
      rw [if_pos hflag]
      exact pageRemove_released ht hl hinv hi hd (by omega) hpt (by simp [ptPaths, hpdp])
        (by simp [ptPaths, hdir]) (by simp [ptPaths, htable]) hnew hz
  · refine h.skip hl Set.subset_union_left ?_
    intro x hx hxR
    rcases hx.resolve_left hxR with ⟨t, hlt, -⟩
    exact absurd hlt (Nat.not_lt_zero t)

/-- The loop over a directory drops the page tables that it reaches, with their
    entries. -/
theorem released_pgdir (h : Released m root l R m1) {dir : Nat} (hi : i < 4)
    (hdir : l dir = some (0, [i, 0])) (hpdp : [0] ∉ R) (hself : [i, 0] ∉ R)
    (htable : ∀ d, [d, i, 0] ∉ R) (hleaf : ∀ t d, [t, d, i, 0] ∉ R) :
    ∃ m2, m1.envFreePgdir root i dir = some m2 ∧
      Released m root l (R ∪ dirPaths i (dirLimit i)) m2 := by
  have hlimit : (if i = 3 then pdx utop else 511) = dirLimit i := by
    rw [dirLimit, show pdx utop = 380 by decide]
  rw [envFreePgdir, hlimit]
  refine Lib.forUpto_total _ (fun n m2 => Released m root l (R ∪ dirPaths i n) m2) _ ?_ m1 ?_
  · intro n m2 hn hinv
    have hidx : UserIdx [i, 0] n := by
      simp only [UserIdx]
      unfold dirLimit at hn
      split at hn <;> omega
    rw [dirPaths_succ, Set.union_insert, ← Set.union_assoc]
    -- What the earlier rounds have dropped lies below other tables.
    have hnew : [n, i, 0] ∉ R ∪ dirPaths i n := by simp [dirPaths, ptPaths, htable]
    have hbelow : ∀ t, [t, n, i, 0] ∉ R ∪ dirPaths i n := by simp [dirPaths, ptPaths, hleaf]
    rcases slot_entry ht hl hdir hidx with ⟨hpath, hlook, hentry⟩
    rw [hinv.slot_kept hdir hnew]
    by_cases hz : m.mem dir n = 0
    · -- There is no page table, and so nothing below it.
      refine ⟨m2, if_neg (not_present_of_eq_zero hz), hinv.skip hl ?_ ?_⟩
      · exact Set.subset_union_left.trans (Set.subset_insert _ _)
      · intro x hx hxR
        rw [hz] at hlook
        rcases hx with rfl | hx | ⟨t, -, rfl⟩
        · exact ⟨by simp, hlook⟩
        · exact absurd hx hxR
        · exact ⟨by simp, lookup_below t hlook⟩
    · rcases hentry hz with ⟨hflag, hb, href⟩
      have hpt : l (ppn (m.mem dir n)) = some (0, [n, i, 0]) :=
        hl.down dir 0 _ n hdir (by simp) hidx hz
      rcases released_pt ht hl hinv hi hidx hpt (by simp [dirPaths, ptPaths, hpdp])
        (by simp [dirPaths, ptPaths, hself]) hnew hbelow with ⟨m3, hm3, hrel⟩
      refine ⟨_, ?_, hrel.drop ht hl hdir hpath (by simp [dirPaths, ptPaths, htable]) href⟩
      rw [if_pos hflag]
      dsimp only
      rw [kaddr, hinv.npages, if_pos hb, bind_some, hm3, bind_some, pa2page,
        hrel.npages, if_pos hb, map_some]
  · refine h.skip hl Set.subset_union_left ?_
    intro x hx hxR
    rcases hx.resolve_left hxR with ⟨d, hlt, -⟩
    exact absurd hlt (Nat.not_lt_zero d)

/-- The outer loop drops the directories. -/
theorem released_dirs (hpdp : l pdp = some (0, [0])) :
    ∃ m2, Lib.forUpto (fun i m =>
      if hasFlags (m.mem pdp i) pteP then
        (m.kaddr (m.mem pdp i)).bind fun pgdir =>
          (m.envFreePgdir root i pgdir).bind fun m =>
            (m.pa2page (m.mem pdp i)).map fun p => (m.setEntry pdp i 0).pageDecref p
      else some m) 4 m = some m2 ∧ Released m root l (pdpPaths 4) m2 := by
  refine Lib.forUpto_total _ (fun n m2 => Released m root l (pdpPaths n) m2) 4 ?_ m ?_
  · intro n m2 hn hinv
    rw [pdpPaths_succ]
    -- Every path that the earlier rounds have dropped goes through a directory
    -- before this one.
    have hself : [n, 0] ∉ pdpPaths n := by simp [pdpPaths, dirPaths, ptPaths]
    rcases slot_entry ht hl hpdp hn with ⟨hpath, hlook, hentry⟩
    rw [hinv.slot_kept hpdp hself]
    by_cases hz : m.mem pdp n = 0
    · refine ⟨m2, if_neg (not_present_of_eq_zero hz), hinv.skip hl ?_ ?_⟩
      · exact Set.subset_union_left.trans (Set.subset_insert _ _)
      · intro x hx hxR
        rw [hz] at hlook
        rcases hx with rfl | hx | ⟨d, -, rfl | ⟨t, -, rfl⟩⟩
        · exact ⟨by simp, hlook⟩
        · exact absurd hx hxR
        · exact ⟨by simp, lookup_below d hlook⟩
        · exact ⟨by simp, lookup_below t (lookup_below d hlook)⟩
    · rcases hentry hz with ⟨hflag, hb, href⟩
      have hdir : l (ppn (m.mem pdp n)) = some (0, [n, 0]) :=
        hl.down pdp 0 _ n hpdp (by simp) hn hz
      rcases released_pgdir ht hl hinv hn hdir (by simp [pdpPaths, dirPaths, ptPaths]) hself
        (by simp [pdpPaths, dirPaths, ptPaths]) (by simp [pdpPaths, dirPaths, ptPaths]) with
        ⟨m3, hm3, hrel⟩
      have hnew : [n, 0] ∉ pdpPaths n ∪ dirPaths n (dirLimit n) := by
        simp [pdpPaths, dirPaths, ptPaths]
      refine ⟨_, ?_, hrel.drop ht hl hpdp hpath hnew href⟩
      rw [if_pos hflag, kaddr, hinv.npages, if_pos hb, bind_some, hm3, bind_some,
        hrel.slot_kept hpdp hnew, pa2page, hrel.npages, if_pos hb, map_some]
  · refine (Released.start m root l).skip hl (Set.empty_subset _) ?_
    intro x hx _
    rcases hx with ⟨i, hlt, -⟩
    exact absurd hlt (Nat.not_lt_zero i)

end

end

end Loops

/-- `env_free` ends, and drops exactly what its loops reach. -/
theorem envFree_released (ht : m.EnvTree root) :
    ∃ l m', (∀ q π, l q = some (0, π) → m.TableAt root π q) ∧ m.envFree root root = some m' ∧
      Released m root l visited m' := by
  rcases Tree.ofNode 0 (by decide) (fun π π' p hok hok' hlen hlen' hn hn' =>
    ht.distinct π π' p ⟨hok, hlen, hn⟩ ⟨hok', hlen', hn'⟩) with ⟨l, hl, hlab⟩
  have hroot : l root = some (0, []) := (hl.root 0 root).1 rfl
  rcases slot_entry ht hl hroot rfl with ⟨hpath, -, hentry⟩
  rcases hentry ht.pdp with ⟨-, hb, href⟩
  have hpdp : l (ppn (m.mem root 0)) = some (0, [0]) :=
    hl.down root 0 _ 0 hroot (by simp) rfl ht.pdp
  rcases released_dirs ht hl hpdp with ⟨m1, hm1, hrel⟩
  have hnew : [0] ∉ pdpPaths 4 := by simp [pdpPaths, dirPaths, ptPaths]
  have hrel' := hrel.drop ht hl hroot hpath hnew href
  have hnil : ([] : List Nat) ∉ insert [0] (pdpPaths 4) := by
    simp [pdpPaths, dirPaths, ptPaths]
  refine ⟨l, _, fun q π hq => ((hlab q 0 π).1 hq).2, ?_, hrel'.decref ht
    ((mem_treePaths []).2 ⟨trivial, by simp⟩) hnil rfl rfl rfl rfl ?_ ?_⟩
  · rw [Vm.envFree, kaddr, if_pos hb, bind_some, hm1, bind_some,
      hrel.slot_kept hroot hnew, pa2page, hrel.npages, if_pos hb, map_some,
      pageDecref_setEntry]
  · intro q k π hq hk
    exact hrel'.gone q k π hq (hk.resolve_left (by simp))
  · intro q k hno
    exact hrel'.kept q k fun π hq hc => hno π hq (Set.mem_insert_of_mem _ hc)

/-! ## What the loops leave out -/

theorem mem_visited_dir (hi : i < 4) : [i, 0] ∈ visited :=
  .inr (.inr ⟨i, hi, .inl rfl⟩)

theorem mem_visited_table {i : Nat} (d : Nat) (hi : i < 4) :
    [d, i, 0] ∈ visited ↔ d < dirLimit i := by
  simp [visited, pdpPaths, dirPaths, ptPaths, hi]

theorem mem_visited_leaf {i : Nat} (t d : Nat) (hi : i < 4) :
    [t, d, i, 0] ∈ visited ↔ d < dirLimit i ∧ t < 511 := by
  simp [visited, pdpPaths, dirPaths, ptPaths, hi]

/-- The entries that are left out are the last ones of the page tables, the last
    ones of the first three directories, and what hangs on these. -/
theorem refAt_of_not_visited (htail : m.TailFree (oneRoot root) 0) (hx : x ∈ treePaths)
    (hno : x ∉ visited) : m.refAt root x = none := by
  rcases (mem_treePaths x).1 hx with ⟨hok, hlen⟩
  have hzero : ∀ k π, lookup ppn m.mem root (k :: π) = 0 → m.refAt root (k :: π) = none := by
    intro k π hz
    rw [refAt, if_neg (by simp), hz, target_zero]
  -- The last slot of a directory is below `UTOP` only in the first three.
  have hlast : ∀ i d, i < 4 → UserIdx [i, 0] d → ¬ d < dirLimit i →
      lookup ppn m.mem root [d, i, 0] = 0 := by
    intro i d hi hd hlim
    simp only [UserIdx] at hd
    unfold dirLimit at hlim
    split at hlim
    · omega
    · have hd' : d = 511 := by omega
      rw [hd']
      exact htail.table i (by omega)
  rcases x with _ | ⟨t, _ | ⟨d, _ | ⟨i, _ | ⟨k, _ | ⟨_, _⟩⟩⟩⟩⟩
  · exact absurd (Set.mem_insert _ _) hno
  · have hk : t = 0 := hok.2
    rw [hk] at hno
    exact absurd (Set.mem_insert_of_mem _ (Set.mem_insert _ _)) hno
  · have hk : d = 0 := hok.1.2
    rw [hk] at hno
    exact absurd (mem_visited_dir hok.2) hno
  · have hk : i = 0 := hok.1.1.2
    subst hk
    rw [mem_visited_table t hok.1.2] at hno
    exact hzero _ _ (hlast d t hok.1.2 hok.2 hno)
  · have hk : k = 0 := hok.1.1.1.2
    subst hk
    have hi : i < 4 := hok.1.1.2
    have hd : UserIdx [i, 0] d := hok.1.2
    rw [mem_visited_leaf t d hi, not_and_or] at hno
    rcases hno with hno | hno
    · exact hzero _ _ (lookup_below t (hlast i d hi hd hno))
    · have ht : t < 512 := hok.2
      have ht' : t = 511 := by omega
      rw [ht']
      exact hzero _ _ (htail.page i d hi hd)
  · simp only [List.length_cons] at hlen
    omega

/-- `env_free` reaches all entries of the tree if there is nothing in the last
    slots, and only then. -/
theorem dropped_visited_iff (ht : m.EnvTree root) :
    (∀ p, m.dropped root visited p = m.treeCount root p) ↔ m.TailFree (oneRoot root) 0 := by
  constructor
  · intro h
    -- An entry outside of what is visited would be missing in the count of its page.
    have hzero : ∀ k π, k :: π ∈ treePaths → k :: π ∉ visited →
        lookup ppn m.mem root (k :: π) = 0 := by
      intro k π hx hno
      by_contra hne
      rcases (mem_treePaths _).1 hx with ⟨hok, hlen⟩
      have hp := target_of_present (ht.present _ hok hlen hne)
      have hlt := m.dropped_lt hx hno ((if_neg (by simp)).trans hp)
      rw [h] at hlt
      exact absurd hlt (Nat.lt_irrefl _)
    refine ⟨?_, ?_⟩
    · intro i d hi hd
      rw [entry_oneRoot]
      refine hzero _ _ ((mem_treePaths _).2 ⟨⟨⟨⟨⟨trivial, rfl⟩, hi⟩, hd⟩, by simp [UserIdx]⟩,
        by simp⟩) ?_
      rw [mem_visited_leaf _ d hi]
      exact fun hc => absurd hc.2 (Nat.lt_irrefl 511)
    · intro i hi
      rw [entry_oneRoot]
      have hi4 : i < 4 := by omega
      have hd : UserIdx [i, 0] 511 := by
        simp only [UserIdx]
        omega
      refine hzero _ _ ((mem_treePaths _).2 ⟨⟨⟨⟨trivial, rfl⟩, hi4⟩, hd⟩, by simp⟩) ?_
      rw [mem_visited_table _ hi4, dirLimit, if_neg (by omega)]
      exact Nat.lt_irrefl 511
  · intro htail p
    refine (count_congr p ?_).symm
    intro x hx
    by_cases hv : x ∈ visited
    · rw [m.refIn_of_mem root hv]
    · rw [m.refIn_of_notMem root visited x hv, m.refAt_of_not_visited htail hx hv]

/-! ## Among other address spaces -/

/-- The places of an environment that has gone refer to nothing. -/
theorem ref_without (roots : Nat → Option Nat) (e : Nat) (x : Nat × List Nat) :
    m.ref (update roots e none) x = if x.1 = e then none else m.ref roots x := by
  by_cases hx : x.1 = e
  · rw [if_pos hx, ref]
    by_cases hnil : x.2 = []
    · rw [if_pos hnil, hx, update_self]
    · have hz : entry ppn (update roots e none) m.mem x = 0 := by simp [entry, hx]
      rw [if_neg hnil, hz, target_zero]
  · simp only [ref, entry, update_of_ne hx, if_neg hx]

/-- The places of one environment are the paths of its tree. -/
theorem refCount_without {roots : Nat → Option Nat} {e root : Nat} (he : e < nenv)
    (hroot : roots e = some root) (p : Nat) :
    m.refCount (update roots e none) p + m.treeCount root p = m.refCount roots p := by
  have href : ∀ π, m.ref roots (e, π) = m.refAt root π := by
    intro π
    simp [ref, refAt, entry, hroot]
  have htree : m.treeCount root p =
      Lib.Refs.count (places.filter fun x => x.1 = e) (m.ref roots) p := by
    refine Finset.card_bij' (fun π _ => (e, π)) (fun x _ => x.2) ?_ ?_ (fun _ _ => rfl) ?_
    · intro π hπ
      rw [Finset.mem_filter, mem_treePaths] at hπ
      rw [Finset.mem_filter, Finset.mem_filter, mem_places, href]
      exact ⟨⟨⟨he, hπ.1⟩, rfl⟩, hπ.2⟩
    · rintro ⟨e', π⟩ hx
      rw [Finset.mem_filter, Finset.mem_filter, mem_places] at hx
      rcases hx with ⟨⟨hx, rfl⟩, hp⟩
      rw [Finset.mem_filter, mem_treePaths]
      exact ⟨hx.2, by rwa [← href]⟩
    · rintro ⟨e', π⟩ hx
      rw [Finset.mem_filter, Finset.mem_filter] at hx
      rw [← hx.1.2]
  rw [htree]
  exact Lib.Refs.count_without (fun x _ => m.ref_without roots e x) p

namespace Wf

variable {pool : Nat → Prop} {mem0 : Nat → Nat → Pte} {roots : Nat → Option Nat}
  {kind : Nat → Kind} {m : Vm}

/-- One of the trees. -/
theorem envTree (h : m.Wf pool mem0 roots kind none) {e : Nat} (hroot : roots e = some root)
    (hpdp : kind pdp = .table e [0]) : m.EnvTree root := by
  have hlook : ∀ π, lookup ppn m.mem root π = entry ppn roots m.mem (e, π) := by
    intro π
    simp [entry, hroot]
  refine ⟨fun _ _ _ => TableAt.unique h.tree hroot, ?_, ?_, ?_, ?_⟩
  · intro π hok hlen
    rw [hlook]
    exact h.present e π hok hlen
  · intro π hok hlen hne
    have hnil : π ≠ [] := fun hc => hne (by rw [hc]; rfl)
    rw [hlook] at hne ⊢
    have href : m.ref roots (e, π) = some (ppn (entry ppn roots m.mem (e, π))) := by
      rw [ref, if_neg hnil, target_of_present (h.present e π hok hlen hne)]
    refine (h.bound _ (h.pool_of_kind ?_)).2
    rcases h.kind_of_ref ((mem_places _).2 ⟨h.rootLt e root hroot, hok, hlen⟩) href with
      hk | hk
    · rw [hk.1]
      simp
    · rw [hk]
      simp
  · rcases h.tree.up pdp e 0 [] ((labels_eq_some kind pdp e [0]).2 hpdp) with
      ⟨-, -, q, hq, hne, -⟩
    rwa [h.tree.label_inj q root hq ((h.tree.root e root).1 hroot)] at hne
  · intro p
    have hsum := m.refCount_without (h.rootLt e root hroot) hroot p
    by_cases hp : pool p
    · rw [h.count p hp]
      omega
    · have hk := (h.kernel p).2 hp
      rw [h.refCount_eq_zero (by rw [hk]; simp) (by rw [hk]; simp)] at hsum
      omega

end Wf

/-- The tree of the environment `e` has been taken away: only its tables were written, and
    each page has lost as many references as the tree had entries for it. -/
structure Gone (m : Vm) (roots : Nat → Option Nat) (kind : Nat → Kind) (e root : Nat) (m' : Vm) :
    Prop where
  hasRoot : roots e = some root
  npages : m'.npages = m.npages
  mem : ∀ q, (∀ π, kind q ≠ .table e π) → ∀ i, m'.mem q i = m.mem q i
  refs : ∀ p, (m'.ppRef p).toNat = (m.ppRef p).toNat - m.treeCount root p
  freed : ∀ p, 0 < m.treeCount root p → m'.ppRef p = 0 → p ∈ m'.pageFreeList
  free : ∀ p ∈ m.pageFreeList, p ∈ m'.pageFreeList
  only : ∀ p ∈ m'.pageFreeList, p ∈ m.pageFreeList ∨ (0 < m.treeCount root p ∧ m'.ppRef p = 0)
  nodup : m.pageFreeList.Nodup → m'.pageFreeList.Nodup

/-- `env_free` takes a tree away that has nothing where its loops do not look. -/
theorem Wf.gone {pool : Nat → Prop} {mem0 : Nat → Nat → Pte} {roots : Nat → Option Nat}
    {kind : Nat → Kind} {m m' : Vm} (h : m.Wf pool mem0 roots kind none) {e root pdp : Nat}
    (hroot : roots e = some root) (hpdp : kind pdp = .table e [0]) (htail : m.TailFree roots e)
    (hrun : m.envFree root root = some m') : Gone m roots kind e root m' := by
  have ht := h.envTree hroot hpdp
  rcases m.envFree_released ht with ⟨l, m1, hl, hrun1, hrel⟩
  rw [hrun] at hrun1
  cases hrun1
  have hdrop : ∀ p, m.dropped root visited p = m.treeCount root p := by
    refine (m.dropped_visited_iff ht).2 ⟨fun i d hi hd => ?_, fun i hi => ?_⟩
    · rw [entry_oneRoot, ← htail.page i d hi hd]
      simp [entry, hroot]
    · rw [entry_oneRoot, ← htail.table i hi]
      simp [entry, hroot]
  refine ⟨hroot, hrel.npages, fun q hq i => ?_, fun p => ?_, ?_, hrel.free, ?_, hrel.nodup⟩
  · refine hrel.kept q i fun π hπ => absurd ?_ (hq π)
    have htab := hl q π hπ
    exact (labels_eq_some kind q e π).1
      (h.tree.label_of_node e hroot htab.1 htab.2.1 htab.2.2)
  · rw [hrel.refs p, toNat_sub_ofNat (by rw [hdrop]; exact ht.counts p), hdrop]
  · simpa only [hdrop] using hrel.freed
  · simpa only [hdrop] using hrel.only

namespace Gone

variable {pool : Nat → Prop} {mem0 : Nat → Nat → Pte} {roots : Nat → Option Nat}
  {kind : Nat → Kind} {e root : Nat} {m m' : Vm}

section

variable (g : Gone m roots kind e root m') (h : m.Wf pool mem0 roots kind none)

include g h

/-- The trees of the others are as before. -/
theorem tree {l : Label} (hlab : ∀ p e' π, l p = some (e', π) ↔
      labels kind p = some (e', π) ∧ e' ≠ e) :
    Tree 4 UserIdx ppn (update roots e none) m'.mem l ∧
      ∀ e' π, OkPath UserIdx π → π.length ≤ 4 →
        entry ppn (update roots e none) m'.mem (e', π) =
          entry ppn (update roots e none) m.mem (e', π) := by
  have hdropped := h.tree.dropOwner hlab
  have hsame : ∀ p e' π k, l p = some (e', π) → UserIdx π k → m'.mem p k = m.mem p k := by
    intro p e' π k hp _
    refine g.mem p (fun π' hc => ?_) k
    rcases (hlab p e' π).1 hp with ⟨hp, hne⟩
    rw [(labels_eq_some kind p e π').2 hc, some.injEq, Prod.mk.injEq] at hp
    exact hne hp.1.symm
  exact ⟨hdropped.congr hsame, hdropped.entry_congr hsame⟩

theorem entry {e' : Nat} (hok : OkPath UserIdx π) (hlen : π.length ≤ 4) :
    entry ppn (update roots e none) m'.mem (e', π) =
      if e' = e then 0 else entry ppn roots m.mem (e', π) := by
  have htree := g.tree h (l := fun p => (labels kind p).filter fun x => x.1 ≠ e) (by simp)
  rw [htree.2 e' π hok hlen]
  by_cases hee : e' = e <;> simp [Lib.Radix.entry, hee]

theorem ref {x : Nat × List Nat} (hx : x ∈ places) :
    m'.ref (update roots e none) x = if x.1 = e then none else m.ref roots x := by
  rcases (mem_places x).1 hx with ⟨-, hok, hlen⟩
  have htree := g.tree h (l := fun p => (labels kind p).filter fun x => x.1 ≠ e) (by simp)
  rw [← ref_without, Vm.ref, Vm.ref, htree.2 x.1 x.2 hok hlen]

/-- The counts are those of the entries that are left. -/
theorem count (hp : pool p) : (m'.ppRef p).toNat = m'.refCount (update roots e none) p := by
  have hsum := m.refCount_without (h.rootLt e root g.hasRoot) g.hasRoot p
  have hold := h.count p hp
  rw [if_neg (by simp), Nat.add_zero] at hold
  have hleft : m'.refCount (update roots e none) p = m.refCount (update roots e none) p := by
    refine count_congr p fun x hx => ?_
    rw [g.ref h hx, ref_without]
  rw [g.refs p, hleft]
  omega

theorem pool_of_free (hp : p ∈ m'.pageFreeList) : pool p := by
  by_contra hc
  have hk := (h.kernel p).2 hc
  rcases g.only p hp with hfree | ⟨hpos, -⟩
  · rw [(h.free p).1 hfree] at hk
    cases hk
  · have hsum := m.refCount_without (h.rootLt e root g.hasRoot) g.hasRoot p
    rw [h.refCount_eq_zero (by rw [hk]; simp) (by rw [hk]; simp)] at hsum
    omega

/-- What another environment refers to is not free. -/
theorem live {x : Nat × List Nat} (hx : x ∈ places) (hxe : x.1 ≠ e) (hp : m.ref roots x = some p) :
    p ∉ m'.pageFreeList := by
  intro hc
  rcases g.only p hc with hfree | ⟨-, hz⟩
  · rcases h.kind_of_ref hx hp with hk | hk
    · rw [(h.free p).1 hfree] at hk
      cases hk.1
    · rw [(h.free p).1 hfree] at hk
      cases hk
  · have hzero := g.count h (g.pool_of_free h hc)
    rw [hz] at hzero
    refine (count_eq_zero places _ p).1 hzero.symm x hx ?_
    rw [g.ref h hx, if_neg hxe, hp]

/-- The tables of the environment are free. -/
theorem table (hq : kind q = .table e π) : q ∈ m'.pageFreeList := by
  rcases h.ref_of_table hq with ⟨hx, hrefq⟩
  refine g.freed q ?_ ?_
  · refine m.treeCount_pos q ((mem_treePaths π).2 ((mem_places _).1 hx).2) ?_
    rw [← hrefq]
    simp [Vm.ref, refAt, Lib.Radix.entry, g.hasRoot]
  · apply BitVec.eq_of_toNat_eq
    rw [g.count h (h.pool_of_kind (by rw [hq]; simp))]
    refine (count_eq_zero places _ q).2 fun x hx hc => ?_
    rw [g.ref h hx] at hc
    by_cases hxe : x.1 = e
    · rw [if_pos hxe] at hc
      cases hc
    · -- no other environment has the page in its tree
      rw [if_neg hxe] at hc
      rcases h.kind_of_ref hx hc with hk | hk
      · rw [hq] at hk
        cases hk.1
      · rw [hq, Kind.table.injEq] at hk
        exact hxe hk.1.symm

end

end Gone

/-- What has been freed is free now, and the other pages are what they were. -/
def kindAfter (kind : Nat → Kind) (m' : Vm) (p : Nat) : Kind :=
  if p ∈ m'.pageFreeList then .free else kind p

namespace Wf

variable {pool : Nat → Prop} {mem0 : Nat → Nat → Pte} {roots : Nat → Option Nat}
  {kind : Nat → Kind} {m : Vm}

/-- `env_free` gives back an address space that has nothing where its loops do not
    look; the maps of the other environments stay. -/
theorem envFree (h : m.Wf pool mem0 roots kind none) {e root pdp : Nat}
    (hroot : roots e = some root) (hpdp : kind pdp = .table e [0]) (htail : m.TailFree roots e)
    {m' : Vm} (hrun : m.envFree root root = some m') :
    ∃ kind', m'.Wf pool mem0 (update roots e none) kind' none ∧
      (∀ q e' π, kind q = .table e' π → e' ≠ e → kind' q = .table e' π) ∧
      ∀ x, m'.leafMap (update roots e none) x =
        if x.1 = e then 0 else m.leafMap roots x := by
  have g := h.gone hroot hpdp htail hrun
  have hfree : ∀ p ∈ m'.pageFreeList, kindAfter kind m' p = .free := fun p hp => if_pos hp
  have hkept : ∀ p, p ∉ m'.pageFreeList → kindAfter kind m' p = kind p := fun p hp => if_neg hp
  have hstay : ∀ q e' π, kind q = .table e' π → e' ≠ e → kindAfter kind m' q = .table e' π := by
    intro q e' π hq hne
    rcases h.ref_of_table hq with ⟨hx, hrefq⟩
    exact (hkept q (g.live h hx hne hrefq)).trans hq
  have hlab : ∀ p e' π, labels (kindAfter kind m') p = some (e', π) ↔
      labels kind p = some (e', π) ∧ e' ≠ e := by
    intro p e' π
    rw [labels_eq_some, labels_eq_some]
    refine ⟨fun hp => ?_, fun hp => hstay p e' π hp.1 hp.2⟩
    by_cases hpf : p ∈ m'.pageFreeList
    · rw [hfree p hpf] at hp
      cases hp
    · rw [hkept p hpf] at hp
      refine ⟨hp, fun hc => hpf (g.table h (π := π) ?_)⟩
      rw [hp, hc]
  -- An entry that is left is one of another environment.
  have hent : ∀ e' π, OkPath UserIdx π → π.length ≤ 4 →
      entry ppn (update roots e none) m'.mem (e', π) ≠ 0 → e' ≠ e ∧
        entry ppn (update roots e none) m'.mem (e', π) = entry ppn roots m.mem (e', π) := by
    intro e' π hok hlen hne
    rw [g.entry h hok hlen] at hne ⊢
    rcases ite_ne_left_iff.1 hne with ⟨hee, -⟩
    exact ⟨hee, if_neg hee⟩
  refine ⟨kindAfter kind m', ⟨(g.tree h hlab).1, ?_, ?_, ?_, ?_, ?_, g.nodup h.nodup, ?_, ?_, ?_,
    ?_⟩, hstay, ?_⟩
  · intro e' r hr
    by_cases hee : e' = e
    · rw [hee]
      exact h.rootLt e root hroot
    · rw [update_of_ne hee] at hr
      exact h.rootLt e' r hr
  · intro p
    by_cases hpf : p ∈ m'.pageFreeList
    · rw [hfree p hpf]
      exact iff_of_false (by simp) fun hc => hc (g.pool_of_free h hpf)
    · rw [hkept p hpf]
      exact h.kernel p
  · intro p i hp
    rw [g.mem p (by rw [(h.kernel p).2 hp]; simp) i]
    exact h.keep p i hp
  · rw [g.npages]
    exact h.bound
  · rw [g.npages]
    exact h.size
  · intro p
    by_cases hpf : p ∈ m'.pageFreeList
    · exact iff_of_true hpf (hfree p hpf)
    · rw [hkept p hpf, ← h.free p]
      exact ⟨fun hc => absurd hc hpf, fun hc => absurd (g.free p hc) hpf⟩
  · intro e' π hok hlen hne
    rcases hent e' π hok hlen.le hne with ⟨hee, heq⟩
    rw [heq] at hne ⊢
    have hnil : π ≠ [] := fun hc => absurd hlen (by rw [hc]; simp)
    refine (hkept _ (g.live h (x := (e', π))
      ((mem_places _).2 ⟨h.lt_of_entry hne, hok, hlen.le⟩) hee ?_)).trans
        (h.leaf e' π hok hlen hne)
    rw [ref, if_neg hnil, target_of_present (h.present e' π hok hlen.le hne)]
  · intro e' π hok hlen hne
    rcases hent e' π hok hlen hne with ⟨-, heq⟩
    rw [heq] at hne ⊢
    exact h.present e' π hok hlen hne
  · intro p hp
    rw [g.count h hp, if_neg (by simp), Nat.add_zero]
  · intro x
    rw [leafMap, leafMap]
    by_cases hlt : x.2 * pgSize < utop
    · rw [if_pos hlt, if_pos hlt, g.entry h (leafPath_ok hlt) le_rfl]
    · rw [if_neg hlt, if_neg hlt, ite_self]

end Wf

end Vm
end Jos
