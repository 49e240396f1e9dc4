import Mathlib.Data.Finset.Prod
import Jos.Core.Env
import Jos.Lib.Refs
import Jos.Theory.Walk

/-!
# What Every Page Is For

The invariant of physical memory: every page has one use, the page tables of
each environment form a tree whose leaves map user pages, and the reference
count of a page is the number of places that refer to it. The places of an
environment are its root and the entries of its tables below `UTOP`.

The kernel takes a reference before it stores the entry that stands for it, and
drops one after it has erased the entry. In between the count of one page, the
one that is *held*, is one more than the number of its places.

Each update of the memory has one lemma here. The operations of `kern/pmap.c`
and `kern/env.c` are sequences of these.

## Main definitions

* `Kind`: The uses of a page.
* `places`, `Vm.ref`, `Vm.refCount`: Who refers to a page.
* `Vm.Wf`: The invariant.

## Theorems

* `Wf.kind_of_ref`, `Wf.ref_of_table`: What a place may refer to.
* `Wf.refCount_eq_zero`: The counts of unused pages.
* `Wf.setLeaf`: A leaf entry changes.
* `Wf.attach`: A table is hung into the tree.
* `Wf.addRoot`: An address space appears.
* `Wf.alloc`, `Wf.release`, `Wf.hold`, `Wf.pageDecref`: The allocator.
-/

namespace Jos

open Lib.Radix (Tree OkPath okPaths entry)
open Function (update update_self update_of_ne)

/-- What a page is used for. Pages that the boot code keeps back are the
    kernel's; a lost page was allocated and is referred to by nothing. -/
inductive Kind
  | kernel
  | free
  | lost
  | user
  | table (e : Nat) (π : List Nat)
  deriving DecidableEq

/-- The label of a page table. -/
def Kind.label : Kind → Option (Nat × List Nat)
  | .table e π => some (e, π)
  | _ => none

theorem Kind.label_eq_some (k : Kind) (e : Nat) (π : List Nat) :
    k.label = some (e, π) ↔ k = .table e π := by
  cases k <;> simp [Kind.label]

/-- The labels of all pages. -/
def labels (kind : Nat → Kind) : Label := fun p => (kind p).label

theorem labels_eq_some (kind : Nat → Kind) (p e : Nat) (π : List Nat) :
    labels kind p = some (e, π) ↔ kind p = .table e π :=
  Kind.label_eq_some _ e π

theorem labels_update (kind : Nat → Kind) (p : Nat) (k : Kind) :
    labels (update kind p k) = update (labels kind) p k.label := by
  funext q
  by_cases hq : q = p
  · simp [labels, hq]
  · simp [labels, hq]

variable {p : Nat} {w : Pte}

/-- Only uses as a table have a label. -/
theorem labels_update_plain (kind : Nat → Kind) (k : Kind) (hk : k.label = none)
    (hp : (kind p).label = none) : labels (update kind p k) = labels kind := by
  rw [labels_update, hk]
  exact Function.update_eq_self_iff.2 hp.symm

/-- The page an entry refers to, if it is present. -/
def target (w : Pte) : Option Nat := if hasFlags w pteP then some (ppn w) else none

@[simp] theorem target_zero : target 0 = none := by decide

theorem target_ne_zero (h : target w = some p) : w ≠ 0 := by
  intro hz
  rw [hz, target_zero] at h
  cases h

theorem target_of_present (h : hasFlags w pteP = true) : target w = some (ppn w) := by
  rw [target, if_pos h]

theorem ppn_of_target (h : target w = some p) : ppn w = p := by
  unfold target at h
  split at h
  · exact Option.some.inj h
  · cases h

/-- The places of `n` environments. -/
def placesOf (n : Nat) : Finset (Nat × List Nat) :=
  Finset.range n ×ˢ (Finset.range 5).biUnion (okPaths UserIdx 512)

theorem mem_placesOf (n : Nat) (x : Nat × List Nat) :
    x ∈ placesOf n ↔ x.1 < n ∧ OkPath UserIdx x.2 ∧ x.2.length ≤ 4 := by
  simp only [placesOf, Finset.mem_product, Finset.mem_range, Finset.mem_biUnion,
    Lib.Radix.mem_okPaths UserIdx 512 userIdx_lt]
  constructor
  · intro h
    rcases h with ⟨he, n, hn, hlen, hok⟩
    exact ⟨he, hok, by omega⟩
  · intro h
    exact ⟨h.1, x.2.length, by omega, rfl, h.2.1⟩

/-- All places that may refer to a page: an environment and the empty path for
    its root, or a path to an entry below `UTOP`. -/
@[irreducible] def places : Finset (Nat × List Nat) := placesOf nenv

theorem mem_places (x : Nat × List Nat) :
    x ∈ places ↔ x.1 < nenv ∧ OkPath UserIdx x.2 ∧ x.2.length ≤ 4 := by
  have h := mem_placesOf nenv x
  unfold places
  exact h

namespace Vm

/-- The page a place refers to. -/
def ref (m : Vm) (roots : Nat → Option Nat) (x : Nat × List Nat) : Option Nat :=
  if x.2 = [] then roots x.1 else target (entry ppn roots m.mem x)

/-- The number of places that refer to a page. -/
def refCount (m : Vm) (roots : Nat → Option Nat) (p : Nat) : Nat :=
  Lib.Refs.count places (m.ref roots) p

variable {roots : Nat → Option Nat} {x : Nat × List Nat}

theorem refCount_congr {m : Vm} (m' : Vm)
    (hent : ∀ y ∈ places, entry ppn roots m'.mem y = entry ppn roots m.mem y) (p : Nat) :
    m'.refCount roots p = m.refCount roots p := by
  refine Lib.Refs.count_congr p ?_
  intro y hy
  unfold ref
  rw [hent y hy]

/-- Changing one entry moves one reference. -/
theorem refCount_update {m m' : Vm} {v : Pte} (hx : x ∈ places) (hne : x.2 ≠ [])
    (hent : ∀ y ∈ places, entry ppn roots m'.mem y =
      update (entry ppn roots m.mem) x v y) (p : Nat) :
    m'.refCount roots p + (if target (entry ppn roots m.mem x) = some p then 1 else 0) =
      m.refCount roots p + (if target v = some p then 1 else 0) := by
  have hcount := Lib.Refs.count_update (m.ref roots) (m'.ref roots) hx (by
    intro y hy hyx
    unfold ref
    rw [hent y hy, update_of_ne hyx]) p
  simp only [ref, if_neg hne, hent x hx, update_self] at hcount
  exact hcount

/-- Giving an environment a root, or taking it away, moves one reference. -/
theorem refCount_root (m : Vm) (roots : Nat → Option Nat) (e : Nat) (o : Option Nat) (he : e < nenv)
    (hent : ∀ y ∈ places, entry ppn (update roots e o) m.mem y =
      entry ppn roots m.mem y) (p : Nat) :
    m.refCount (update roots e o) p + (if roots e = some p then 1 else 0) =
      m.refCount roots p + (if o = some p then 1 else 0) := by
  have hx : (e, []) ∈ places := (mem_places _).2 ⟨he, trivial, by simp⟩
  have hcount := Lib.Refs.count_update (m.ref roots)
    (m.ref (update roots e o)) hx (by
      intro y hy hye
      unfold ref
      rw [hent y hy]
      by_cases hnil : y.2 = []
      · have hy1 : y.1 ≠ e := fun h => hye (Prod.ext h hnil)
        rw [if_pos hnil, if_pos hnil, update_of_ne hy1]
      · rw [if_neg hnil, if_neg hnil]) p
  simp only [ref, if_true, update_self] at hcount
  exact hcount

/-- The use of every page is known and the counts are right. `pool` holds the
    pages the allocator was given, and the others still have the contents
    `mem0` they had then; `held` is the page with one reference more than it has
    places. -/
structure Wf (pool : Nat → Prop) (mem0 : Nat → Nat → Pte) (roots : Nat → Option Nat)
    (kind : Nat → Kind) (held : Option Nat) (m : Vm) : Prop where
  tree : Tree 4 UserIdx ppn roots m.mem (labels kind)
  rootLt : ∀ e r, roots e = some r → e < nenv
  kernel : ∀ p, kind p = .kernel ↔ ¬pool p
  keep : ∀ p i, ¬pool p → m.mem p i = mem0 p i
  bound : ∀ p, pool p → 0 < p ∧ p < m.npages
  size : m.npages ≤ 2 ^ 52
  nodup : m.pageFreeList.Nodup
  free : ∀ p, p ∈ m.pageFreeList ↔ kind p = .free
  leaf : ∀ e π, OkPath UserIdx π → π.length = 4 → entry ppn roots m.mem (e, π) ≠ 0 →
    kind (ppn (entry ppn roots m.mem (e, π))) = .user
  present : ∀ e π, OkPath UserIdx π → π.length ≤ 4 → entry ppn roots m.mem (e, π) ≠ 0 →
    hasFlags (entry ppn roots m.mem (e, π)) pteP = true
  count : ∀ p, pool p → (m.ppRef p).toNat = m.refCount roots p + if held = some p then 1 else 0

namespace Wf

variable {pool : Nat → Prop} {mem0 mem : Nat → Nat → Pte} {roots : Nat → Option Nat}
  {kind : Nat → Kind} {held : Option Nat} {m : Vm} {e q k : Nat} {π : List Nat}

section

variable (h : m.Wf pool mem0 roots kind held)

include h

theorem pool_of_kind (hk : kind p ≠ .kernel) : pool p := by
  by_contra hp
  exact hk ((h.kernel p).2 hp)

theorem lt_of_kind (hk : kind p ≠ .kernel) : p < 2 ^ 52 :=
  lt_of_lt_of_le (h.bound p (h.pool_of_kind hk)).2 h.size

/-- A leaf refers to a user page, and any other place to the one table it stands
    for. -/
theorem kind_of_ref (hx : x ∈ places)
    (hp : m.ref roots x = some p) : kind p = .user ∧ x.2.length = 4 ∨ kind p = .table x.1 x.2 := by
  rcases x with ⟨e, π⟩
  rcases (mem_places _).1 hx with ⟨_, hok, hlen⟩
  cases π with
  | nil =>
    rw [ref, if_pos rfl] at hp
    exact .inr ((labels_eq_some kind p e []).1 ((h.tree.root e p).1 hp))
  | cons k π =>
    rw [ref, if_neg (by simp)] at hp
    have hne := target_ne_zero hp
    have hptr := ppn_of_target hp
    simp only [List.length_cons] at hlen
    by_cases h4 : π.length = 3
    · -- a leaf entry
      have hu := h.leaf e (k :: π) hok (by simp [h4]) hne
      rw [hptr] at hu
      exact .inl ⟨hu, by simp [h4]⟩
    · rcases h.tree.label_of_entry hok.1 (by omega) hne with ⟨q, hq, hqk⟩
      have hd := h.tree.down q e π k hq (by omega) hok.2 (by rwa [hqk])
      rw [hqk, hptr] at hd
      exact .inr ((labels_eq_some kind p e (k :: π)).1 hd)

/-- The place that a table stands for refers to it. -/
theorem ref_of_table (hp : kind p = .table e π) :
    (e, π) ∈ places ∧ m.ref roots (e, π) = some p := by
  have hlab := (labels_eq_some kind p e π).2 hp
  have hok := h.tree.okPath_of_label p hlab
  have hlen := h.tree.length_lt (by decide) hlab
  rcases h.tree.root_of_label p hlab with ⟨r, hr⟩
  refine ⟨(mem_places _).2 ⟨h.rootLt e r hr, hok, hlen.le⟩, ?_⟩
  cases π with
  | nil => exact (h.tree.root e p).2 hlab
  | cons k π =>
    rcases h.tree.up p e k π hlab with ⟨-, -, q, hq, hne, hptr⟩
    have hent := h.tree.entry_of_label q k hq
    have hpres := h.present e (k :: π) hok hlen.le (by rwa [hent])
    rw [ref, if_neg (by simp), target_of_present hpres, hent, hptr]

/-- Nothing refers to a page that is neither a table nor mapped. -/
theorem refCount_eq_zero (hu : kind p ≠ .user)
    (ht : ∀ e π, kind p ≠ .table e π) : m.refCount roots p = 0 := by
  rw [refCount, Lib.Refs.count_eq_zero]
  intro x hx hp
  rcases h.kind_of_ref hx hp with hk | hk
  · exact hu hk.1
  · exact ht _ _ hk

theorem mem_places_of_kind (hq : kind q = .table e π)
    (hk : UserIdx π k) : (e, k :: π) ∈ places := by
  have hlab := (labels_eq_some kind q e π).2 hq
  rcases h.tree.root_of_label q hlab with ⟨r, hr⟩
  have hlen := h.tree.length_lt (by omega) hlab
  refine (mem_places _).2 ⟨h.rootLt e r hr, ⟨h.tree.okPath_of_label q hlab, hk⟩, ?_⟩
  simp only [List.length_cons]
  omega

/-! ## Contents -/

section

variable
    (hmem : ∀ p i, kind p = .kernel ∨ (∃ e π, kind p = .table e π ∧ UserIdx π i) → mem p i = m.mem p i)
include hmem

theorem entry_scribble (e : Nat) (π : List Nat) (hok : OkPath UserIdx π) (hlen : π.length ≤ 4) :
    entry ppn roots mem (e, π) = entry ppn roots m.mem (e, π) := by
  refine h.tree.entry_congr ?_ e hok hlen
  intro p e' π' k hp hk
  exact hmem p k (.inr ⟨e', π', (labels_eq_some kind p e' π').1 hp, hk⟩)

/-- The contents of user pages and of unused pages may change, and so may the
    slots of tables from `UTOP` on. -/
theorem scribble : ({ m with mem := mem } : Vm).Wf pool mem0 roots kind held := by
  have htab : ∀ p e π k, labels kind p = some (e, π) → UserIdx π k → mem p k = m.mem p k := by
    intro p e π k hp hk
    exact hmem p k (.inr ⟨e, π, (labels_eq_some kind p e π).1 hp, hk⟩)
  have hent := h.entry_scribble hmem
  refine ⟨h.tree.congr htab, h.rootLt, h.kernel, ?_, h.bound, h.size, h.nodup, h.free, ?_, ?_, ?_⟩
  · intro p i hp
    rw [← h.keep p i hp]
    exact hmem p i (.inl ((h.kernel p).2 hp))
  · intro e π hok hlen
    rw [hent e π hok (by omega)]
    exact h.leaf e π hok hlen
  · intro e π hok hlen
    rw [hent e π hok hlen]
    exact h.present e π hok hlen
  · intro p hp
    rw [h.count p hp, refCount_congr { m with mem := mem }]
    intro y hy
    rcases (mem_places y).1 hy with ⟨_, hok, hlen⟩
    exact hent y.1 y.2 hok hlen

end

theorem entry_setLeaf {q e : Nat} (k : Nat) (v : Pte)
    (hq : kind q = .table e π) (hlen : π.length = 3) (e' : Nat) (π' : List Nat)
    (hok : OkPath UserIdx π') (hlen' : π'.length ≤ 4) :
    entry ppn roots (m.setEntry q k v).mem (e', π') =
      update (entry ppn roots m.mem) (e, k :: π) v (e', π') :=
  h.tree.entry_setLeaf e π q k v ((labels_eq_some kind q e π).2 hq) (by omega) e' π' hok hlen'

/-- A leaf entry changes; the reference it stood for is held afterwards, or the
    one it stands for now was held before. -/
theorem setLeaf (held' : Option Nat) (π : List Nat) (v : Pte)
    (hq : kind q = .table e π) (hlen : π.length = 3) (hk : UserIdx π k)
    (hv : v ≠ 0 → hasFlags v pteP = true ∧ kind (ppn v) = .user)
    (hheld : ∀ p, (if held' = some p then 1 else 0) + (if target v = some p then 1 else 0) =
      (if held = some p then 1 else 0) + if target (m.mem q k) = some p then 1 else 0) :
    (m.setEntry q k v).Wf pool mem0 roots kind held' := by
  have hlab := (labels_eq_some kind q e π).2 hq
  have hent := h.entry_setLeaf k v hq hlen
  have hx := h.mem_places_of_kind hq hk
  refine ⟨h.tree.setLeaf k v hlab (by omega), h.rootLt, h.kernel, ?_, h.bound, h.size,
    h.nodup, h.free, ?_, ?_, ?_⟩
  · intro p i hp
    have hpq : p ≠ q := by
      intro hpq
      rw [← h.kernel p, hpq, hq] at hp
      cases hp
    rw [setEntry_mem, Lib.Radix.setSlot_of_ne _ _ (.inl hpq)]
    exact h.keep p i hp
  · intro e' π' hok hlen'
    rw [hent e' π' hok (by omega)]
    by_cases hx' : (e', π') = (e, k :: π)
    · rw [hx', update_self]
      exact fun hne => (hv hne).2
    · rw [update_of_ne hx']
      exact h.leaf e' π' hok hlen'
  · intro e' π' hok hlen'
    rw [hent e' π' hok hlen']
    by_cases hx' : (e', π') = (e, k :: π)
    · rw [hx', update_self]
      exact fun hne => (hv hne).1
    · rw [update_of_ne hx']
      exact h.present e' π' hok hlen'
  · intro p hp
    have hc := refCount_update hx (by simp) (by
      intro y hy
      rcases (mem_places y).1 hy with ⟨_, hok, hly⟩
      exact hent y.1 y.2 hok hly) p
    rw [h.tree.entry_of_label q k hlab] at hc
    have hold := h.count p hp
    have hh := hheld p
    rw [setEntry_ppRef]
    omega

/-! ## Tables -/

/-- Pages that are no user pages may be given another use without a leaf noticing. -/
theorem leaf_update (k : Kind) (hp : kind p ≠ .user)
    (hok : OkPath UserIdx π) (hlen : π.length = 4) (hne : entry ppn roots m.mem (e, π) ≠ 0) :
    update kind p k (ppn (entry ppn roots m.mem (e, π))) = .user := by
  have hu := h.leaf e π hok hlen hne
  rw [update_of_ne, hu]
  intro hpp
  rw [hpp] at hu
  exact hp hu

/-- The kernel's pages and the free pages are the same after a page of neither
    kind has got another use of neither kind. -/
theorem kernel_update (p : Nat) (k : Kind) (hp : kind p ≠ .kernel) (hk : k ≠ .kernel) (q : Nat) :
    update kind p k q = .kernel ↔ ¬pool q := by
  by_cases hq : q = p
  · rw [hq, update_self]
    exact ⟨fun hc => absurd hc hk, fun hc => absurd ((h.kernel p).2 hc) hp⟩
  · rw [update_of_ne hq]
    exact h.kernel q

theorem free_update (p : Nat) (k : Kind) (hp : kind p ≠ .free) (hk : k ≠ .free) (q : Nat) :
    q ∈ m.pageFreeList ↔ update kind p k q = .free := by
  rw [h.free q]
  by_cases hq : q = p
  · rw [hq, update_self]
    exact ⟨fun hc => absurd hc hp, fun hc => absurd hc hk⟩
  · rw [update_of_ne hq]

/-- The entry for a table names its page and is present. -/
theorem tableEntry (p : Nat) (hp : kind p ≠ .kernel) :
    ppn (page2pa p ||| 7) = p ∧ hasFlags (page2pa p ||| 7) pteP = true ∧ page2pa p ||| 7 ≠ 0 := by
  refine ⟨ppn_mk (h.lt_of_kind hp) (by decide), ?_, or_ne_zero _ (by decide)⟩
  rw [hasFlags, or_present _ (by decide)]
  exact beq_self_eq_true _

theorem entry_attach {p q e k : Nat} (π : List Nat)
    (hq : kind q = .table e π) (hlen : π.length + 1 < 4) (hk : UserIdx π k) (hz : m.mem q k = 0)
    (hp : kind p = .lost) (hblank : ∀ i, m.mem p i = 0) (e' : Nat) (π' : List Nat)
    (hok : OkPath UserIdx π') (hlen' : π'.length ≤ 4) :
    entry ppn roots (m.setEntry q k (page2pa p ||| 7)).mem (e', π') =
      update (entry ppn roots m.mem) (e, k :: π) (page2pa p ||| 7) (e', π') := by
  rcases h.tableEntry p (by rw [hp]; simp) with ⟨hptr, _, hne⟩
  exact h.tree.entry_addChild ((labels_eq_some kind q e π).2 hq) hlen hk hz hne hptr
    (by simp [labels, hp, Kind.label]) hblank e' hok hlen'

end

/-- A held blank page becomes the table below an empty slot. -/
theorem attach (π : List Nat) (h : m.Wf pool mem0 roots kind (some p)) (hq : kind q = .table e π)
    (hlen : π.length + 1 < 4) (hk : UserIdx π k) (hz : m.mem q k = 0) (hp : kind p = .lost)
    (hblank : ∀ i, m.mem p i = 0) :
    (m.setEntry q k (page2pa p ||| 7)).Wf pool mem0 roots
      (update kind p (.table e (k :: π))) none := by
  have hlab := (labels_eq_some kind q e π).2 hq
  have hplab : labels kind p = none := by simp [labels, hp, Kind.label]
  rcases h.tableEntry p (by rw [hp]; simp) with ⟨hptr, hpres, hne⟩
  have hent := h.entry_attach π hq hlen hk hz hp hblank
  have hx := h.mem_places_of_kind hq hk
  have htree := h.tree.addChild hlab hlen hk hz hne hptr hplab hblank
  refine ⟨by rwa [labels_update], h.rootLt,
    h.kernel_update p _ (by rw [hp]; simp) (by simp), ?_, h.bound, h.size, h.nodup,
    h.free_update p _ (by rw [hp]; simp) (by simp), ?_, ?_, ?_⟩
  · intro r i hr
    have hrq : r ≠ q := by
      intro hrq
      rw [← h.kernel r, hrq, hq] at hr
      cases hr
    rw [setEntry_mem, Lib.Radix.setSlot_of_ne _ _ (.inl hrq)]
    exact h.keep r i hr
  · intro e' π' hok hlen' hne'
    -- the new entry is not a leaf
    have hx' : (e', π') ≠ (e, k :: π) := by
      intro hc
      rw [Prod.mk.injEq] at hc
      rw [hc.2, List.length_cons] at hlen'
      omega
    rw [hent e' π' hok (by omega), update_of_ne hx'] at hne' ⊢
    exact h.leaf_update _ (by rw [hp]; simp) hok hlen' hne'
  · intro e' π' hok hlen'
    rw [hent e' π' hok hlen']
    by_cases hx' : (e', π') = (e, k :: π)
    · rw [hx', update_self]
      exact fun _ => hpres
    · rw [update_of_ne hx']
      exact h.present e' π' hok hlen'
  · intro r hr
    have hc := refCount_update hx
      (by simp) (by
        intro y hy
        rcases (mem_places y).1 hy with ⟨_, hok, hly⟩
        exact hent y.1 y.2 hok hly) r
    rw [h.tree.entry_of_label q k hlab, hz, target_zero, target_of_present hpres, hptr] at hc
    have hold := h.count r hr
    rw [if_neg (by simp)] at hc
    rw [if_neg (by simp), setEntry_ppRef]
    omega

/-- A held page without tree entries becomes the root of a new address space. -/
theorem addRoot (r e : Nat) (h : m.Wf pool mem0 roots kind (some r)) (he : e < nenv)
    (hroot : roots e = none) (hr : kind r = .lost) (hblank : ∀ i, UserIdx [] i → m.mem r i = 0) :
    m.Wf pool mem0 (update roots e (some r)) (update kind r (.table e []))
      none := by
  have hlab : labels kind r = none := by simp [labels, hr, Kind.label]
  have hent := h.tree.entry_addRoot e r hroot hlab hblank
  have htree := h.tree.addRoot e r hroot hlab hblank
  refine ⟨by rwa [labels_update], ?_, h.kernel_update r _ (by rw [hr]; simp) (by simp),
    h.keep, h.bound, h.size, h.nodup, h.free_update r _ (by rw [hr]; simp) (by simp), ?_, ?_, ?_⟩
  · intro e' r' hr'
    by_cases hee : e' = e
    · rw [hee]; exact he
    · rw [update_of_ne hee] at hr'
      exact h.rootLt e' r' hr'
  · intro e' π' hok hlen hne
    rw [hent e' π' hok (by omega)] at hne ⊢
    exact h.leaf_update _ (by rw [hr]; simp) hok hlen hne
  · intro e' π' hok hlen
    rw [hent e' π' hok hlen]
    exact h.present e' π' hok hlen
  · intro p hp
    have hc := refCount_root m roots e (some r) he (by
      intro y hy
      rcases (mem_places y).1 hy with ⟨_, hok, hly⟩
      exact hent y.1 y.2 hok hly) p
    have hold := h.count p hp
    rw [hroot, if_neg (by simp)] at hc
    rw [if_neg (by simp)]
    omega

/-! ## The allocator -/

/-- `page_alloc` hands out the head of the free list. -/
theorem alloc (h : m.Wf pool mem0 roots kind held) {p : Nat} {rest : List Nat}
    (hlist : m.pageFreeList = p :: rest) :
    ({ m with pageFreeList := rest } : Vm).Wf pool mem0 roots (update kind p .lost)
      held := by
  have hp : kind p = .free := (h.free p).1 (hlist ▸ List.mem_cons_self)
  have hnd := h.nodup
  rw [hlist, List.nodup_cons] at hnd
  have hlabels := labels_update_plain kind .lost rfl (by rw [hp]; rfl)
  refine ⟨hlabels ▸ h.tree, h.rootLt,
    h.kernel_update p _ (by rw [hp]; simp) (by simp), h.keep, h.bound, h.size, hnd.2, ?_, ?_,
    h.present, h.count⟩
  · intro q
    by_cases hq : q = p
    · rw [hq, update_self]
      exact ⟨fun hm => absurd hm hnd.1, fun hc => by cases hc⟩
    · rw [update_of_ne hq, ← h.free q, hlist, List.mem_cons]
      exact ⟨fun hm => .inr hm, fun hm => hm.resolve_left hq⟩
  · intro e π hok hlen hne
    exact h.leaf_update _ (by rw [hp]; simp) hok hlen hne

/-- A lost page without references goes back to the free list. -/
theorem release (h : m.Wf pool mem0 roots kind none) (hp : kind p = .lost) :
    (m.pageFree p).Wf pool mem0 roots (update kind p .free) none := by
  have hz : m.ppRef p = 0 := by
    have hc := h.count p (h.pool_of_kind (by rw [hp]; simp))
    rw [h.refCount_eq_zero (by rw [hp]; simp) (by rw [hp]; simp), if_neg (by simp)] at hc
    exact BitVec.eq_of_toNat_eq hc
  have hnot : p ∉ m.pageFreeList := by
    rw [h.free p, hp]
    simp
  have hfree : m.pageFree p = { m with pageFreeList := p :: m.pageFreeList } := by
    rw [Vm.pageFree, if_neg (not_not.2 hz), if_neg hnot]
  have hlabels := labels_update_plain kind .free rfl (by rw [hp]; rfl)
  rw [hfree]
  refine ⟨hlabels ▸ h.tree, h.rootLt,
    h.kernel_update p _ (by rw [hp]; simp) (by simp), h.keep, h.bound, h.size,
    List.nodup_cons.2 ⟨hnot, h.nodup⟩, ?_, ?_, h.present, h.count⟩
  · intro q
    by_cases hq : q = p
    · rw [hq, update_self]
      exact ⟨fun _ => rfl, fun _ => List.mem_cons_self⟩
    · rw [update_of_ne hq, ← h.free q, List.mem_cons]
      exact ⟨fun hm => hm.resolve_left hq, fun hm => .inr hm⟩
  · intro e π hok hlen hne
    exact h.leaf_update _ (by rw [hp]; simp) hok hlen hne

/-- A lost page may be taken for user memory. -/
theorem claim (h : m.Wf pool mem0 roots kind held) (hp : kind p = .lost) :
    m.Wf pool mem0 roots (update kind p .user) held := by
  have hlabels := labels_update_plain kind .user rfl (by rw [hp]; rfl)
  exact ⟨hlabels ▸ h.tree, h.rootLt,
    h.kernel_update p _ (by rw [hp]; simp) (by simp), h.keep, h.bound, h.size, h.nodup,
    h.free_update p _ (by rw [hp]; simp) (by simp),
    fun e π hok hlen hne => h.leaf_update _ (by rw [hp]; simp) hok hlen hne,
    h.present, h.count⟩

/-- Assigning a `pp_ref` field changes which page is held. -/
theorem setRef (h : m.Wf pool mem0 roots kind held) {held' : Option Nat} {w : BitVec 16}
    (hw : pool p → w.toNat + (if held = some p then 1 else 0) =
      (m.ppRef p).toNat + if held' = some p then 1 else 0)
    (hother : ∀ q, q ≠ p → (held' = some q ↔ held = some q)) :
    (m.setRef p w).Wf pool mem0 roots kind held' := by
  refine ⟨h.tree, h.rootLt, h.kernel, h.keep, h.bound, h.size, h.nodup, h.free, h.leaf, h.present,
    ?_⟩
  intro q hq
  have hold := h.count q hq
  have hcount : (m.setRef p w).refCount roots q = m.refCount roots q := rfl
  rw [hcount, setRef_ppRef]
  by_cases hqp : q = p
  · rw [hqp] at hold hq ⊢
    rw [update_self]
    have := hw hq
    omega
  · rw [update_of_ne hqp, hold]
    simp only [hother q hqp]

/-- One more reference is taken. -/
theorem hold (h : m.Wf pool mem0 roots kind none) (p : Nat) (hp : m.ppRef p ≠ 65535) :
    (m.setRef p (m.ppRef p + 1)).Wf pool mem0 roots kind (some p) := by
  refine h.setRef ?_ ?_
  · intro _
    have hlt := (m.ppRef p).isLt
    have hne : (m.ppRef p).toNat ≠ 65535 := fun hc => hp (BitVec.eq_of_toNat_eq hc)
    rw [BitVec.toNat_add, if_neg (by simp), if_pos rfl]
    have h1 : (1 : BitVec 16).toNat = 1 := rfl
    rw [h1]
    omega
  · intro q hq
    simp only [Option.some.injEq, reduceCtorEq, iff_false]
    exact fun hc => hq hc.symm

/-- Only environments with a root have entries. -/
theorem lt_of_entry (h : m.Wf pool mem0 roots kind held) (hne : entry ppn roots m.mem (e, π) ≠ 0) :
    e < nenv := by
  cases hr : roots e with
  | none =>
    have hz : entry ppn roots m.mem (e, π) = 0 := by simp [entry, hr]
    exact absurd hz hne
  | some r => exact h.rootLt e r hr

/-- A user page that nothing refers to any more is lost. -/
theorem abandon (h : m.Wf pool mem0 roots kind held) (hp : kind p = .user)
    (hz : m.refCount roots p = 0) : m.Wf pool mem0 roots (update kind p .lost) held := by
  have hlabels := labels_update_plain kind .lost rfl (by rw [hp]; rfl)
  rw [refCount, Lib.Refs.count_eq_zero] at hz
  refine ⟨hlabels ▸ h.tree, h.rootLt,
    h.kernel_update p _ (by rw [hp]; simp) (by simp), h.keep, h.bound, h.size, h.nodup,
    h.free_update p _ (by rw [hp]; simp) (by simp), ?_, h.present, h.count⟩
  intro e π hok hlen hne
  have hpp : ppn (entry ppn roots m.mem (e, π)) ≠ p := by
    intro hc
    refine hz (e, π) ((mem_places _).2 ⟨h.lt_of_entry hne, hok, le_of_eq hlen⟩) ?_
    have hnil : π ≠ [] := by
      intro hn
      rw [hn] at hlen
      cases hlen
    rw [ref, if_neg hnil, target_of_present (h.present e π hok (by omega) hne), hc]
  rw [update_of_ne hpp]
  exact h.leaf e π hok hlen hne

/-- `page_decref` on the held page: the page is freed with its last reference. -/
theorem pageDecref (h : m.Wf pool mem0 roots kind (some p)) (hp : kind p = .lost ∨ kind p = .user) :
    ∃ kind', (m.pageDecref p).Wf pool mem0 roots kind' none ∧ (∀ q, q ≠ p → kind' q = kind q) ∧
      (kind' p = kind p ∨ kind' p = .free) := by
  have hpool : pool p := h.pool_of_kind (by rcases hp with hp | hp <;> rw [hp] <;> simp)
  have hc := h.count p hpool
  rw [if_pos rfl] at hc
  have hsub : (m.ppRef p - 1).toNat = m.refCount roots p := by
    have hlt := (m.ppRef p).isLt
    have h1 : (1 : BitVec 16).toNat = 1 := rfl
    rw [BitVec.toNat_sub, h1]
    omega
  have h1 : (m.setRef p (m.ppRef p - 1)).Wf pool mem0 roots kind none := by
    refine h.setRef ?_ ?_
    · intro _
      rw [hsub, hc, if_pos rfl, if_neg (by simp)]
    · intro q hq
      simp only [Option.some.injEq, reduceCtorEq, false_iff]
      exact fun hc => hq hc.symm
  unfold Vm.pageDecref
  simp only [setRef_ppRef, update_self]
  by_cases hz : m.ppRef p - 1 = 0
  · rw [if_pos hz]
    have hcount : m.refCount roots p = 0 := by
      rw [← hsub, hz]
      rfl
    -- the last reference is gone, so the page is as good as lost
    have h2 : (m.setRef p (m.ppRef p - 1)).Wf pool mem0 roots (update kind p .lost)
        none := by
      rcases hp with hp | hp
      · rwa [← hp, Function.update_eq_self]
      · exact h1.abandon hp hcount
    have h3 := h2.release (by rw [update_self])
    rw [Function.update_idem] at h3
    refine ⟨_, h3, fun q hq => by rw [update_of_ne hq], .inr ?_⟩
    rw [update_self]
  · rw [if_neg hz]
    exact ⟨kind, h1, fun _ _ => rfl, .inl rfl⟩

end Wf
end Vm
end Jos
