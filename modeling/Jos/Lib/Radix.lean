import Mathlib.Logic.Function.Basic
import Mathlib.Tactic.Common

/-!
# Radix Trees in a Paged Memory

A radix tree of fixed depth is kept in a memory of pages of words: a node is a
page, a slot of an inner node is zero or holds a word whose `ptr` is the page
of the child. Several trees share one memory, each with an owner. What keeps
them apart is a *label* on pages, which says that a page is the node of one
owner at one path, and `Tree` says that the memory agrees with the labels.

Paths are written deepest index first, so that the path of a child is one
`cons` over the path of its parent. The predicate `ok` selects the slots that
belong to the tree; the other slots of a node are free for other uses and no
rule looks at them.

## Main definitions

* `OkPath`: Every index of a path is one of the tree's slots.
* `setSlot`, `clearPage`: The two writes a memory sees.
* `Tree`: Memory and labels agree.
* `node`, `lookup`, `entry`: Walk a path from a root.

## Theorems

* `Tree.label_inj`: Owner and path determine the node.
* `Tree.congr`: Writes outside the tree's slots keep the tree.
* `Tree.setLeaf`, `Tree.addChild`: The updates of one slot.
* `Tree.addRoot`, `Tree.dropOwner`: A tree appears or goes.
* `Tree.ofNode`: A single tree without shared nodes has labels.
* `Tree.entry_of_label`: A slot of a labelled node is the entry at its path.
* `Tree.entry_update`: An update of one slot changes one entry; each update
  above has its instance.
-/

namespace Lib

open Function (update update_self update_of_ne)
open Option (bind_some getD_some map_some some.inj some.injEq)
namespace Radix

variable {ι W : Type} {π π' : List Nat} {e : ι} {k p q r : Nat} {v : W}
  {label' : Nat → Option (ι × List Nat)}

/-- Every index of the path is a slot of the tree. -/
def OkPath (ok : List Nat → Nat → Prop) : List Nat → Prop
  | [] => True
  | k :: π => OkPath ok π ∧ ok π k

theorem OkPath.of_append {ok : List Nat → Nat → Prop} (h : OkPath ok (π ++ π')) : OkPath ok π' := by
  induction π with
  | nil => exact h
  | cons k π ih => exact ih h.1

/-- Write one slot of one page. -/
def setSlot (mem : Nat → Nat → W) (q k : Nat) (v : W) : Nat → Nat → W :=
  fun p i => if p = q ∧ i = k then v else mem p i

/-- Zero a whole page. -/
def clearPage [Zero W] (mem : Nat → Nat → W) (q : Nat) : Nat → Nat → W :=
  fun p i => if p = q then 0 else mem p i

variable (mem : Nat → Nat → W)

@[simp] theorem setSlot_self (q k : Nat) (v : W) :
    setSlot mem q k v q k = v := by
  simp [setSlot]

theorem setSlot_of_ne (v : W) {i : Nat} (h : p ≠ q ∨ i ≠ k) :
    setSlot mem q k v p i = mem p i := by
  unfold setSlot
  rw [if_neg]
  rintro ⟨hp, hi⟩
  rcases h with h | h
  · exact h hp
  · exact h hi

theorem setSlot_setSlot (q k : Nat) (v w : W) :
    setSlot (setSlot mem q k v) q k w = setSlot mem q k w := by
  funext p i
  unfold setSlot
  split <;> rfl

@[simp] theorem clearPage_self [Zero W] (q i : Nat) :
    clearPage mem q q i = 0 := by
  simp [clearPage]

theorem clearPage_of_ne [Zero W] {q p : Nat} (i : Nat) (h : p ≠ q) :
    clearPage mem q p i = mem p i := by
  simp [clearPage, h]

variable [Zero W]

/-- The memory agrees with the labels: roots carry the empty path, a non-zero
    slot of an inner node leads to the node labelled one step further, and
    every labelled node hangs below its parent. Nodes have paths shorter than
    `depth`, so the slots of a path of length `depth` are the leaves. -/
structure Tree (depth : Nat) (ok : List Nat → Nat → Prop) (ptr : W → Nat)
    (roots : ι → Option Nat) (mem : Nat → Nat → W)
    (label : Nat → Option (ι × List Nat)) : Prop where
  root : ∀ e r, roots e = some r ↔ label r = some (e, [])
  down : ∀ p e π k, label p = some (e, π) → π.length + 1 < depth → ok π k → mem p k ≠ 0 →
    label (ptr (mem p k)) = some (e, k :: π)
  up : ∀ p e k π, label p = some (e, k :: π) → π.length + 1 < depth ∧ ok π k ∧
    ∃ q, label q = some (e, π) ∧ mem q k ≠ 0 ∧ ptr (mem q k) = p

namespace Tree

variable {depth : Nat} {ok : List Nat → Nat → Prop} {ptr : W → Nat} {roots : ι → Option Nat}
  {mem : Nat → Nat → W} {label : Nat → Option (ι × List Nat)}

section

variable (t : Tree depth ok ptr roots mem label)

include t

theorem root_of_label :
    ∀ p, label p = some (e, π) → ∃ r, roots e = some r := by
  induction π with
  | nil => intro p h; exact ⟨p, (t.root e p).2 h⟩
  | cons k π ih =>
    intro p h
    rcases t.up p e k π h with ⟨_, _, q, hq, _⟩
    exact ih q hq

theorem okPath_of_label :
    ∀ p, label p = some (e, π) → OkPath ok π := by
  induction π with
  | nil => intro p _; trivial
  | cons k π ih =>
    intro p h
    rcases t.up p e k π h with ⟨_, hk, q, hq, _⟩
    exact ⟨ih q hq, hk⟩

theorem length_lt (hd : 0 < depth) (h : label p = some (e, π)) : π.length < depth := by
  cases π with
  | nil => exact hd
  | cons k π => exact (t.up p e k π h).1

/-- Owner and path determine the node: the two parents are the same node by
    induction, and they hold the children in the same slot. -/
theorem label_inj :
    ∀ p q, label p = some (e, π) → label q = some (e, π) → p = q := by
  induction π with
  | nil =>
    intro p q hp hq
    have hp' := (t.root e p).2 hp
    rw [(t.root e q).2 hq] at hp'
    exact (some.inj hp').symm
  | cons k π ih =>
    intro p q hp hq
    rcases t.up p e k π hp with ⟨_, _, p', hp', _, hpp⟩
    rcases t.up q e k π hq with ⟨_, _, q', hq', _, hqq⟩
    rw [← hpp, ← hqq, ih p' q' hp' hq']

/-- Writes that miss the slots of the tree keep it. -/
theorem congr {mem' : Nat → Nat → W}
    (h : ∀ p e π k, label p = some (e, π) → ok π k → mem' p k = mem p k) :
    Tree depth ok ptr roots mem' label where
  root := t.root
  down := by
    intro p e π k hp hlen hk hne
    rw [h p e π k hp hk] at hne ⊢
    exact t.down p e π k hp hlen hk hne
  up := by
    intro p e k π hp
    rcases t.up p e k π hp with ⟨hlen, hk, q, hq, hne, hptr⟩
    refine ⟨hlen, hk, q, hq, ?_, ?_⟩
    · rw [h q e π k hq hk]; exact hne
    · rw [h q e π k hq hk]; exact hptr

/-- A leaf slot may hold any word. -/
theorem setLeaf {q : Nat} (k : Nat) (v : W)
    (hq : label q = some (e, π)) (hlen : π.length + 1 = depth) :
    Tree depth ok ptr roots (setSlot mem q k v) label := by
  -- No slot of an inner node is written: inner nodes have shorter paths than `q`.
  have hmem : ∀ p e' π' i, label p = some (e', π') → π'.length + 1 < depth →
      setSlot mem q k v p i = mem p i := by
    intro p e' π' i hp hlt
    refine setSlot_of_ne mem v (.inl ?_)
    rintro rfl
    rw [hq] at hp
    cases hp
    omega
  refine ⟨t.root, ?_, ?_⟩
  · intro p e' π' i hp hlt hi hne
    rw [hmem p e' π' i hp hlt] at hne ⊢
    exact t.down p e' π' i hp hlt hi hne
  · intro p e' i π' hp
    rcases t.up p e' i π' hp with ⟨hlt, hi, p', hp', hne, hptr⟩
    refine ⟨hlt, hi, p', hp', ?_, ?_⟩
    · rw [hmem p' e' π' i hp' hlt]; exact hne
    · rw [hmem p' e' π' i hp' hlt]; exact hptr

/-- A path whose last slot is zero has no node. -/
theorem no_label_of_zero {q k : Nat}
    (hq : label q = some (e, π)) (hz : mem q k = 0) (p : Nat) : label p ≠ some (e, k :: π) := by
  intro hp
  rcases t.up p e k π hp with ⟨_, _, q', hq', hne, _⟩
  rw [t.label_inj q' q hq' hq] at hne
  exact hne hz

/-- An empty inner slot takes a fresh, blank page as its child. -/
theorem addChild (hq : label q = some (e, π))
    (hlen : π.length + 1 < depth) (hk : ok π k) (hz : mem q k = 0) (hv : v ≠ 0) (hptr : ptr v = p)
    (hp : label p = none) (hblank : ∀ i, mem p i = 0) :
    Tree depth ok ptr roots (setSlot mem q k v) (update label p (some (e, k :: π))) := by
  have hqp : q ≠ p := by rintro rfl; rw [hq] at hp; cases hp
  have hold : ∀ p' x, label p' = some x →
      update label p (some (e, k :: π)) p' = some x := by
    intro p' x h
    rw [update_of_ne (by rintro rfl; rw [hp] at h; cases h), h]
  refine ⟨?_, ?_, ?_⟩
  · intro e' r
    rw [t.root e' r]
    by_cases hrp : r = p
    · rw [hrp, hp, update_self]; simp
    · rw [update_of_ne hrp]
  · intro p' e' π' i hp' hlt hi hne
    by_cases hpp : p' = p
    · -- the new node is blank
      rw [hpp, setSlot_of_ne mem v (.inl hqp.symm), hblank i] at hne
      exact absurd rfl hne
    · rw [update_of_ne hpp] at hp'
      by_cases hs : p' = q ∧ i = k
      · rcases hs with ⟨rfl, rfl⟩
        rw [hq, some.injEq, Prod.mk.injEq] at hp'
        rw [setSlot_self, hptr, update_self, hp'.1, hp'.2]
      · have hs' : setSlot mem q k v p' i = mem p' i :=
          setSlot_of_ne mem v (by rwa [← not_and_or])
        rw [hs'] at hne ⊢
        exact hold _ _ (t.down p' e' π' i hp' hlt hi hne)
  · intro p' e' i π' hp'
    by_cases hpp : p' = p
    · rw [hpp, update_self, some.injEq, Prod.mk.injEq, List.cons.injEq] at hp'
      rcases hp' with ⟨rfl, rfl, rfl⟩
      refine ⟨hlen, hk, q, hold _ _ hq, ?_, ?_⟩
      · rw [setSlot_self]; exact hv
      · rw [setSlot_self, hptr, hpp]
    · rw [update_of_ne hpp] at hp'
      rcases t.up p' e' i π' hp' with ⟨hlt, hi, q', hq', hne, hptr'⟩
      have hs : setSlot mem q k v q' i = mem q' i := by
        refine setSlot_of_ne mem v ?_
        rw [← not_and_or]
        rintro ⟨rfl, rfl⟩
        exact hne hz
      refine ⟨hlt, hi, q', hold _ _ hq', ?_, ?_⟩
      · rw [hs]; exact hne
      · rw [hs]; exact hptr'

/-- A new owner starts with a root whose tree slots are zero. -/
theorem addRoot [DecidableEq ι] (e : ι) (r : Nat)
    (he : roots e = none) (hr : label r = none) (hblank : ∀ i, ok [] i → mem r i = 0) :
    Tree depth ok ptr (update roots e (some r)) mem
      (update label r (some (e, []))) := by
  have hno : ∀ p π, label p ≠ some (e, π) := by
    intro p π hp
    rcases t.root_of_label p hp with ⟨r', hr'⟩
    rw [he] at hr'
    cases hr'
  refine ⟨?_, ?_, ?_⟩
  · intro e' r'
    by_cases hee : e' = e
    · subst hee
      rw [update_self]
      by_cases hrr : r' = r
      · rw [hrr, update_self]; simp
      · rw [update_of_ne hrr]
        constructor
        · intro h; exact absurd (some.inj h).symm hrr
        · intro h; exact absurd h (hno r' [])
    · rw [update_of_ne hee, t.root e' r']
      by_cases hrr : r' = r
      · rw [hrr, hr, update_self, some.injEq, Prod.mk.injEq]
        constructor
        · intro h; cases h
        · intro h; exact absurd h.1.symm hee
      · rw [update_of_ne hrr]
  · intro p e' π i hp hlt hi hne
    by_cases hpr : p = r
    · rw [hpr, update_self] at hp
      cases hp
      rw [hpr] at hne
      exact absurd (hblank i hi) hne
    · rw [update_of_ne hpr] at hp
      have hd := t.down p e' π i hp hlt hi hne
      rw [update_of_ne (by rintro h; rw [h, hr] at hd; cases hd), hd]
  · intro p e' i π hp
    have hpr : p ≠ r := by
      rintro rfl
      rw [update_self, some.injEq, Prod.mk.injEq] at hp
      cases hp.2
    rw [update_of_ne hpr] at hp
    rcases t.up p e' i π hp with ⟨hlt, hi, q, hq, hne, hptr⟩
    refine ⟨hlt, hi, q, ?_, hne, hptr⟩
    rw [update_of_ne (by rintro rfl; rw [hr] at hq; cases hq), hq]

/-- Below a root whose tree slots are zero there is no node. -/
theorem no_label_of_blank_root (hr : roots e = some r)
    (hblank : ∀ i, ok [] i → mem r i = 0) (π : List Nat) : ∀ k p, label p ≠ some (e, k :: π) := by
  induction π with
  | nil =>
    intro k p hp
    rcases t.up p e k [] hp with ⟨_, hk, q, hq, hne, _⟩
    rw [t.label_inj q r hq ((t.root e r).1 hr)] at hne
    exact hne (hblank k hk)
  | cons k' π ih =>
    intro k p hp
    rcases t.up p e k (k' :: π) hp with ⟨_, _, q, hq, _⟩
    exact ih k' q hq

/-- An owner goes, with all its nodes. -/
theorem dropOwner [DecidableEq ι]
    (h : ∀ p e' π, label' p = some (e', π) ↔ label p = some (e', π) ∧ e' ≠ e) :
    Tree depth ok ptr (update roots e none) mem label' where
  root := by
    intro e' r
    rw [h, ← t.root]
    by_cases hee : e' = e
    · simp [hee]
    · simp [hee]
  down := by
    intro p e' π k hp hlen hk hne
    rw [h] at hp ⊢
    exact ⟨t.down p e' π k hp.1 hlen hk hne, hp.2⟩
  up := by
    intro p e' k π hp
    rw [h] at hp
    rcases t.up p e' k π hp.1 with ⟨hlen, hk, q, hq, hne, hptr⟩
    exact ⟨hlen, hk, q, (h q e' π).2 ⟨hq, hp.2⟩, hne, hptr⟩

end

end Tree

section Walk

variable [DecidableEq W]

/-- The page at the end of a path, if no slot on the way is zero. -/
def node (ptr : W → Nat) (mem : Nat → Nat → W) (r : Nat) : List Nat → Option Nat
  | [] => some r
  | k :: π => (node ptr mem r π).bind fun p => if mem p k = 0 then none else some (ptr (mem p k))

theorem node_cons_eq_some {ptr : W → Nat} {mem : Nat → Nat → W} {r k q : Nat} {π : List Nat} :
    node ptr mem r (k :: π) = some q ↔
      ∃ p, node ptr mem r π = some p ∧ mem p k ≠ 0 ∧ ptr (mem p k) = q := by
  simp only [node, Option.bind_eq_some_iff, Option.ite_none_left_eq_some, some.injEq, ne_eq]

/-- The word in the last slot of a path, zero where the path breaks off. -/
def lookup (ptr : W → Nat) (mem : Nat → Nat → W) (r : Nat) : List Nat → W
  | [] => 0
  | k :: π => ((node ptr mem r π).map fun p => mem p k).getD 0

/-- The word an owner's tree holds at a path, zero for an owner without a tree. -/
def entry (ptr : W → Nat) (roots : ι → Option Nat) (mem : Nat → Nat → W) (x : ι × List Nat) : W :=
  ((roots x.1).map fun r => lookup ptr mem r x.2).getD 0

namespace Tree

variable {depth : Nat} {ok : List Nat → Nat → Prop} {ptr : W → Nat} {roots : ι → Option Nat}
  {mem mem' : Nat → Nat → W} {label : Nat → Option (ι × List Nat)}

theorem node_of_label (t : Tree depth ok ptr roots mem label) (hr : roots e = some r) :
    ∀ p, label p = some (e, π) → node ptr mem r π = some p := by
  induction π with
  | nil =>
    intro p h
    have hp := (t.root e p).2 h
    rwa [hr] at hp
  | cons k π ih =>
    intro p h
    rcases t.up p e k π h with ⟨_, _, q, hq, hne, hptr⟩
    simp only [node, ih q hq, bind_some, if_neg hne, hptr]

/-- A walk that starts at a labelled root stays on labelled nodes, as long as
    the slots lead from labelled nodes to labelled nodes. -/
theorem label_of_node_of_down (hr : label r = some (e, []))
    (hdown : ∀ p π k, label p = some (e, π) → π.length + 1 < depth → ok π k → mem p k ≠ 0 →
      label (ptr (mem p k)) = some (e, k :: π)) :
    ∀ p, OkPath ok π → π.length < depth → node ptr mem r π = some p →
      label p = some (e, π) := by
  induction π with
  | nil =>
    intro p _ _ h
    have hp : r = p := by simpa only [node, some.injEq] using h
    rwa [← hp]
  | cons k π ih =>
    intro p hok hlen h
    rcases node_cons_eq_some.1 h with ⟨q, hq, hz, rfl⟩
    rw [List.length_cons] at hlen
    exact hdown q π k (ih q hok.1 (by omega) hq) hlen hok.2 hz

theorem label_of_node (t : Tree depth ok ptr roots mem label) (e : ι) (hr : roots e = some r)
    (hok : OkPath ok π) (hlen : π.length < depth) (hp : node ptr mem r π = some p) :
    label p = some (e, π) :=
  label_of_node_of_down ((t.root e r).1 hr) (fun q π k => t.down q e π k) p hok hlen hp

/-- A single tree in which no page is the node of two paths has labels: a page is
    labelled with the path it is the node of. -/
theorem ofNode [DecidableEq ι] (e0 : ι) {r0 : Nat} (hdepth : 0 < depth)
    (hinj : ∀ π π' p, OkPath ok π → OkPath ok π' → π.length < depth → π'.length < depth →
      node ptr mem r0 π = some p → node ptr mem r0 π' = some p → π = π') :
    ∃ label, Tree depth ok ptr (fun e => if e = e0 then some r0 else none) mem label ∧
      ∀ p e π, label p = some (e, π) ↔
        e = e0 ∧ OkPath ok π ∧ π.length < depth ∧ node ptr mem r0 π = some p := by
  classical
  let isNode := fun (p : Nat) (π : List Nat) =>
    OkPath ok π ∧ π.length < depth ∧ node ptr mem r0 π = some p
  -- a page has at most one path, so that any choice of it will do
  let label := fun p : Nat => if h : ∃ π, isNode p π then some (e0, h.choose) else none
  have hlabel : ∀ p e π, label p = some (e, π) ↔ e = e0 ∧ isNode p π := by
    intro p e π
    by_cases h : ∃ π, isNode p π
    · have hchoose := h.choose_spec
      have hp : label p = some (e0, h.choose) := dif_pos h
      rw [hp, some.injEq, Prod.mk.injEq]
      constructor
      · rintro ⟨he, hπ⟩
        exact ⟨he.symm, hπ ▸ hchoose⟩
      · rintro ⟨he, hπ⟩
        exact ⟨he.symm, hinj _ _ p hchoose.1 hπ.1 hchoose.2.1 hπ.2.1 hchoose.2.2 hπ.2.2⟩
    · have hp : label p = none := dif_neg h
      rw [hp]
      exact iff_of_false (by simp) fun hc => h ⟨π, hc.2⟩
  refine ⟨label, ⟨?_, ?_, ?_⟩, hlabel⟩
  · intro e r
    rw [hlabel]
    by_cases he : e = e0
    · rw [if_pos he]
      constructor
      · intro hr
        exact ⟨he, trivial, hdepth, hr⟩
      · intro hr
        exact hr.2.2.2
    · rw [if_neg he]
      exact iff_of_false (by simp) fun hc => he hc.1
  · intro p e π k hp hlen hk hne
    rcases (hlabel p e π).1 hp with ⟨he, hok, _, hnode⟩
    refine (hlabel _ e (k :: π)).2 ⟨he, ⟨hok, hk⟩, hlen, ?_⟩
    rw [node, hnode, bind_some, if_neg hne]
  · intro p e k π hp
    rcases (hlabel p e (k :: π)).1 hp with ⟨he, hok, hlen, hnode⟩
    rw [List.length_cons] at hlen
    rcases node_cons_eq_some.1 hnode with ⟨q, hq, hslot⟩
    exact ⟨hlen, hok.2, q, (hlabel q e π).2 ⟨he, hok.1, by omega, hq⟩, hslot⟩

section

variable (t : Tree depth ok ptr roots mem label)

include t

/-- A slot of a labelled node is the entry at the node's path. -/
theorem entry_of_label (p k : Nat)
    (hp : label p = some (e, π)) : entry ptr roots mem (e, k :: π) = mem p k := by
  rcases t.root_of_label p hp with ⟨r, hr⟩
  simp only [entry, lookup, hr, t.node_of_label hr p hp, map_some, getD_some]

/-- Where no node is labelled with the path, the walk breaks off. -/
theorem entry_of_no_label (k : Nat) (hok : OkPath ok π)
    (hlen : π.length < depth) (hno : ∀ p, label p ≠ some (e, π)) :
    entry ptr roots mem (e, k :: π) = 0 := by
  cases hr : roots e with
  | none => simp only [entry, hr, Option.map_none, Option.getD_none]
  | some r =>
    cases hn : node ptr mem r π with
    | none => simp only [entry, lookup, hr, hn, Option.map_none, map_some,
        Option.getD_none, getD_some]
    | some p => exact absurd (t.label_of_node e hr hok hlen hn) (hno p)

/-- A non-zero entry sits in the slot of a labelled node. -/
theorem label_of_entry (hok : OkPath ok π)
    (hlen : π.length < depth) (hne : entry ptr roots mem (e, k :: π) ≠ 0) :
    ∃ p, label p = some (e, π) ∧ mem p k = entry ptr roots mem (e, k :: π) := by
  by_contra hno
  push Not at hno
  refine hne (t.entry_of_no_label k hok hlen ?_)
  intro p hp
  exact hno p hp (t.entry_of_label p k hp).symm

/-- Two trees have the same entry at a path when they have the same node there
    and the same word in it. -/
theorem entry_eq_of_node {roots' : ι → Option Nat}
    (t' : Tree depth ok ptr roots' mem' label') (hok : OkPath ok π) (hlen : π.length < depth)
    (hlab : ∀ p, label' p = some (e, π) ↔ label p = some (e, π))
    (hmem : ∀ p, label p = some (e, π) → mem' p k = mem p k) :
    entry ptr roots' mem' (e, k :: π) = entry ptr roots mem (e, k :: π) := by
  by_cases h : ∃ p, label p = some (e, π)
  · rcases h with ⟨p, hp⟩
    rw [t.entry_of_label p k hp, t'.entry_of_label p k ((hlab p).2 hp), hmem p hp]
  · push Not at h
    rw [t.entry_of_no_label k hok hlen h,
      t'.entry_of_no_label k hok hlen (fun p hp => h p ((hlab p).1 hp))]

theorem entry_congr {mem' : Nat → Nat → W}
    (h : ∀ p e π k, label p = some (e, π) → ok π k → mem' p k = mem p k)
    (e : ι) {π : List Nat} (hok : OkPath ok π) (hlen : π.length ≤ depth) :
    entry ptr roots mem' (e, π) = entry ptr roots mem (e, π) := by
  cases π with
  | nil => cases hr : roots e <;> simp [entry, lookup, hr]
  | cons k π =>
    exact t.entry_eq_of_node (t.congr h) hok.1 hlen (fun _ => Iff.rfl)
      (fun p hp => h p e π k hp hok.2)

end

variable [DecidableEq ι]

section

variable (t : Tree depth ok ptr roots mem label)

include t

/-- The common shape of the updates: one slot of the node `q` takes the word
    `v`, the subtree below that slot has only zero words before and after, and
    nothing else changes. -/
theorem entry_update (t' : Tree depth ok ptr roots mem' label') (hq : label q = some (e, π))
    (hq' : label' q = some (e, π)) (hv : mem' q k = v)
    (hlab : ∀ p x, x ≠ (e, k :: π) → (label' p = some x ↔ label p = some x))
    (hmem : ∀ p e' π' i, label p = some (e', π') → ok π' i → (e', π') ≠ (e, k :: π) →
      ¬(p = q ∧ i = k) → mem' p i = mem p i)
    (hold : ∀ p i, label p = some (e, k :: π) → ok (k :: π) i → mem p i = 0)
    (hnew : ∀ p i, label' p = some (e, k :: π) → ok (k :: π) i → mem' p i = 0) (e' : ι)
    (hok : OkPath ok π') (hlen : π'.length ≤ depth) :
    entry ptr roots mem' (e', π') =
      update (entry ptr roots mem) (e, k :: π) v (e', π') := by
  cases π' with
  | nil =>
    rw [update_of_ne (by simp)]
    cases hr : roots e' <;> simp [entry, lookup, hr]
  | cons i π' =>
    rw [List.length_cons] at hlen
    by_cases hx : (e', π') = (e, k :: π)
    · -- the entry lies in the subtree below the slot
      rw [Prod.mk.injEq] at hx
      rcases hx with ⟨rfl, rfl⟩
      have hz : ∀ (m : Nat → Nat → W) (l : Nat → Option (ι × List Nat)),
          Tree depth ok ptr roots m l →
          (∀ p i, l p = some (e', k :: π) → ok (k :: π) i → m p i = 0) →
          entry ptr roots m (e', i :: k :: π) = 0 := by
        intro m l tm hm
        by_contra hne
        rcases tm.label_of_entry hok.1 (by omega) hne with ⟨p, hp, hpi⟩
        rw [hm p i hp hok.2] at hpi
        exact hne hpi.symm
      rw [update_of_ne (by simp), hz mem label t hold, hz mem' label' t' hnew]
    · by_cases hs : (e', i :: π') = (e, k :: π)
      · rw [hs, update_self, t'.entry_of_label q k hq', hv]
      · rw [update_of_ne hs]
        refine t.entry_eq_of_node t' hok.1 (by omega) (fun p => hlab p _ hx) ?_
        intro p hp
        refine hmem p e' π' i hp hok.2 hx ?_
        rintro ⟨rfl, rfl⟩
        rw [hq, some.injEq, Prod.mk.injEq] at hp
        exact hs (by rw [← hp.1, ← hp.2])

theorem entry_setLeaf (e : ι) (π : List Nat) (q k : Nat)
    (v : W) (hq : label q = some (e, π)) (hlen : π.length + 1 = depth)
    (e' : ι) (π' : List Nat) (hok : OkPath ok π') (hlen' : π'.length ≤ depth) :
    entry ptr roots (setSlot mem q k v) (e', π') =
      update (entry ptr roots mem) (e, k :: π) v (e', π') := by
  have hno : ∀ p, label p ≠ some (e, k :: π) := by
    intro p hp
    have hlt := t.length_lt (by omega) hp
    rw [List.length_cons] at hlt
    omega
  exact t.entry_update (t.setLeaf k v hq hlen) hq hq (setSlot_self mem q k v)
    (fun _ _ _ => Iff.rfl)
    (fun p _ _ i _ _ _ hs => setSlot_of_ne mem v (by rwa [← not_and_or]))
    (fun p _ hp => absurd hp (hno p)) (fun p _ hp => absurd hp (hno p)) e' hok hlen'

theorem entry_addChild (hq : label q = some (e, π)) (hlen : π.length + 1 < depth) (hk : ok π k)
    (hz : mem q k = 0) (hv : v ≠ 0) (hptr : ptr v = p) (hp : label p = none)
    (hblank : ∀ i, mem p i = 0) (e' : ι) (hok : OkPath ok π') (hlen' : π'.length ≤ depth) :
    entry ptr roots (setSlot mem q k v) (e', π') =
      update (entry ptr roots mem) (e, k :: π) v (e', π') := by
  have hqp : q ≠ p := by rintro rfl; rw [hq] at hp; cases hp
  refine t.entry_update (t.addChild hq hlen hk hz hv hptr hp hblank) hq ?_
    (setSlot_self mem q k v) ?_ ?_ ?_ ?_ e' hok hlen'
  · rw [update_of_ne hqp, hq]
  · intro p' x hx
    by_cases hpp : p' = p
    · rw [hpp, update_self, hp]
      simp only [some.injEq, reduceCtorEq, iff_false]
      exact fun h => hx h.symm
    · rw [update_of_ne hpp]
  · intro p' _ _ i _ _ _ hs
    exact setSlot_of_ne mem v (by rwa [← not_and_or])
  · intro p' _ hp'
    exact absurd hp' (t.no_label_of_zero hq hz p')
  · intro p' i hp' _
    by_cases hpp : p' = p
    · rw [hpp, setSlot_of_ne mem v (.inl hqp.symm), hblank i]
    · rw [update_of_ne hpp] at hp'
      exact absurd hp' (t.no_label_of_zero hq hz p')

/-- A new owner's entries are zero and the others' are unchanged. -/
theorem entry_addRoot (e : ι) (r : Nat)
    (he : roots e = none) (hr : label r = none) (hblank : ∀ i, ok [] i → mem r i = 0)
    (e' : ι) (π' : List Nat) (hok : OkPath ok π') (hlen' : π'.length ≤ depth) :
    entry ptr (update roots e (some r)) mem (e', π') = entry ptr roots mem (e', π') := by
  have t' := t.addRoot e r he hr hblank
  by_cases hee : e' = e
  · subst hee
    have hz : entry ptr roots mem (e', π') = 0 := by simp [entry, he]
    rw [hz]
    cases π' with
    | nil => simp [entry, lookup]
    | cons k π' =>
      rw [List.length_cons] at hlen'
      cases π' with
      | nil => rw [t'.entry_of_label r k (by simp)]; exact hblank k hok.2
      | cons k' π' =>
        exact t'.entry_of_no_label k hok.1 hlen'
          (t'.no_label_of_blank_root (by simp) hblank π' k')
  · simp [entry, hee]

end

end Tree
end Walk
end Radix
end Lib
