import Jos.Theory.Insert

/-!
# Borrowed Pages

An environment borrows pages: `env_setup_vm` and `page_insert` take them from the
free list or add a reference to pages that others use, and `env_free` is to
return all of them. Between the two, the counts and the free list are those of
the memory before, changed by exactly what the tree of the environment refers to.

Whatever is done to the tree is done to one entry at a time: a walk hangs a table
from the free list below an empty slot, and the last step of `page_insert` sets a
leaf. `Lent.move` is about one such entry.

## Main definitions

* `Vm.Idle`: A memory from which an environment may be built.
* `Vm.Lent`: The memory with the pages that one tree has borrowed.
* `Vm.Lending`: What a walk keeps.

## Theorems

* `Lent.move`: One entry moves from one page to another.
* `Lent.walk`: A walk takes free pages for its tables.
* `Lent.update`: One leaf is set.
* `Lent.pageInsert`, `Lent.alloc`: Mapping a page that is in use or a new one.
-/

namespace Jos

open Lib.Radix (Tree node lookup entry OkPath setSlot)
open Function (update_self update_of_ne)

namespace Vm

variable {m' m m0 m1 : Vm} {v : Pte} {x : List Nat} {l : Label} {root p : Nat}

/-- Changing one entry moves one reference. -/
theorem treeCount_update {root : Nat} (hx : x ∈ treePaths) (hnil : x ≠ [])
    (hlookup : ∀ π, OkPath UserIdx π → π.length ≤ 4 →
      lookup ppn m'.mem root π = if π = x then v else lookup ppn m.mem root π) (q : Nat) :
    m'.treeCount root q + (if target (lookup ppn m.mem root x) = some q then 1 else 0) =
      m.treeCount root q + if target v = some q then 1 else 0 := by
  have hupd := Lib.Refs.count_update (m.refAt root) (m'.refAt root) hx (by
    intro π hπ hne
    rcases (mem_treePaths π).1 hπ with ⟨hok, hlen⟩
    rw [refAt, refAt, hlookup π hok hlen, if_neg hne]) q
  rcases (mem_treePaths x).1 hx with ⟨hok, hlen⟩
  have hold : m.refAt root x = target (lookup ppn m.mem root x) := if_neg hnil
  have hnew : m'.refAt root x = target v := by
    rw [refAt, if_neg hnil, hlookup x hok hlen, if_pos rfl]
  rw [hold, hnew] at hupd
  rwa [treeCount, treeCount]

/-! ## Borrowed pages -/

/-- A count that is made up of two parts is zero if both are. -/
theorem ref_eq_zero_iff {r r0 : BitVec 16} {t : Nat} (h : r.toNat = r0.toNat + t) :
    r = 0 ↔ r0 = 0 ∧ t = 0 := by
  have hz : ∀ x : BitVec 16, x = 0 ↔ x.toNat = 0 := fun x =>
    ⟨fun hx => by rw [hx]; rfl, fun hx => BitVec.eq_of_toNat_eq hx⟩
  rw [hz, hz, h]
  omega

/-- The free pages exist, and nothing refers to them. -/
structure Idle (m : Vm) : Prop where
  size : m.npages ≤ 2 ^ 52
  nodup : m.pageFreeList.Nodup
  free : ∀ p ∈ m.pageFreeList, 0 < p ∧ p < m.npages ∧ m.ppRef p = 0

/-- The memory `m` is `m0` with the pages that the tree has borrowed; `held` has
    been taken from the free list and is not yet mapped. Only pages that were free
    or in use can be borrowed. -/
structure Lent (m0 : Vm) (root : Nat) (held : Option Nat) (m : Vm) : Prop where
  npages : m.npages = m0.npages
  distinct : ∀ π π' p, m.TableAt root π p → m.TableAt root π' p → π = π'
  present : ∀ π, OkPath UserIdx π → π.length ≤ 4 → lookup ppn m.mem root π ≠ 0 →
    hasFlags (lookup ppn m.mem root π) pteP = true
  bound : ∀ π, OkPath UserIdx π → π.length ≤ 4 → lookup ppn m.mem root π ≠ 0 →
    ppn (lookup ppn m.mem root π) < m.npages
  pdp : m.mem root 0 ≠ 0
  nodup : m.pageFreeList.Nodup
  count : ∀ q, (m.ppRef q).toNat = (m0.ppRef q).toNat + m.treeCount root q
  list : ∀ q, q ∈ m.pageFreeList ↔
    q ∈ m0.pageFreeList ∧ m.treeCount root q = 0 ∧ held ≠ some q
  source : ∀ q, 0 < m.treeCount root q → q ∈ m0.pageFreeList ∨ m0.ppRef q ≠ 0
  taken : ∀ q, held = some q → q ∈ m0.pageFreeList ∧ m.treeCount root q = 0

namespace Lent

variable {m0 m : Vm} {root : Nat} {held : Option Nat} (h : Lent m0 root held m)
include h

theorem envTree : m.EnvTree root :=
  ⟨h.distinct, h.present, h.bound, h.pdp, fun p => by rw [h.count p]; omega⟩

/-- The tree is well formed, and so is the free list. -/
theorem treeOk (h0 : m0.Idle) : m.TreeOk root := by
  refine ⟨h.npages ▸ h0.size, h.distinct, h.present, h.nodup, ?_⟩
  intro p hp
  rcases (h.list p).1 hp with ⟨hp0, hcount, -⟩
  rcases h0.free p hp0 with ⟨-, hlt, href⟩
  refine ⟨by rwa [h.npages], ?_, ?_, ?_⟩
  · apply BitVec.eq_of_toNat_eq
    rw [h.count p, href, hcount]
    rfl
  · intro π hπ
    have hpos := m.treeCount_pos p ((mem_treePaths π).2 ⟨hπ.1, hπ.2.1.le⟩) (by
      rw [m.refAt_eq_node h.present hπ.1 hπ.2.1.le]
      exact hπ.2.2)
    omega
  · intro va hva hne hpp
    have hok := leafPath_ok hva
    have hpos := m.treeCount_pos p ((mem_treePaths _).2 ⟨hok, le_rfl⟩) (by
      rw [refAt, if_neg (by simp [leafPath]), target_of_present (h.present _ hok le_rfl hne)]
      exact congrArg some hpp)
    omega

end Lent

/-! ## Mapping a page -/

namespace Lent

variable {m0 m : Vm} {root : Nat} {held : Option Nat}

/-- One entry of the tree moves from its old page to the page of `v`: the old page
    loses a reference and is freed with its last one, and the new one was held, free
    or in use. -/
theorem move (h : Lent m0 root held m) (h0 : m0.Idle) {held' : Option Nat}
    (htree : Tree 4 UserIdx ppn (oneRoot root) m'.mem l) (hx : x ∈ treePaths) (hnil : x ≠ [])
    (hlookup : ∀ π, OkPath UserIdx π → π.length ≤ 4 →
      lookup ppn m'.mem root π = if π = x then v else lookup ppn m.mem root π)
    (hv : v ≠ 0 → hasFlags v pteP = true ∧ ppn v < m.npages) (hnpages : m'.npages = m.npages)
    (hpdp : m'.mem root 0 ≠ 0) (hnodup : m'.pageFreeList.Nodup) (hrefs : ∀ q, (m'.ppRef q).toNat +
        (if target (lookup ppn m.mem root x) = some q then 1 else 0) =
      (m.ppRef q).toNat + if target v = some q then 1 else 0)
    (hlist : ∀ q, q ∈ m'.pageFreeList ↔ target v ≠ some q ∧ (q ∈ m.pageFreeList ∨
      (target (lookup ppn m.mem root x) = some q ∧ m'.ppRef q = 0)))
    (hheld : ∀ q, held' = some q ↔ held = some q ∧ target v ≠ some q)
    (hsrc : ∀ q, target v = some q → held = some q ∨ q ∈ m.pageFreeList ∨ m.ppRef q ≠ 0) :
    Lent m0 root held' m' := by
  rcases (mem_treePaths x).1 hx with ⟨hokx, hlenx⟩
  have hcount := treeCount_update hx hnil hlookup
  have hnew : ∀ q, (m'.ppRef q).toNat = (m0.ppRef q).toNat + m'.treeCount root q := by
    intro q
    have h1 := h.count q
    have h2 := hcount q
    have h3 := hrefs q
    omega
  -- The entry pointed to its old page, and it points to the page of `v` now.
  have hposold : ∀ q, target (lookup ppn m.mem root x) = some q → 0 < m.treeCount root q :=
    fun q hq => m.treeCount_pos q hx ((if_neg hnil).trans hq)
  have hposnew : ∀ q, target v = some q → 0 < m'.treeCount root q := by
    intro q hq
    refine m'.treeCount_pos q hx ?_
    rwa [refAt, if_neg hnil, hlookup x hokx hlenx, if_pos rfl]
  refine ⟨hnpages.trans h.npages, fun _ _ _ => TableAt.unique (e := 0) htree rfl, ?_, ?_, hpdp,
    hnodup, hnew, ?_, ?_, ?_⟩
  · intro π hok hlen
    rw [hlookup π hok hlen]
    by_cases hπ : π = x
    · rw [if_pos hπ]
      exact fun hne => (hv hne).1
    · rw [if_neg hπ]
      exact h.present π hok hlen
  · intro π hok hlen
    rw [hlookup π hok hlen, hnpages]
    by_cases hπ : π = x
    · rw [if_pos hπ]
      exact fun hne => (hv hne).2
    · rw [if_neg hπ]
      exact h.bound π hok hlen
  · intro q
    rw [hlist]
    by_cases hvq : target v = some q
    · -- The new page is pointed to, so it is not free.
      exact iff_of_false (fun hc => hc.1 hvq) fun hc => absurd hc.2.1 (hposnew q hvq).ne'
    · have h2 := hcount q
      rw [if_neg hvq, Nat.add_zero] at h2
      have hsame : held' ≠ some q ↔ held ≠ some q := by
        rw [ne_eq, hheld q, and_iff_left hvq]
      by_cases ht : target (lookup ppn m.mem root x) = some q
      · -- The old page is free if it was so before it was borrowed.
        have hpos := hposold q ht
        have hmapped : q ∉ m.pageFreeList := fun hc => absurd ((h.list q).1 hc).2.1 hpos.ne'
        have hnot : held ≠ some q := fun hc => absurd (h.taken q hc).2 hpos.ne'
        rw [ref_eq_zero_iff (hnew q)]
        constructor
        · rintro ⟨-, hc | ⟨-, hz, hcz⟩⟩
          · exact absurd hc hmapped
          · exact ⟨(h.source q hpos).resolve_right fun hne => hne hz, hcz, hsame.2 hnot⟩
        · intro hc
          exact ⟨hvq, .inr ⟨ht, (h0.free q hc.1).2.2, hc.2.1⟩⟩
      · rw [if_neg ht, Nat.add_zero] at h2
        rw [h2, hsame, ← h.list q]
        exact ⟨fun hc => hc.2.resolve_right fun hc' => ht hc'.1, fun hc => ⟨hvq, .inl hc⟩⟩
  · intro q hpos
    by_cases hvq : target v = some q
    · rcases hsrc q hvq with hs | hs | hs
      · exact .inl (h.taken q hs).1
      · exact .inl ((h.list q).1 hs).1
      · by_cases hz : m.treeCount root q = 0
        · exact .inr fun hc => hs ((ref_eq_zero_iff (h.count q)).2 ⟨hc, hz⟩)
        · exact h.source q (Nat.pos_of_ne_zero hz)
    · have h2 := hcount q
      rw [if_neg hvq] at h2
      exact h.source q (by omega)
  · intro q hq
    rcases (hheld q).1 hq with ⟨hs, hvq⟩
    have h2 := hcount q
    rw [if_neg hvq, (h.taken q hs).2] at h2
    exact ⟨(h.taken q hs).1, by omega⟩

end Lent

/-- What a walk that started in `m1` keeps: the tables that it takes come from the
    free list and are borrowed. -/
structure Lending (m0 : Vm) (root : Nat) (held : Option Nat) (m1 : Vm) (l : Label) (m : Vm) :
    Prop where
  tree : Tree 4 UserIdx ppn (oneRoot root) m.mem l
  lent : Lent m0 root held m
  free : ∀ q ∈ m.pageFreeList, q ∈ m1.pageFreeList
  refs : ∀ q, q ∉ m1.pageFreeList → m.ppRef q = m1.ppRef q

/-- There is one owner. -/
theorem owner_oneRoot {mem : Nat → Nat → Pte} (h : Tree 4 UserIdx ppn (oneRoot root) mem l)
    {q e : Nat} {π : List Nat} (hq : l q = some (e, π)) : e = 0 := by
  rcases h.root_of_label q hq with ⟨r, hr⟩
  by_contra hne
  rw [oneRoot, if_neg hne] at hr
  cases hr

/-- Free pages are no tables. -/
theorem Lending.fresh {held : Option Nat} (h : Lending m0 root held m1 l m) (h0 : m0.Idle)
    (hp : p ∈ m.pageFreeList) : l p = none := by
  cases hl : l p with
  | none => rfl
  | some x =>
    have hx := owner_oneRoot h.tree hl
    rw [show x = (0, x.2) from Prod.ext hx rfl] at hl
    exact absurd ⟨h.tree.okPath_of_label p hl, h.tree.length_lt (by decide) hl,
      h.tree.node_of_label rfl p hl⟩ (((h.lent.treeOk h0).free p hp).2.2.1 x.2)

theorem Lending.walkInv {m0 : Vm} (root : Nat) (held : Option Nat) (m1 : Vm) (h0 : m0.Idle) :
    WalkInv (oneRoot root) (Lending m0 root held m1) where
  tree := fun _ _ h => h.tree
  fresh := fun _ _ h => ⟨h.lent.nodup, fun p hp => ⟨h.fresh h0 hp,
    ((h.lent.treeOk h0).free p hp).1.trans_le (h.lent.treeOk h0).size⟩⟩
  newTable := by
    intro l m e π t k p rest h ht hlen hk hz hlist
    have hp : p ∈ m.pageFreeList := hlist ▸ List.mem_cons_self
    have hok := h.lent.treeOk h0
    rcases hok.free p hp with ⟨hlt, href, -, -⟩
    have hlp := h.fresh h0 hp
    have hnd := h.lent.nodup
    rw [hlist, List.nodup_cons] at hnd
    have he := owner_oneRoot h.tree ht
    subst he
    rcases tree_newTable h.tree rest ht hlen hk hz hlp (hlt.trans_le hok.size) with
      ⟨htree, hentry⟩
    have hold : lookup ppn m.mem root (k :: π) = 0 :=
      (h.tree.entry_of_label t k ht).trans hz
    have hvp : hasFlags (page2pa p ||| 7) pteP = true := by
      rw [hasFlags, or_present _ (by decide)]
      exact beq_self_eq_true _
    have hppn : ppn (page2pa p ||| 7) = p := ppn_mk (hlt.trans_le hok.size) (by decide)
    have htarget : target (page2pa p ||| 7) = some p := by
      rw [target_of_present hvp, hppn]
    have hrefs : (m.newTable t k p rest).ppRef = Function.update m.ppRef p (m.ppRef p + 1) := rfl
    have hheld : held ≠ some p := ((h.lent.list p).1 hp).2.2
    -- the slot `k` of the table `t` moves from nothing to the page `p`
    refine ⟨htree, h.lent.move h0 htree ((mem_treePaths (k :: π)).2
      ⟨⟨h.tree.okPath_of_label t ht, hk⟩, hlen.le⟩) (by simp) ?_ (fun _ => ⟨hvp, hppn.symm ▸ hlt⟩)
      rfl ?_ hnd.2 ?_ ?_ ?_ ?_, ?_, ?_⟩
    · intro π' hok' hlen'
      have hent := hentry 0 π' hok' hlen'
      rw [entry_oneRoot] at hent
      rw [hent]
      by_cases hπ : π' = k :: π
      · rw [if_pos hπ, hπ, update_self]
      · rw [if_neg hπ, update_of_ne fun hc => hπ (Prod.mk.inj hc).2]
        rfl
    · -- the slot of the root is in use, so it is not the one that was filled
      have hroot : root ≠ p := by
        intro hc
        rw [← hc, (h.tree.root 0 root).1 rfl] at hlp
        cases hlp
      have htp : t ≠ p := by
        intro hc
        rw [hc, hlp] at ht
        cases ht
      have hslot : root ≠ t ∨ 0 ≠ k := by
        by_contra hc
        push Not at hc
        rw [← hc.1, ← hc.2] at hz
        exact h.lent.pdp hz
      rw [m.newTable_mem k rest htp, Lib.Radix.setSlot_of_ne _ _ hslot,
        Lib.Radix.clearPage_of_ne _ _ hroot]
      exact h.lent.pdp
    · -- the count of `p` is one now, and no other has changed
      intro q
      rw [hold, target_zero, if_neg (by simp), Nat.add_zero, htarget, hrefs]
      by_cases hq : q = p
      · rw [hq, update_self, if_pos rfl, href]
        rfl
      · rw [update_of_ne hq, if_neg fun hc => hq (Option.some.inj hc).symm, Nat.add_zero]
    · -- `p` has left the free list
      intro q
      rw [hold, target_zero, htarget, hlist, List.mem_cons]
      change q ∈ rest ↔ _
      have hqp : q ∈ rest → q ≠ p := fun hq hc => hnd.1 (hc ▸ hq)
      constructor
      · exact fun hq => ⟨fun hc => hqp hq (Option.some.inj hc).symm, .inl (.inr hq)⟩
      · rintro ⟨hne, (rfl | hq) | ⟨hc, -⟩⟩
        · exact absurd rfl hne
        · exact hq
        · cases hc
    · -- what is held is not free, so it is not `p`
      intro q
      rw [htarget]
      refine ⟨fun hq => ⟨hq, fun hc => hheld ?_⟩, fun hq => hq.1⟩
      rw [hq, ← Option.some.inj hc]
    · intro q hq
      rw [htarget] at hq
      cases hq
      exact .inr (.inl hp)
    · exact fun q hq => h.free q (hlist ▸ List.mem_cons_of_mem p hq)
    · intro q hq
      have hqp : q ≠ p := fun hc => hq (hc ▸ h.free p hp)
      rw [hrefs, update_of_ne hqp]
      exact h.refs q hq

namespace Lent

variable {m0 m : Vm} {root va pt pp : Nat} {held : Option Nat} (h : Lent m0 root held m)
include h

/-- A walk that finds a page table takes free pages for the tables on the way, and
    nothing else. -/
theorem walk (h0 : m0.Idle) (hva : va < utop)
    (hrun : m.pml4eWalk root va true = some (some pt, m1)) :
    Lent m0 root held m1 ∧ (∀ q, q ∉ m.pageFreeList → m1.ppRef q = m.ppRef q) ∧
      ∃ l, Tree 4 UserIdx ppn (oneRoot root) m1.mem l ∧ l pt = some (0, ptPath va) := by
  rcases TreeOk.grown (h.treeOk h0) with ⟨l0, hgrown, -⟩
  rcases pml4eWalk_rule (Lending.walkInv root held m h0) 0 va
    ⟨hgrown.tree, h, fun _ hq => hq, fun _ _ => rfl⟩ rfl hva (some pt) m1 hrun with
    ⟨l, hl, -, hpt⟩
  exact ⟨hl.lent, hl.refs, l, hl.tree, hpt⟩

/-- A leaf is set to the page `pp`: the old page loses a reference and is freed
    with its last one, and `pp` gains one. -/
theorem update (h0 : m0.Idle)
    (hl : Tree 4 UserIdx ppn (oneRoot root) m.mem l) (hva : va < utop)
    (hpt : l pt = some (0, ptPath va)) (hv : hasFlags v pteP = true) (hppn : ppn v = pp)
    (hpp : pp < m.npages) (hsrc : held = some pp ∨ (held = none ∧ m.ppRef pp ≠ 0))
    (hnpages : m'.npages = m.npages) (hmem : m'.mem = setSlot m.mem pt (ptx va) v)
    (hnodup : m'.pageFreeList.Nodup)
    (hrefs : ∀ q, (m'.ppRef q).toNat + (if target (m.mem pt (ptx va)) = some q then 1 else 0) =
      (m.ppRef q).toNat + if some pp = some q then 1 else 0)
    (hlist : ∀ q, q ∈ m'.pageFreeList ↔ q ∈ m.pageFreeList ∨
      (target (m.mem pt (ptx va)) = some q ∧ q ≠ pp ∧ m'.ppRef q = 0)) : Lent m0 root none m' := by
  have hold : lookup ppn m.mem root (leafPath va) = m.mem pt (ptx va) :=
    hl.entry_of_label pt (ptx va) hpt
  have htarget : target v = some pp := by rw [target_of_present hv, hppn]
  have hppfree : pp ∉ m.pageFreeList := by
    intro hc
    rcases hsrc with hheld | ⟨-, hne⟩
    · exact ((h.list pp).1 hc).2.2 hheld
    · exact hne ((h.treeOk h0).free pp hc).2.1
  have hroot : pt ≠ root := by
    intro hc
    have hlab := (hl.root 0 root).1 rfl
    rw [← hc, hpt, Option.some.injEq, Prod.mk.injEq] at hlab
    exact absurd hlab.2 (by simp [ptPath])
  have htree := hl.setLeaf (ptx va) v hpt rfl
  have hlookup := lookup_setLeaf hl va pt hpt v
  rw [← hmem] at htree hlookup
  refine h.move h0 htree ((mem_treePaths _).2 ⟨leafPath_ok hva, le_rfl⟩) (by simp [leafPath])
    hlookup (fun _ => ⟨hv, hppn.symm ▸ hpp⟩) hnpages ?_ hnodup ?_ ?_ ?_ ?_
  · rw [hmem, Lib.Radix.setSlot_of_ne _ _ (.inl hroot.symm)]
    exact h.pdp
  · rwa [hold, htarget]
  · intro q
    rw [hold, htarget, hlist, (Option.some_injective _).ne_iff]
    constructor
    · rintro (hq | ⟨ht, hq, hz⟩)
      · exact ⟨fun hc => hppfree (hc ▸ hq), .inl hq⟩
      · exact ⟨fun hc => hq hc.symm, .inr ⟨ht, hz⟩⟩
    · rintro ⟨hq, hfree | ⟨ht, hz⟩⟩
      · exact .inl hfree
      · exact .inr ⟨ht, fun hc => hq hc.symm, hz⟩
  · -- What was held is mapped now.
    intro q
    rw [htarget]
    refine iff_of_false (by simp) fun hc => ?_
    rcases hsrc with hs | ⟨hs, -⟩
    · exact hc.2 (hs ▸ hc.1)
    · rw [hs] at hc
      cases hc.1
  · intro q hq
    rw [htarget] at hq
    cases hq
    exact hsrc.imp_right fun hs => .inr hs.2

/-- `page_insert` of a page that is in use, or of the one that is held. -/
theorem pageInsert (h0 : m0.Idle) {perm : BitVec 32} (hpp : pp < m.npages)
    (hpp0 : pp ≠ 0) (hsrc : held = some pp ∨ (held = none ∧ m.ppRef pp ≠ 0))
    (hmax : m.ppRef pp ≠ 65535) (hva : va < utop) (hperm : perm.toNat < 4096)
    (hrun : m.pageInsert root pp va perm = some (0, m')) : Lent m0 root none m' := by
  have hsize := (h.treeOk h0).size
  have hpp' : pp < 2 ^ 52 := hpp.trans_le hsize
  have hused : pp ∉ m.pageFreeList := by
    intro hc
    rcases hsrc with hs | ⟨-, hne⟩
    · exact ((h.list pp).1 hc).2.2 hs
    · exact hne ((h.treeOk h0).free pp hc).2.1
  rcases m.pageInsert_cases hrun with ⟨o, m1, hwalk, hres⟩
  cases o with
  | none => exact absurd hres.1 (by decide)
  | some pt =>
    rcases h.walk h0 hva hwalk with ⟨h1, hrefs1, l, hl, hpt⟩
    have hspec := insertedEntry_spec pp perm hpp' hperm
    have hnode := hl.node_of_label rfl pt hpt
    rcases m1.inserted_spec hpp' hnode hres.2 with ⟨hnpages, hmem, hnodup, hrefs, hlist⟩
    have hppref : m1.ppRef pp = m.ppRef pp := hrefs1 pp hused
    rw [← hppref] at hsrc hmax
    have hpp1 : pp < m1.npages := by
      rwa [h1.npages, ← h.npages]
    have hold : lookup ppn m1.mem root (leafPath va) = m1.mem pt (ptx va) :=
      hl.entry_of_label pt (ptx va) hpt
    -- The old entry is an entry of the tree, so it is zero or present.
    have htarget : ∀ q, target (m1.mem pt (ptx va)) = some q ↔
        m1.mem pt (ptx va) ≠ 0 ∧ ppn (m1.mem pt (ptx va)) = q := by
      intro q
      by_cases hz : m1.mem pt (ptx va) = 0
      · rw [hz, target_zero]
        simp
      · have hp := h1.present (leafPath va) (leafPath_ok hva) le_rfl (by rwa [hold])
        rw [hold] at hp
        rw [target_of_present hp, Option.some.injEq, and_iff_right hz]
    -- What the old entry points to is counted, so its count can go down.
    have hcounted : ∀ q, target (m1.mem pt (ptx va)) = some q → (m1.ppRef q).toNat ≠ 0 := by
      intro q hq
      have hpos := m1.treeCount_pos q ((mem_treePaths _).2 ⟨leafPath_ok hva, le_rfl⟩)
        ((if_neg (by simp [leafPath])).trans ((congrArg target hold).trans hq))
      rw [h1.count q]
      omega
    have hlt : (m1.ppRef pp).toNat ≠ 65535 := fun hc => hmax (BitVec.eq_of_toNat_eq hc)
    refine h1.update h0 hl hva hpt hspec.2 hspec.1 hpp1 hsrc hnpages hmem (hnodup h1.nodup)
      (fun q => ?_) fun q => ?_
    · rw [hrefs q]
      simp only [Option.some.injEq]
      by_cases hq : target (m1.mem pt (ptx va)) = some q
      · have hne := hcounted q hq
        rw [if_pos hq]
        rcases (htarget q).1 hq with ⟨hz, rfl⟩
        by_cases hsame : ppn (m1.mem pt (ptx va)) = pp
        · simp [hsame]
        · simp only [hz, hsame, ne_eq, not_false_eq_true, true_and, if_true,
            if_neg (Ne.symm hsame)]
          bv_omega
      · rw [if_neg hq, if_neg fun hc => hq ((htarget q).2 ⟨hc.1, hc.2.2⟩)]
        by_cases hpq : pp = q
        · have hother : ppn (m1.mem pt (ptx va)) ≠ pp := by
            intro hc
            refine hq ((htarget q).2 ⟨fun hz => hpp0 ?_, hc.trans hpq⟩)
            rw [← hc, hz, ppn_zero]
          rw [if_pos ⟨hother, hpq⟩, if_pos hpq, ← hpq]
          bv_omega
        · rw [if_neg fun hc => hpq hc.2, if_neg hpq]
          simp
    · rw [hlist, htarget]
      refine or_congr_right ⟨?_, ?_⟩
      · exact fun hc => ⟨⟨hc.1, hc.2.2.1⟩, fun hq => hc.2.1 (hc.2.2.1.trans hq), hc.2.2.2⟩
      · exact fun hc => ⟨hc.1.1, fun hq => hc.2.1 (hc.1.2.symm.trans hq), hc.1.2, hc.2.2⟩

end Lent

/-! ## New pages -/

/-- A page is taken from the free list. -/
theorem Lent.alloc (h : Lent m0 root none m) (h0 : m0.Idle) {zero : Bool}
    (hrun : m.pageAlloc zero = (some p, m')) : Lent m0 root (some p) m' := by
  rcases m.pageAlloc_some hrun with ⟨hlist, hnpages, hrefs, hmem, -⟩
  have hok := h.treeOk h0
  have hp : p ∈ m.pageFreeList := by
    rw [hlist]
    exact List.mem_cons_self
  have hnodup := h.nodup
  rw [hlist, List.nodup_cons] at hnodup
  rcases TreeOk.grown hok with ⟨l, hgrown, hl⟩
  -- The page is no table, so the tree does not notice that it is cleared.
  have hsame : ∀ q e π k, l q = some (e, π) → UserIdx π k → m'.mem q k = m.mem q k := by
    intro q e π k hq _
    refine hmem q ?_ k
    intro hc
    rw [hc] at hq
    exact (hok.free p hp).2.2.1 π ((hl p e π).1 hq).2
  have htree := hgrown.tree.congr hsame
  have hlookup : ∀ π, OkPath UserIdx π → π.length ≤ 4 →
      lookup ppn m'.mem root π = lookup ppn m.mem root π :=
    fun π hokπ hlen => hgrown.tree.entry_congr hsame 0 hokπ hlen
  have hcount : ∀ q, m'.treeCount root q = m.treeCount root q := by
    intro q
    refine Lib.Refs.count_congr q ?_
    intro π hπ
    rcases (mem_treePaths π).1 hπ with ⟨hokπ, hlen⟩
    rw [refAt, refAt, hlookup π hokπ hlen]
  have hroot : root ≠ p := by
    intro hc
    exact (hok.free p hp).2.2.1 [] ⟨trivial, by simp, by rw [← hc]; rfl⟩
  refine ⟨hnpages.trans h.npages, fun _ _ _ => TableAt.unique (e := 0) htree rfl, ?_, ?_, ?_,
    hnodup.2, ?_, ?_, ?_, ?_⟩
  · intro π hokπ hlen
    rw [hlookup π hokπ hlen]
    exact h.present π hokπ hlen
  · intro π hokπ hlen
    rw [hlookup π hokπ hlen, hnpages]
    exact h.bound π hokπ hlen
  · rw [hmem root hroot]
    exact h.pdp
  · intro q
    rw [hrefs, hcount]
    exact h.count q
  · intro q
    have hq := h.list q
    rw [hlist, List.mem_cons] at hq
    rw [hcount]
    by_cases hqp : q = p
    · rw [hqp]
      exact iff_of_false hnodup.1 fun hc => hc.2.2 rfl
    · rw [or_iff_right hqp] at hq
      rw [hq]
      have hne : some p ≠ some q := fun hc => hqp (Option.some.inj hc).symm
      simp [hne]
  · intro q
    rw [hcount]
    exact h.source q
  · intro q hq
    rw [← Option.some.inj hq, hcount]
    exact ⟨((h.list p).1 hp).1, ((h.list p).1 hp).2.1⟩

end Vm
end Jos
