import Jos.Theory.Memory

/-!
# `page_insert` as an Update of a Map

An address space below `UTOP` is a map from pages to entries, and `page_insert`
is to change it in one place. In the tree of tables it may have to hang up to
three new tables on the way, each of them a page from the free list, and to drop
the page that was there.

One tree is looked at here, whatever else is in memory. It is well formed if no
page is a table at two paths, entries that are not zero are present, and free
pages are neither tables nor mapped and have no references. That no table is
mapped as data, and that the reference counts of other pages are right, is not
needed. The pages then have labels, and `Grown` says what a walk that has started
from such a tree has done to it so far.

## Main definitions

* `Vm.TreeOk`: A well-formed tree.
* `Vm.Grown`: The tree with some new tables.
* `Vm.MapUpdate`: What `page_insert` is to do.

## Theorems

* `translate_eq_lookup`: The hardware finds the entries that are not zero.
* `Grown.walkInv`: A walk grows the tree.
* `inserted_spec`: The memory and the counts after `page_insert`.
* `pageInsert_update`: `page_insert` is an update of the map.
-/

namespace Jos

open Lib.Radix (Tree node node_cons_eq_some lookup entry OkPath setSlot clearPage)
open Function (update update_self update_of_ne)

namespace Vm

/-- The entry for the page of an address. -/
def leaf (m : Vm) (root va : Nat) : Pte := lookup ppn m.mem root (leafPath va)

/-- The tree below `UTOP` is well formed, and so is the free list with respect
    to it. -/
structure TreeOk (m : Vm) (root : Nat) : Prop where
  size : m.npages ≤ 2 ^ 52
  distinct : ∀ π π' p, m.TableAt root π p → m.TableAt root π' p → π = π'
  present : ∀ π, OkPath UserIdx π → π.length ≤ 4 → lookup ppn m.mem root π ≠ 0 →
    hasFlags (lookup ppn m.mem root π) pteP = true
  nodup : m.pageFreeList.Nodup
  free : ∀ p ∈ m.pageFreeList, p < m.npages ∧ m.ppRef p = 0 ∧ (∀ π, ¬ m.TableAt root π p) ∧
    ∀ va < utop, m.leaf root va ≠ 0 → ppn (m.leaf root va) ≠ p

/-- The page that is mapped at an address, as the hardware sees it. -/
def pageAt (m : Vm) (root va : Nat) : Option Nat := (m.translate root va).map fun t => ppn t.1

/-- The translation of every page after `page_insert` of `pp` at `va`, and the
    counts: of `pp`, of the page that was at `va`, and of new tables. -/
structure MapUpdate (m : Vm) (root pp va : Nat) (perm : BitVec 32) (m' : Vm) : Prop where
  here : ∀ a, a / pgSize = va / pgSize → ∃ e, (m'.translate root a).map Prod.fst = some e ∧
    pteAddr e = page2pa pp ∧ e &&& 0xFFF = (perm ||| 1).setWidth 64
  other : ∀ a < utop, a / pgSize ≠ va / pgSize →
    (m'.translate root a).map Prod.fst = (m.translate root a).map Prod.fst
  page : m'.ppRef pp = if m.pageAt root va = some pp then m.ppRef pp else m.ppRef pp + 1
  old : ∀ o, m.pageAt root va = some o → o ≠ pp →
    m'.ppRef o = m.ppRef o - 1 ∧ (o ∈ m'.pageFreeList ↔ m'.ppRef o = 0)
  new : ∀ π p, m'.TableAt root π p → ¬ m.TableAt root π p → m'.ppRef p = 1

/-! ## Translations and entries -/

variable {root va pt pp : Nat} {perm : BitVec 32}

/-- Where the entries that are not zero are present, the translation of an address
    is its entry. -/
theorem translate_eq_lookup (m : Vm) (hva : va < utop)
    (hpresent : ∀ π, OkPath UserIdx π → π.length ≤ 4 → lookup ppn m.mem root π ≠ 0 →
      hasFlags (lookup ppn m.mem root π) pteP = true) :
    (m.translate root va).map Prod.fst =
      if m.leaf root va = 0 then none else some (m.leaf root va) := by
  cases htr : m.translate root va with
  | some t =>
    rcases t with ⟨w, b1, b2⟩
    rcases m.translate_node htr with ⟨pt, hnode, hw, hp⟩
    have hleaf : m.leaf root va = w := by
      rw [leaf, leafPath_eq, lookup, hnode, Option.map_some, Option.getD_some, hw]
    rw [hleaf, if_neg (ne_zero_of_present hp)]
    rfl
  | none =>
    rw [Option.map_none]
    by_cases hz : m.leaf root va = 0
    · rw [if_pos hz]
    · exfalso
      -- All four entries on the way are not zero, so they are present.
      have hok := leafPath_ok hva
      have hleaf := hpresent _ hok le_rfl hz
      rw [leaf] at hz
      rw [leafPath_eq] at hz hleaf hok
      have hnode : ∃ pt, node ppn m.mem root (ptPath va) = some pt := by
        cases hn : node ppn m.mem root (ptPath va) with
        | none =>
          rw [lookup, hn] at hz
          exact absurd rfl hz
        | some pt => exact ⟨pt, rfl⟩
      rcases hnode with ⟨pt, hpt⟩
      rw [lookup, hpt, Option.map_some, Option.getD_some] at hleaf
      rcases node_cons_eq_some.1 hpt with ⟨t3, h3, hz3, rfl⟩
      rcases node_cons_eq_some.1 h3 with ⟨t2, h2, hz2, rfl⟩
      rcases node_cons_eq_some.1 h2 with ⟨t1, h1, hz1, rfl⟩
      cases h1
      have hflag : ∀ π t k, OkPath UserIdx (k :: π) → π.length < 4 →
          node ppn m.mem root π = some t → m.mem t k ≠ 0 →
          hasFlags (m.mem t k) pteP = true := by
        intro π t k hokπ hlen hn hk
        have hl : lookup ppn m.mem root (k :: π) = m.mem t k := by
          rw [lookup, hn, Option.map_some, Option.getD_some]
        have hp := hpresent (k :: π) hokπ hlen (by rwa [hl])
        rwa [hl] at hp
      have hp1 := hflag [] _ _ hok.1.1.1 (by simp) rfl hz1
      have hp2 := hflag _ _ _ hok.1.1 (by simp) h2 hz2
      have hp3 := hflag _ _ _ hok.1 (by simp) h3 hz3
      simp only [translate, hp1, hp2, hp3, hleaf, if_true, Option.bind_some,
        Option.map_some] at htr
      cases htr

/-- The page at an address of a well-formed tree is the one its entry names. -/
theorem pageAt_eq (m : Vm) {root va : Nat} (p : Nat) (h : m.TreeOk root) (hva : va < utop) :
    m.pageAt root va = some p ↔ m.leaf root va ≠ 0 ∧ ppn (m.leaf root va) = p := by
  have hpage : m.pageAt root va = ((m.translate root va).map Prod.fst).map ppn := by
    rw [pageAt, Option.map_map]
    rfl
  rw [hpage, m.translate_eq_lookup hva h.present]
  by_cases hz : m.leaf root va = 0
  · rw [if_pos hz]
    exact iff_of_false (by simp) fun hc => hc.1 hz
  · rw [if_neg hz, Option.map_some, Option.some.injEq]
    exact ⟨fun hp => ⟨hz, hp⟩, fun hp => hp.2⟩

/-! ## Walks -/

/-- The memory `m` with the labels `l` is what `m0` with `l0` has become through
    new tables: they come from the free list and have one reference, and the
    leaves are what they were. -/
structure Grown (root : Nat) (l0 : Label) (m0 : Vm) (l : Label) (m : Vm) : Prop where
  tree : Tree 4 UserIdx ppn (oneRoot root) m.mem l
  ext : ∀ q x, l0 q = some x → l q = some x
  labels : ∀ q x, l q = some x → l0 q = some x ∨ (q ∈ m0.pageFreeList ∧ m.ppRef q = 1)
  free : ∀ q ∈ m.pageFreeList, q ∈ m0.pageFreeList ∧ l q = none ∧ m.ppRef q = 0
  nodup : m.pageFreeList.Nodup
  refs : ∀ q, q ∉ m0.pageFreeList → m.ppRef q = m0.ppRef q
  leaves : ∀ e π, OkPath UserIdx π → π.length = 4 →
    entry ppn (oneRoot root) m.mem (e, π) = entry ppn (oneRoot root) m0.mem (e, π)
  present : ∀ e π, OkPath UserIdx π → π.length ≤ 4 →
    entry ppn (oneRoot root) m.mem (e, π) ≠ 0 →
    hasFlags (entry ppn (oneRoot root) m.mem (e, π)) pteP = true

namespace Grown

variable {root : Nat} {l0 l : Label} {m0 m : Vm}

/-- A page of the free list becomes a table. -/
theorem newTable (h : Grown root l0 m0 l m) (hsize : ∀ q ∈ m0.pageFreeList, q < 2 ^ 52)
    {e : Nat} {π : List Nat} {t k p : Nat} {rest : List Nat} (ht : l t = some (e, π))
    (hlen : π.length + 1 < 4) (hk : UserIdx π k) (hz : m.mem t k = 0)
    (hlist : m.pageFreeList = p :: rest) :
    Grown root l0 m0 (update l p (some (e, k :: π))) (m.newTable t k p rest) := by
  have hmem : p ∈ m.pageFreeList := hlist ▸ List.mem_cons_self
  rcases h.free p hmem with ⟨hp0, hlp, href⟩
  have hnodup := h.nodup
  rw [hlist, List.nodup_cons] at hnodup
  have hne : ∀ q x, l q = some x → q ≠ p := by
    intro q x hq hc
    rw [hc, hlp] at hq
    cases hq
  rcases tree_newTable h.tree rest ht hlen hk hz hlp (hsize p hp0) with ⟨htree, hentry⟩
  -- only the count of the page changes, and it is on the list no more
  have hrefs : (m.newTable t k p rest).ppRef = update m.ppRef p (m.ppRef p + 1) := rfl
  refine ⟨htree, ?_, ?_, ?_, hnodup.2, ?_, ?_, ?_⟩
  · intro q x hq
    rw [update_of_ne (hne q x (h.ext q x hq)), h.ext q x hq]
  · intro q x hq
    rw [hrefs]
    by_cases hqp : q = p
    · rw [hqp, update_self, href]
      exact .inr ⟨hp0, rfl⟩
    · rw [update_of_ne hqp] at hq
      rw [update_of_ne hqp]
      exact h.labels q x hq
  · intro q hq
    have hqp : q ≠ p := fun hc => hnodup.1 (hc ▸ hq)
    rw [hrefs, update_of_ne hqp, update_of_ne hqp]
    exact h.free q (hlist ▸ List.mem_cons_of_mem p hq)
  · intro q hq
    have hqp : q ≠ p := fun hc => hq (by rwa [hc])
    rw [hrefs, update_of_ne hqp]
    exact h.refs q hq
  · intro e' π' hok hlen'
    rw [hentry e' π' hok hlen'.le, update_of_ne, h.leaves e' π' hok hlen']
    intro hc
    rw [(Prod.mk.inj hc).2, List.length_cons] at hlen'
    omega
  · intro e' π' hok hlen'
    rw [hentry e' π' hok hlen']
    by_cases hx : (e', π') = (e, k :: π)
    · rw [hx, update_self]
      intro _
      rw [hasFlags, or_present _ (by decide)]
      exact beq_self_eq_true _
    · rw [update_of_ne hx]
      exact h.present e' π' hok hlen'

/-- A walk grows the tree. -/
theorem walkInv (root : Nat) (l0 : Label) (m0 : Vm) (hsize : ∀ q ∈ m0.pageFreeList, q < 2 ^ 52) :
    WalkInv (oneRoot root) (Grown root l0 m0) where
  tree := fun _ _ h => h.tree
  fresh := fun _ _ h => ⟨h.nodup, fun p hp => ⟨(h.free p hp).2.1, hsize p (h.free p hp).1⟩⟩
  newTable := fun _ _ _ _ _ _ _ _ h ht hlen hk hz hlist => h.newTable hsize ht hlen hk hz hlist

end Grown

/-- A well-formed tree has labels, and nothing has grown yet. -/
theorem TreeOk.grown {m : Vm} (h : m.TreeOk root) :
    ∃ l, Grown root l m l m ∧ ∀ p e π, l p = some (e, π) ↔ e = 0 ∧ m.TableAt root π p := by
  rcases Tree.ofNode 0 (by decide) (fun π π' p hok hok' hlen hlen' hn hn' =>
    h.distinct π π' p ⟨hok, hlen, hn⟩ ⟨hok', hlen', hn'⟩) with ⟨l, htree, hl⟩
  refine ⟨l, ⟨htree, fun _ _ hq => hq, fun _ _ hq => .inl hq, ?_, h.nodup, fun _ _ => rfl,
    fun _ _ _ _ => rfl, ?_⟩, hl⟩
  · intro q hq
    rcases h.free q hq with ⟨-, href, hno, -⟩
    refine ⟨hq, ?_, href⟩
    cases hlq : l q with
    | none => rfl
    | some x => exact absurd ((hl q x.1 x.2).1 hlq).2 (hno x.2)
  · intro e π hok hlen hne
    by_cases he : e = 0
    · rw [he, entry_oneRoot] at hne ⊢
      exact h.present π hok hlen hne
    · have hzero : entry ppn (oneRoot root) m.mem (e, π) = 0 := by
        rw [entry, oneRoot, if_neg he]
        rfl
      exact absurd hzero hne

/-! ## The last step -/

/-- A leaf of the tree is set. -/
theorem lookup_setLeaf {mem : Nat → Nat → Pte} {root : Nat} {l : Label}
    (hl : Tree 4 UserIdx ppn (oneRoot root) mem l) (va pt : Nat) (hpt : l pt = some (0, ptPath va))
    (v : Pte) (π : List Nat) (hok : OkPath UserIdx π) (hlen : π.length ≤ 4) :
    lookup ppn (setSlot mem pt (ptx va) v) root π =
      if π = leafPath va then v else lookup ppn mem root π := by
  rw [← entry_oneRoot, hl.entry_setLeaf 0 (ptPath va) pt (ptx va) v hpt rfl 0 π hok hlen]
  by_cases hπ : π = leafPath va
  · rw [if_pos hπ, hπ, leafPath_eq, update_self]
  · have hne : ((0, π) : Nat × List Nat) ≠ (0, ptx va :: ptPath va) := fun hc =>
      hπ (Prod.mk.inj hc).2
    rw [if_neg hπ, update_of_ne hne, entry_oneRoot]

/-- The flags of the entry that `page_insert` leaves. -/
theorem insertedEntry_low (pp : Nat) (hperm : perm.toNat < 4096) :
    insertedEntry pp perm &&& 0xFFF = (perm ||| 1).setWidth 64 := by
  have hlow : ∀ x : Pte, (x &&& 0xFFF).toNat = x.toNat % 4096 := by
    intro x
    rw [BitVec.toNat_and]
    exact Nat.and_two_pow_sub_one_eq_mod x.toNat 12
  have hpage : page2pa pp &&& 0xFFF = 0#64 := by
    apply BitVec.eq_of_toNat_eq
    rw [hlow, page2pa, BitVec.toNat_shiftLeft, BitVec.toNat_ofNat, Nat.shiftLeft_eq,
      BitVec.toNat_ofNat]
    omega
  have hor : (perm ||| 1).toNat < 4096 := by
    rw [BitVec.toNat_or]
    exact Nat.or_lt_two_pow (n := 12) hperm (by decide)
  have hmsb : (perm ||| 1).msb = false := by
    rw [BitVec.msb_eq_false_iff_two_mul_lt]
    omega
  have hflags : (perm ||| 1).signExtend 64 &&& 0xFFF = (perm ||| 1).setWidth 64 := by
    rw [BitVec.signExtend_eq_setWidth_of_msb_false hmsb]
    apply BitVec.eq_of_toNat_eq
    rw [hlow, BitVec.toNat_setWidth]
    omega
  rw [insertedEntry, BitVec.and_comm, BitVec.and_or_distrib_left, BitVec.and_comm _ (page2pa pp),
    hpage, BitVec.zero_or, BitVec.and_comm, hflags]

/-- What `page_insert` does once it has the page table. One slot is written; unless the page
    was there already, it gains a reference, and the old one loses one and is freed with the
    last. -/
theorem inserted_spec (m : Vm) {m' : Vm} (hpp : pp < 2 ^ 52)
    (hnode : node ppn m.mem root (ptPath va) = some pt) (h : m.Inserted root pt pp va perm m') :
    m'.npages = m.npages ∧ m'.mem = setSlot m.mem pt (ptx va) (insertedEntry pp perm) ∧
    (m.pageFreeList.Nodup → m'.pageFreeList.Nodup) ∧
    (∀ q, m'.ppRef q = m.ppRef q -
      (if m.mem pt (ptx va) ≠ 0 ∧ ppn (m.mem pt (ptx va)) ≠ pp ∧ ppn (m.mem pt (ptx va)) = q
        then 1 else 0) + if ppn (m.mem pt (ptx va)) ≠ pp ∧ pp = q then 1 else 0) ∧
    ∀ q, q ∈ m'.pageFreeList ↔ q ∈ m.pageFreeList ∨ m.mem pt (ptx va) ≠ 0 ∧
      ppn (m.mem pt (ptx va)) ≠ pp ∧ ppn (m.mem pt (ptx va)) = q ∧ m'.ppRef q = 0 := by
  rcases h with ⟨hsame, rfl⟩ | ⟨hother, m2, hclear, rfl⟩
  · have hppn := (pteAddr_eq_iff _ hpp).1 hsame
    exact ⟨rfl, rfl, fun hn => hn, fun q => by simp [hppn], fun q => by simp [hppn]⟩
  have hppn : ppn (m.mem pt (ptx va)) ≠ pp := fun hc => hother ((pteAddr_eq_iff _ hpp).2 hc)
  rcases hclear with ⟨hz, rfl⟩ | ⟨hne, hremove⟩
  · -- nothing was there
    refine ⟨rfl, rfl, fun hn => hn, fun q => ?_, fun q => by simp [hz]⟩
    rw [setEntry_ppRef, setRef_ppRef, update_add_one]
    simp only [hppn, ne_eq, not_false_eq_true, true_and, not_not.2 hz, false_and, if_false,
      sub_zero]
  · rcases m.pageRemove_cases hremove with ⟨hnone, -⟩ | ⟨pt', hpt', -, rfl⟩
    · rw [hnode] at hnone
      cases hnone
    rw [hnode] at hpt'
    cases hpt'
    refine ⟨pageDecref_npages _ _, ?_, nodup_pageDecref _, fun q => ?_, fun q => ?_⟩
    · simp only [setEntry_mem, setRef_mem, pageDecref_mem, Lib.Radix.setSlot_setSlot]
    · rw [setEntry_ppRef, setRef_ppRef, update_add_one, setEntry_ppRef, pageDecref_ppRef,
        update_sub_one]
      simp only [hne, hppn, ne_eq, not_false_eq_true, true_and]
    · rw [setEntry_pageFreeList, setRef_pageFreeList, setEntry_pageFreeList, mem_pageDecref,
        setEntry_ppRef, setRef_ppRef, setEntry_ppRef, pageDecref_ppRef]
      refine or_congr_right ⟨?_, ?_⟩
      · rintro ⟨rfl, hz⟩
        exact ⟨hne, hppn, rfl, by rwa [update_of_ne hppn, update_self]⟩
      · rintro ⟨-, -, rfl, hz⟩
        rw [update_of_ne hppn, update_self] at hz
        exact ⟨rfl, hz⟩

/-- `page_insert` changes the translation of one page, and the counts with it. -/
theorem pageInsert_update (m : Vm) (root pp va : Nat) (perm : BitVec 32) (m' : Vm)
    (h : m.TreeOk root) (hpp : pp < m.npages) (hpp0 : pp ≠ 0) (hused : pp ∉ m.pageFreeList)
    (hva : va < utop) (hperm : perm.toNat < 4096)
    (hrun : m.pageInsert root pp va perm = some (0, m')) : m.MapUpdate root pp va perm m' := by
  have hpp' : pp < 2 ^ 52 := hpp.trans_le h.size
  rcases TreeOk.grown h with ⟨l0, hgrown0, hl0⟩
  rcases m.pageInsert_cases hrun with ⟨o, m1, hwalk, hres⟩
  have hwalked := pml4eWalk_rule (Grown.walkInv root l0 m fun q hq =>
    (h.free q hq).1.trans_le h.size) 0 va hgrown0 rfl hva o m1 hwalk
  cases o with
  | none => exact absurd hres.1 (by decide)
  | some pt =>
    rcases hwalked with ⟨l1, hgrown, hext, hpt⟩
    have hins := hres.2
    -- The page table that was found holds the entry that was there before.
    have hnode := hgrown.tree.node_of_label rfl pt hpt
    have hslot : m1.mem pt (ptx va) = m.leaf root va := by
      have hleaves := hgrown.leaves 0 (leafPath va) (leafPath_ok hva) rfl
      rwa [leafPath_eq, hgrown.tree.entry_of_label pt (ptx va) hpt] at hleaves
    rcases m1.inserted_spec hpp' hnode hins with ⟨-, hmem, -, hrefs, hlist⟩
    rw [hslot] at hrefs hlist
    have hlookup := lookup_setLeaf hgrown.tree va pt hpt (insertedEntry pp perm)
    rw [← hmem] at hlookup
    have hspec := insertedEntry_spec pp perm hpp' hperm
    have hpresent : ∀ π, OkPath UserIdx π → π.length ≤ 4 → lookup ppn m'.mem root π ≠ 0 →
        hasFlags (lookup ppn m'.mem root π) pteP = true := by
      intro π hok hlen
      rw [hlookup π hok hlen]
      by_cases hπ : π = leafPath va
      · rw [if_pos hπ]
        exact fun _ => hspec.2
      · rw [if_neg hπ]
        exact hgrown.present 0 π hok hlen
    have hleaf : ∀ a < utop, m'.leaf root a =
        if a / pgSize = va / pgSize then insertedEntry pp perm else m.leaf root a := by
      intro a ha
      rw [leaf, hlookup _ (leafPath_ok ha) le_rfl]
      by_cases hpage : a / pgSize = va / pgSize
      · rw [if_pos (leafPath_congr hpage), if_pos hpage]
      · rw [if_neg fun hc => hpage (leafPath_inj ha hva hc), if_neg hpage]
        exact hgrown.leaves 0 (leafPath a) (leafPath_ok ha) rfl
    refine ⟨?_, ?_, ?_, ?_, ?_⟩
    · intro a hpage
      have ha : a < utop := by
        simp only [pgSize, utop] at hpage hva ⊢
        omega
      refine ⟨insertedEntry pp perm, ?_, ?_, insertedEntry_low pp hperm⟩
      · rw [m'.translate_eq_lookup ha hpresent, hleaf a ha, if_pos hpage,
          if_neg (ne_zero_of_present hspec.2)]
      · rw [pteAddr_eq_page2pa, hspec.1]
    · intro a ha hpage
      rw [m'.translate_eq_lookup ha hpresent, m.translate_eq_lookup ha h.present,
        hleaf a ha, if_neg hpage]
    · rw [hrefs, hgrown.refs pp hused, if_neg fun hc => hc.2.1 hc.2.2, sub_zero]
      by_cases hsame : ppn (m.leaf root va) = pp
      · have hne : m.leaf root va ≠ 0 := by
          intro hz
          rw [hz, ppn_zero] at hsame
          exact hpp0 hsame.symm
        rw [if_neg fun hc => hc.1 hsame, if_pos ((m.pageAt_eq pp h hva).2 ⟨hne, hsame⟩),
          add_zero]
      · rw [if_pos ⟨hsame, rfl⟩, if_neg fun hc => hsame ((m.pageAt_eq pp h hva).1 hc).2]
    · intro o ho hop
      rcases (m.pageAt_eq o h hva).1 ho with ⟨hne, rfl⟩
      -- A page that is mapped is not free, and the walk leaves its count alone.
      have hnotfree : ppn (m.leaf root va) ∉ m.pageFreeList := fun hc =>
        (h.free _ hc).2.2.2 va hva hne rfl
      refine ⟨?_, ?_⟩
      · rw [hrefs, hgrown.refs _ hnotfree, if_pos ⟨hne, hop, rfl⟩,
          if_neg fun hc => hop hc.2.symm, add_zero]
      · rw [hlist, or_iff_right fun hc => hnotfree (hgrown.free _ hc).1]
        exact ⟨fun hc => hc.2.2.2, fun hz => ⟨hne, hop, rfl, hz⟩⟩
    · intro π p hp hnew
      -- The tables are those of the grown tree, for only a leaf has changed since.
      have htree := hgrown.tree.setLeaf (ptx va) (insertedEntry pp perm) hpt rfl
      rw [← hmem] at htree
      have hlp := htree.label_of_node 0 rfl hp.1 hp.2.1 hp.2.2
      rcases hgrown.labels p _ hlp with hold | ⟨hfree, hone⟩
      · exact absurd ((hl0 p 0 π).1 hold).2 hnew
      · have hmapped := (h.free p hfree).2.2.2 va hva
        rw [hrefs, hone, if_neg fun hc => hmapped hc.1 hc.2.2, if_neg fun hc => hused ?_]
        · rfl
        · rwa [hc.2]

/-- An empty tree with the root on page 1, and three free pages. -/
def emptyTree : Vm := ⟨8, fun _ => 0, [2, 3, 4], fun _ _ => 0⟩

theorem emptyTree_ok : emptyTree.TreeOk 1 := by
  have hnode : ∀ k π, node ppn emptyTree.mem 1 (k :: π) = none := by
    intro k π
    rw [node]
    cases node ppn emptyTree.mem 1 π <;> rfl
  have htable : ∀ π p, emptyTree.TableAt 1 π p → π = [] ∧ p = 1 := by
    intro π p h
    cases π with
    | nil => exact ⟨rfl, (Option.some.inj h.2.2).symm⟩
    | cons k π =>
      have hn := h.2.2
      rw [hnode] at hn
      cases hn
  have hlookup : ∀ π, lookup ppn emptyTree.mem 1 π = 0 := by
    intro π
    cases π with
    | nil => rfl
    | cons k π =>
      rw [lookup]
      cases node ppn emptyTree.mem 1 π <;> rfl
  refine ⟨by decide, ?_, fun π _ _ hne => absurd (hlookup π) hne, by decide, ?_⟩
  · intro π π' p h h'
    rw [(htable π p h).1, (htable π' p h').1]
  · intro p hp
    have hcases : p < 8 ∧ p ≠ 1 := by
      simp only [emptyTree, List.mem_cons, List.not_mem_nil, or_false] at hp
      omega
    exact ⟨hcases.1, rfl, fun π h => hcases.2 (htable π p h).2,
      fun va _ hne => absurd (hlookup _) hne⟩

/-- Page 5 goes to the first page of a program, below three new tables. -/
theorem pageInsert_update_utext :
    ∃ m', emptyTree.pageInsert 1 5 0x800000 7 = some (0, m') ∧
      emptyTree.MapUpdate 1 5 0x800000 7 m' :=
  ⟨_, rfl, pageInsert_update emptyTree 1 5 0x800000 7 _ emptyTree_ok (by decide) (by decide)
    (by decide) (by decide) (by decide) rfl⟩

end Vm
end Jos
