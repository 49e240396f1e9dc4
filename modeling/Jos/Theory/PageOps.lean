import Jos.Theory.Pages

/-!
# The Page Operations Keep the Invariant

The operations of `kern/pmap.c` on memory that satisfies `Vm.Wf`, seen from
above: what an environment has is a map from page numbers below `UTOP` to
entries, and an operation changes it in one place or not at all. The tables that
hold the map, and the ones that a walk builds and takes away, are not visible in
it.

## Main definitions

* `Vm.leafMap`: What each environment maps.
* `Kept`: What the operations leave alone.

## Theorems

* `Wf.walkInv`: The invariant survives the page-table walk.
* `Wf.pageAlloc`: A page is handed out.
* `Wf.pageInsert`: One page of the map is replaced, or memory has run out.
* `Wf.pageRemove`: One page is taken out of the map.
-/

namespace Jos

open Lib.Radix (Tree OkPath entry clearPage clearPage_of_ne clearPage_self setSlot_of_ne)
open Function (update_self update_of_ne update_idem update_eq_self update)

variable {va e p : Nat} {m' m2 : Vm} {perm : BitVec 32} {v : Pte} {kind1 kind2 kind3 : Nat → Kind}

theorem leafPath_congr {va' : Nat} (h : va / pgSize = va' / pgSize) :
    leafPath va = leafPath va' := by
  simp only [pgSize] at h
  simp only [leafPath, List.cons.injEq, pml4, pdpe, pdx, ptx, and_true]
  omega

namespace Vm

/-- The entry that environment `x.1` has for page number `x.2` of its address
    space, zero if there is none. -/
def leafMap (m : Vm) (roots : Nat → Option Nat) (x : Nat × Nat) : Pte :=
  if x.2 * pgSize < utop then entry ppn roots m.mem (x.1, leafPath (x.2 * pgSize)) else 0

theorem leafMap_at (m : Vm) (roots : Nat → Option Nat) {va : Nat} (e : Nat) (hva : va < utop) :
    m.leafMap roots (e, va / pgSize) = entry ppn roots m.mem (e, leafPath va) := by
  have hlt : va / pgSize * pgSize < utop := lt_of_le_of_lt (Nat.div_mul_le_self va pgSize) hva
  have hpath : leafPath (va / pgSize * pgSize) = leafPath va := by
    refine leafPath_congr ?_
    rw [Nat.mul_div_cancel _ (by decide)]
  simp only [leafMap, if_pos hlt, hpath]

variable {m : Vm} {roots : Nat → Option Nat}

/-- Entries of inner tables do not show in the map. -/
theorem leafMap_congr {roots' : Nat → Option Nat} (hent : ∀ e π, OkPath UserIdx π → π.length = 4 →
      entry ppn roots' m'.mem (e, π) = entry ppn roots m.mem (e, π)) :
    m'.leafMap roots' = m.leafMap roots := by
  funext x
  unfold leafMap
  split
  · rename_i hlt
    exact hent _ _ (leafPath_ok hlt) rfl
  · rfl

theorem leafMap_update (hva : va < utop)
    (hent : ∀ e' π, OkPath UserIdx π → π.length = 4 → entry ppn roots m'.mem (e', π) =
      update (entry ppn roots m.mem) (e, leafPath va) v (e', π)) :
    m'.leafMap roots = update (m.leafMap roots) (e, va / pgSize) v := by
  funext x
  rcases x with ⟨e', n⟩
  by_cases hx : (e', n) = (e, va / pgSize)
  · rw [Prod.mk.injEq] at hx
    rcases hx with ⟨rfl, rfl⟩
    rw [update_self, leafMap_at m' roots e' hva,
      hent _ _ (leafPath_ok hva) rfl, update_self]
  · rw [update_of_ne hx]
    unfold leafMap
    split
    · rename_i hlt
      rw [hent _ _ (leafPath_ok hlt) rfl, update_of_ne]
      -- another page has another path
      intro hc
      rw [Prod.mk.injEq] at hc
      have hn := leafPath_inj hlt hva hc.2
      rw [Nat.mul_div_cancel _ (by decide)] at hn
      exact hx (Prod.ext hc.1 hn)
    · rfl

theorem flags_lt (h : perm.toNat < 4096) : ((perm ||| 1).signExtend 64).toNat < 4096 := by
  have hor : (perm ||| 1).toNat < 4096 := by
    rw [BitVec.toNat_or]
    exact Nat.or_lt_two_pow (n := 12) h (by decide)
  have hmsb : (perm ||| 1).msb = false := by
    rw [BitVec.msb_eq_false_iff_two_mul_lt]
    omega
  rw [BitVec.signExtend_eq_setWidth_of_msb_false hmsb, BitVec.toNat_setWidth]
  omega

theorem flags_present (perm : BitVec 32) :
    (perm ||| 1).signExtend 64 &&& pteP = pteP := by
  have hbit : ((perm ||| 1).signExtend 64).getLsbD 0 = true := by
    rw [BitVec.getLsbD_signExtend]
    simp
  ext i hi
  rw [BitVec.getElem_and]
  by_cases h0 : i = 0
  · subst h0
    rw [← BitVec.getLsbD_eq_getElem hi, hbit]
    simp
  · have hz : pteP[i] = false := by
      have hall : ∀ j : Fin 64, j ≠ 0 → pteP.getLsbD j = false := by decide
      rw [← BitVec.getLsbD_eq_getElem hi]
      exact hall ⟨i, hi⟩ (fun hc => h0 (congrArg Fin.val hc))
    rw [hz, Bool.and_false]

/-- The entry `page_insert` stores names its page and is present. -/
theorem insertedEntry_spec (pp : Nat) (perm : BitVec 32) (hpp : pp < 2 ^ 52)
    (hperm : perm.toNat < 4096) :
    ppn (insertedEntry pp perm) = pp ∧ hasFlags (insertedEntry pp perm) pteP = true := by
  refine ⟨ppn_mk hpp (flags_lt hperm), ?_⟩
  rw [hasFlags, insertedEntry, or_present _ (flags_present perm)]
  exact beq_self_eq_true _

end Vm

/-- The pages that are in use for user memory, or handed out and not in use yet,
    stay what they are. -/
structure Kept (kind kind' : Nat → Kind) (m m' : Vm) : Prop where
  npages : m'.npages = m.npages
  use : ∀ p, kind p = .user ∨ kind p = .lost → kind' p = kind p
  ppRef : ∀ p, kind p = .user ∨ kind p = .lost → m'.ppRef p = m.ppRef p
  mem : ∀ p, kind p = .user ∨ kind p = .lost → ∀ i, m'.mem p i = m.mem p i

theorem Kept.refl (kind : Nat → Kind) (m : Vm) : Kept kind kind m m :=
  ⟨rfl, fun _ _ => rfl, fun _ _ => rfl, fun _ _ _ => rfl⟩

theorem Kept.trans {m1 m3 : Vm} (h : Kept kind1 kind2 m1 m2) (h' : Kept kind2 kind3 m2 m3) :
    Kept kind1 kind3 m1 m3 := by
  have hmid : ∀ p, kind1 p = .user ∨ kind1 p = .lost → kind2 p = .user ∨ kind2 p = .lost := by
    intro p hp
    rwa [h.use p hp]
  refine ⟨h'.npages.trans h.npages, ?_, ?_, ?_⟩
  · intro p hp
    rw [h'.use p (hmid p hp), h.use p hp]
  · intro p hp
    rw [h'.ppRef p (hmid p hp), h.ppRef p hp]
  · intro p hp i
    rw [h'.mem p (hmid p hp) i, h.mem p hp i]

/-- Tables stay the tables they are. -/
def TablesStay (kind kind' : Nat → Kind) : Prop :=
  ∀ q e π, kind q = .table e π → kind' q = .table e π

theorem TablesStay.refl (kind : Nat → Kind) : TablesStay kind kind := fun _ _ _ h => h

theorem TablesStay.trans (h : TablesStay kind1 kind2) (h' : TablesStay kind2 kind3) :
    TablesStay kind1 kind3 :=
  fun q e π hq => h' q e π (h q e π hq)

/-- They do when one other page changes its use. -/
theorem TablesStay.of_other {kind kind' : Nat → Kind} (hp : ∀ e π, kind p ≠ .table e π)
    (h : ∀ q, q ≠ p → kind' q = kind q) : TablesStay kind kind' := by
  intro q e π hq
  rw [h q ?_, hq]
  intro hc
  rw [hc] at hq
  exact hp e π hq

theorem TablesStay.update {kind : Nat → Kind} {p : Nat} (k : Kind)
    (hp : ∀ e π, kind p ≠ .table e π) : TablesStay kind (update kind p k) :=
  TablesStay.of_other hp (fun q hq => by rw [update_of_ne hq])

namespace Vm
namespace Wf

variable {pool : Nat → Prop} {mem0 : Nat → Nat → Pte} {roots : Nat → Option Nat} {kind : Nat → Kind}
  {m : Vm} {root k pt q pp : Nat} {π : List Nat}

/-! ## The walk -/

/-- A free page has no references. -/
theorem ppRef_eq_zero (h : m.Wf pool mem0 roots kind none) (hp : kind p = .free ∨ kind p = .lost) :
    m.ppRef p = 0 := by
  have hpool := h.pool_of_kind (by rcases hp with hp | hp <;> rw [hp] <;> simp)
  have hc := h.count p hpool
  rw [h.refCount_eq_zero (by rcases hp with hp | hp <;> rw [hp] <;> simp)
    (by rcases hp with hp | hp <;> rw [hp] <;> simp), if_neg (by simp)] at hc
  exact BitVec.eq_of_toNat_eq hc

/-- A lost page may be blanked. -/
theorem clearPage_lost (q i : Nat) (hq : update kind p .lost q = .kernel ∨
    ∃ e π, update kind p .lost q = .table e π ∧ UserIdx π i) :
    clearPage m.mem p q i = m.mem q i := by
  refine clearPage_of_ne _ _ ?_
  intro hc
  rw [hc, update_self] at hq
  rcases hq with hq | ⟨_, _, hq, _⟩ <;> cases hq

/-- The walk's new table: the page is taken from the free list and blanked, gets
    its reference and is attached. -/
theorem newTable (h : m.Wf pool mem0 roots kind none) {t : Nat} {rest : List Nat}
    (ht : kind t = .table e π) (hlen : π.length + 1 < 4) (hk : UserIdx π k) (hz : m.mem t k = 0)
    (hlist : m.pageFreeList = p :: rest) :
    (m.newTable t k p rest).Wf pool mem0 roots (update kind p (.table e (k :: π))) none ∧
      Kept kind (update kind p (.table e (k :: π))) m (m.newTable t k p rest) ∧
      (m.newTable t k p rest).leafMap roots = m.leafMap roots := by
  have hp : kind p = .free := (h.free p).1 (hlist ▸ List.mem_cons_self)
  have htp : t ≠ p := by
    intro hc
    rw [hc, hp] at ht
    cases ht
  have href := h.ppRef_eq_zero (.inl hp)
  -- the page is taken, counted, blanked and attached, one after the other
  have h1 := h.alloc hlist
  have h2 := h1.hold p (by simp only [href]; decide)
  have h3 := h2.scribble clearPage_lost
  have hold : update kind p Kind.lost t = .table e π := by
    rw [update_of_ne htp, ht]
  have hz' : clearPage m.mem p t k = 0 := by rwa [clearPage_of_ne _ _ htp]
  have h4 := attach π h3 hold hlen hk hz' (by rw [update_self]) (clearPage_self m.mem p)
  rw [update_idem] at h4
  have hmem := m.newTable_mem k rest htp
  have hpage : ∀ q, kind q = .user ∨ kind q = .lost → q ≠ p ∧ q ≠ t := by
    intro q hq
    refine ⟨fun hc => ?_, fun hc => ?_⟩
    · rw [hc, hp] at hq
      simp at hq
    · rw [hc, ht] at hq
      simp at hq
  refine ⟨?_, ⟨rfl, ?_, ?_, ?_⟩, ?_⟩
  · have heq : m.newTable t k p rest = Vm.setEntry
        ⟨m.npages, update m.ppRef p (m.ppRef p + 1), rest, clearPage m.mem p⟩
        t k (page2pa p ||| 7) := by
      unfold Vm.newTable at hmem ⊢
      simp only [Vm.zeroPage, Vm.setEntry, Vm.setRef, Vm.mk.injEq, true_and] at hmem ⊢
      exact hmem
    rwa [heq]
  · intro q hq
    rw [update_of_ne (hpage q hq).1]
  · intro q hq
    exact update_of_ne (hpage q hq).1 _ _
  · intro q hq i
    rw [hmem, setSlot_of_ne _ _ (.inl (hpage q hq).2),
      clearPage_of_ne _ _ (hpage q hq).1]
  · refine leafMap_congr ?_
    intro e' π' hok hlen'
    have hx : (e', π') ≠ (e, k :: π) := by
      intro hc
      rw [Prod.mk.injEq] at hc
      rw [hc.2, List.length_cons] at hlen'
      omega
    have hatt := h3.entry_attach π hold hlen hk hz' (by rw [update_self])
      (clearPage_self m.mem p) e' π' hok (by omega)
    have hscr := h2.entry_scribble clearPage_lost e' π' hok (by omega)
    rw [update_of_ne hx, hscr] at hatt
    rwa [hmem]

/-- A walk that finds nothing keeps the invariant, for the contents of free pages
    do not matter. -/
theorem undone (h : m.Wf pool mem0 roots kind none) (hun : m.Undone m') :
    m'.Wf pool mem0 roots kind none ∧ Kept kind kind m m' ∧
      m'.leafMap roots = m.leafMap roots := by
  have hmem : ∀ q, kind q ≠ .free → ∀ i, m'.mem q i = m.mem q i := fun q hq =>
    hun.mem q fun hc => hq ((h.free q).1 hc)
  have hrefs : m'.ppRef = m.ppRef := by
    funext q
    rcases hun.refs q with hr | ⟨hfree, hr⟩
    · exact hr
    · rw [hr, h.ppRef_eq_zero (.inl ((h.free q).1 hfree))]
  have hm' : m' = { m with mem := m'.mem } := by
    cases m'
    simp only [Vm.mk.injEq, and_true]
    exact ⟨hun.npages, hrefs, hun.free⟩
  have htab : ∀ q i, kind q = .kernel ∨ (∃ e π, kind q = .table e π ∧ UserIdx π i) →
      m'.mem q i = m.mem q i := by
    intro q i hq
    refine hmem q ?_ i
    rcases hq with hq | ⟨_, _, hq, _⟩ <;> rw [hq] <;> simp
  have hwf := h.scribble htab
  rw [← hm'] at hwf
  refine ⟨hwf, ⟨hun.npages, fun _ _ => rfl, fun q _ => by rw [hrefs], ?_⟩, ?_⟩
  · intro q hq
    refine hmem q ?_
    rcases hq with hq | hq <;> rw [hq] <;> simp
  · exact leafMap_congr fun e π hok hlen =>
      h.entry_scribble htab e π hok (by omega)

/-- The invariant, together with what a walk that started in `m0` leaves alone,
    survives the walk. -/
theorem walkInv (kind0 : Nat → Kind) (m0 : Vm) : WalkInv roots fun l m => ∃ kind,
    labels kind = l ∧ m.Wf pool mem0 roots kind none ∧ Kept kind0 kind m0 m ∧
      m.leafMap roots = m0.leafMap roots where
  tree := by
    intro l m h
    rcases h with ⟨kind, rfl, hwf, _⟩
    exact hwf.tree
  fresh := by
    intro l m h
    rcases h with ⟨kind, rfl, hwf, _⟩
    refine ⟨hwf.nodup, fun p hp => ?_⟩
    have hk := (hwf.free p).1 hp
    exact ⟨by simp [labels, hk, Kind.label], hwf.lt_of_kind (by rw [hk]; simp)⟩
  newTable := by
    intro l m e π t k p rest h ht hlen hk hz hlist
    rcases h with ⟨kind, rfl, hwf, hkept, hmap⟩
    rcases hwf.newTable ((labels_eq_some kind t e π).1 ht) hlen hk hz hlist with
      ⟨hwf', hkept', hmap'⟩
    exact ⟨_, labels_update kind p _, hwf', hkept.trans hkept', hmap'.trans hmap⟩

/-! ## Allocation -/

section

variable (h : m.Wf pool mem0 roots kind none)

include h

/-- `page_alloc` hands out a free page; only its contents may change. -/
theorem pageAlloc {zero : Bool} (hrun : m.pageAlloc zero = (some p, m')) :
    kind p = .free ∧ m'.Wf pool mem0 roots (update kind p .lost) none ∧
      Kept kind (update kind p .lost) m m' ∧ m'.leafMap roots = m.leafMap roots ∧
      m'.ppRef = m.ppRef ∧ (∀ q, q ≠ p → ∀ i, m'.mem q i = m.mem q i) ∧
      (zero = true → ∀ i, m'.mem p i = 0) := by
  unfold Vm.pageAlloc at hrun
  cases hlist : m.pageFreeList with
  | nil =>
    rw [hlist] at hrun
    cases hrun
  | cons q rest =>
    rw [hlist] at hrun
    simp only [Prod.mk.injEq, Option.some.injEq] at hrun
    rcases hrun with ⟨rfl, rfl⟩
    have hq : kind q = .free := (h.free q).1 (hlist ▸ List.mem_cons_self)
    have h1 := h.alloc hlist
    have hother : ∀ r, kind r = .user ∨ kind r = .lost → r ≠ q := by
      intro r hr hc
      rw [hc, hq] at hr
      simp at hr
    cases zero with
    | false =>
      refine ⟨hq, h1, ⟨rfl, ?_, fun _ _ => rfl, fun _ _ _ => rfl⟩, rfl, rfl, fun _ _ _ => rfl,
        fun hc => by cases hc⟩
      intro r hr
      rw [update_of_ne (hother r hr)]
    | true =>
      refine ⟨hq, h1.scribble clearPage_lost, ⟨rfl, ?_, fun _ _ => rfl, ?_⟩, ?_, rfl, ?_, ?_⟩
      · intro r hr
        rw [update_of_ne (hother r hr)]
      · intro r hr i
        exact clearPage_of_ne _ _ (hother r hr)
      · refine leafMap_congr ?_
        intro e π hok hlen
        exact h1.entry_scribble clearPage_lost e π hok (by omega)
      · intro r hr i
        exact clearPage_of_ne _ _ hr
      · intro _ i
        exact clearPage_self m.mem q i

/-! ## Removal -/

/-- A mapped page goes: the entry is erased and its reference dropped. -/
theorem removeLeaf (hq : kind q = .table e π)
    (hlen : π.length = 3) (hk : UserIdx π k) (hne : m.mem q k ≠ 0) :
    ∃ kind', ((m.pageDecref (ppn (m.mem q k))).setEntry q k 0).Wf pool mem0 roots kind' none ∧
      (∀ p, p ≠ ppn (m.mem q k) → kind' p = kind p) ∧
      (kind' (ppn (m.mem q k)) = .user ∨ kind' (ppn (m.mem q k)) = .free) := by
  have hx := h.mem_places_of_kind hq hk
  rcases (mem_places _).1 hx with ⟨_, hok, hlen'⟩
  have hent := h.tree.entry_of_label q k ((labels_eq_some kind q e π).2 hq)
  have hpres := h.present e (k :: π) hok hlen' (by rwa [hent])
  have huser := h.leaf e (k :: π) hok (by simp [hlen]) (by rwa [hent])
  rw [hent] at hpres huser
  have h1 := h.setLeaf (some (ppn (m.mem q k))) π 0 hq hlen hk
    (fun hc => absurd rfl hc) (by
      intro p
      rw [target_zero, target_of_present hpres, if_neg (by simp : ¬(none : Option Nat) = some p)]
      omega)
  rcases pageDecref h1 (.inr huser) with ⟨kind', h2, hother, hself⟩
  rw [huser] at hself
  rw [pageDecref_setEntry]
  exact ⟨kind', h2, hother, hself⟩

/-- The page table a walk finds for `va` holds the entry of the map. -/
theorem leafMap_of_node (hroot : roots e = some root)
    (hva : va < utop) (hn : Lib.Radix.node ppn m.mem root (ptPath va) = some pt) :
    kind pt = .table e (ptPath va) ∧ m.leafMap roots (e, va / pgSize) = m.mem pt (ptx va) ∧
      entry ppn roots m.mem (e, ptPath va) ≠ 0 := by
  have hok := leafPath_ok hva
  rw [leafPath_eq] at hok
  have hlab := h.tree.label_of_node e hroot hok.1 (by simp [ptPath]) hn
  refine ⟨(labels_eq_some kind pt e (ptPath va)).1 hlab, ?_, ?_⟩
  · rw [m.leafMap_at roots e hva, leafPath_eq,
      h.tree.entry_of_label pt (ptx va) hlab]
  · rcases h.tree.up pt e _ _ hlab with ⟨_, _, q, hq, hqk, _⟩
    rwa [ptPath, h.tree.entry_of_label q _ hq]

/-- A mapped page is a user page. -/
theorem kind_of_leafMap (hva : va < utop) (hne : m.leafMap roots (e, va / pgSize) ≠ 0) :
    kind (ppn (m.leafMap roots (e, va / pgSize))) = .user := by
  rw [m.leafMap_at roots e hva] at hne ⊢
  exact h.leaf e (leafPath va) (leafPath_ok hva) rfl hne

/-- `page_remove` on a page that is mapped, or for which there is no page table:
    the map loses the page. -/
theorem pageRemove (hroot : roots e = some root) (hva : va < utop)
    (hmap : m.leafMap roots (e, va / pgSize) ≠ 0 ∨ entry ppn roots m.mem (e, ptPath va) = 0)
    (hrun : m.pageRemove root va = some m') :
    ∃ kind', m'.Wf pool mem0 roots kind' none ∧
      m'.leafMap roots = update (m.leafMap roots) (e, va / pgSize) 0 ∧
      (∀ p, p ≠ ppn (m.leafMap roots (e, va / pgSize)) →
        kind' p = kind p ∧ m'.ppRef p = m.ppRef p) ∧
      (kind' (ppn (m.leafMap roots (e, va / pgSize))) =
        kind (ppn (m.leafMap roots (e, va / pgSize))) ∨
        kind' (ppn (m.leafMap roots (e, va / pgSize))) = .free) ∧
      m'.npages = m.npages ∧
      (∀ p, kind p = .user ∨ kind p = .lost → ∀ i, m'.mem p i = m.mem p i) ∧
      TablesStay kind kind' := by
  have hokl := leafPath_ok hva
  rcases m.pageRemove_cases hrun with ⟨hn, rfl⟩ | ⟨pt, hn, _, hm'⟩
  · -- there is no page table
    have hz : m'.leafMap roots (e, va / pgSize) = 0 := by
      rw [m'.leafMap_at roots e hva, leafPath_eq]
      simp [entry, Lib.Radix.lookup, hroot, hn]
    refine ⟨kind, h, ?_, fun _ _ => ⟨rfl, rfl⟩, .inl rfl, rfl, fun _ _ _ => rfl,
      TablesStay.refl kind⟩
    rw [← hz, update_eq_self]
  · rcases h.leafMap_of_node hroot hva hn with ⟨hpt, hleaf, htable⟩
    have hne : m.mem pt (ptx va) ≠ 0 := by
      rw [← hleaf]
      exact hmap.resolve_right htable
    have huser := h.kind_of_leafMap hva (by rwa [hleaf])
    rw [hleaf] at huser
    rcases h.removeLeaf hpt rfl hokl.2 hne with
      ⟨kind', h', hother, hself⟩
    rw [← hm'] at h'
    rw [hleaf]
    refine ⟨kind', h', ?_, ?_, ?_, ?_, ?_, TablesStay.of_other (by rw [huser]; simp) hother⟩
    · refine leafMap_update hva ?_
      intro e' π' hok hlen
      rw [hm', setEntry_mem, pageDecref_mem, ← setEntry_mem]
      exact h.entry_setLeaf (ptx va) 0 hpt rfl e' π' hok (by omega)
    · intro p hp
      refine ⟨hother p hp, ?_⟩
      rw [hm', setEntry_ppRef, pageDecref_ppRef, update_of_ne hp]
    · rw [huser]; exact hself
    · rw [hm']; simp
    · intro p hp i
      have hppt : p ≠ pt := by
        intro hc
        rw [hc, hpt] at hp
        simp at hp
      rw [hm', setEntry_mem, pageDecref_mem, setSlot_of_ne _ _ (.inl hppt)]

/-! ## Insertion -/

/-- A page goes to an empty slot, with one more reference. -/
theorem putLeaf (hq : kind q = .table e π) (hlen : π.length = 3) (hk : UserIdx π k)
    (hz : m.mem q k = 0) (hp : kind p = .user ∨ kind p = .lost) (hcount : m.ppRef p ≠ 65535)
    (hv : ppn v = p ∧ hasFlags v pteP = true) :
    ((m.setRef p (m.ppRef p + 1)).setEntry q k v).Wf pool mem0 roots
      (update kind p .user) none := by
  have h1 := h.hold p hcount
  have h2 : (m.setRef p (m.ppRef p + 1)).Wf pool mem0 roots (update kind p .user)
      (some p) := by
    rcases hp with hp | hp
    · rwa [← hp, update_eq_self]
    · exact h1.claim hp
  have hqp : q ≠ p := by
    intro hc
    rw [← hc, hq] at hp
    simp at hp
  refine h2.setLeaf none π v (by rw [update_of_ne hqp, hq]) hlen hk ?_ ?_
  · intro _
    rw [hv.1, update_self]
    exact ⟨hv.2, rfl⟩
  · intro r
    rw [setRef_mem, hz, target_zero, target_of_present hv.2, hv.1,
      if_neg (by simp : ¬(none : Option Nat) = some r)]
    omega

variable (hroot : roots e = some root)
include hroot

/-- The slot for `va` is empty before `page_insert` fills it with another page. -/
theorem clearSlot
    (hva : va < utop) (hpt : kind pt = .table e (ptPath va))
    (hrun : (m.mem pt (ptx va) = 0 ∧ m2 = m) ∨
      (m.mem pt (ptx va) ≠ 0 ∧ m.pageRemove root va = some m2)) :
    ∃ kind2, m2.Wf pool mem0 roots kind2 none ∧ kind2 pt = .table e (ptPath va) ∧
      m2.mem pt (ptx va) = 0 ∧ m2.npages = m.npages ∧
      m2.leafMap roots = update (m.leafMap roots) (e, va / pgSize) 0 ∧
      (∀ p, p ≠ ppn (m.mem pt (ptx va)) → kind p = .user ∨ kind p = .lost →
        kind2 p = kind p ∧ m2.ppRef p = m.ppRef p) ∧
      (∀ p, kind p = .user ∨ kind p = .lost → ∀ i, m2.mem p i = m.mem p i) ∧
      TablesStay kind kind2 := by
  have hok := leafPath_ok hva
  have hent := h.tree.entry_of_label pt (ptx va)
    ((labels_eq_some kind pt e _).2 hpt)
  have hleaf : m.leafMap roots (e, va / pgSize) = m.mem pt (ptx va) := by
    rw [m.leafMap_at roots e hva, leafPath_eq, hent]
  rcases hrun with ⟨hz, rfl⟩ | ⟨hne, hrun⟩
  · refine ⟨kind, h, hpt, hz, rfl, ?_, fun _ _ _ => ⟨rfl, rfl⟩, fun _ _ _ => rfl,
      TablesStay.refl kind⟩
    rw [← hz, ← hleaf, update_eq_self]
  · rcases h.pageRemove hroot hva (.inl (by rwa [hleaf])) hrun with
      ⟨kind2, h2, hmap, hother, _, hnp, hmem, hstay⟩
    rw [hleaf] at hother
    have hpt2 : kind2 pt = .table e (ptPath va) := hstay pt e _ hpt
    refine ⟨kind2, h2, hpt2, ?_, hnp, hmap, fun p hp _ => hother p hp, hmem, hstay⟩
    have hzero : m2.leafMap roots (e, va / pgSize) = 0 := by rw [hmap, update_self]
    rw [m2.leafMap_at roots e hva, leafPath_eq, h2.tree.entry_of_label pt (ptx va)
      ((labels_eq_some kind2 pt e _).2 hpt2)] at hzero
    exact hzero

/-- `page_insert` once the walk has found the page table. -/
theorem inserted (hva : va < utop) (hpt : kind pt = .table e (ptPath va))
    (hpp : kind pp = .user ∨ kind pp = .lost) (hperm : perm.toNat < 4096)
    (hcount : m.ppRef pp ≠ 65535 ∨ ppn (m.leafMap roots (e, va / pgSize)) = pp)
    (hins : m.Inserted root pt pp va perm m') :
    ∃ kind', m'.Wf pool mem0 roots kind' none ∧ m'.npages = m.npages ∧
      (∀ p, kind p = .user ∨ kind p = .lost → ∀ i, m'.mem p i = m.mem p i) ∧
      TablesStay kind kind' ∧ m'.leafMap roots =
        update (m.leafMap roots) (e, va / pgSize) (insertedEntry pp perm) := by
  have hok := leafPath_ok hva
  have hkern : kind pp ≠ .kernel := by rcases hpp with hpp | hpp <;> rw [hpp] <;> simp
  have hlt := h.lt_of_kind hkern
  have hv := insertedEntry_spec pp perm hlt hperm
  have hent := h.tree.entry_of_label pt (ptx va)
    ((labels_eq_some kind pt e _).2 hpt)
  have hleaf : m.leafMap roots (e, va / pgSize) = m.mem pt (ptx va) := by
    rw [m.leafMap_at roots e hva, leafPath_eq, hent]
  have hnotpt : ∀ p, kind p = .user ∨ kind p = .lost → p ≠ pt := by
    intro p hp hc
    rw [hc, hpt] at hp
    simp at hp
  rcases hins with ⟨hsame, rfl⟩ | ⟨hdiff, m2, hclear, rfl⟩
  · -- the page is mapped there already and gets new flags
    have hptr := (pteAddr_eq_iff _ hlt).1 hsame
    have hne : m.mem pt (ptx va) ≠ 0 := by
      intro hz
      rw [hz, ppn_zero] at hptr
      have := (h.bound pp (h.pool_of_kind hkern)).1
      omega
    have hpres := h.present e (ptx va :: ptPath va) hok (by simp [ptPath])
      (by rwa [hent])
    have huser := h.leaf e (ptx va :: ptPath va) hok rfl (by rwa [hent])
    rw [hent] at hpres huser
    refine ⟨kind, h.setLeaf none (ptPath va) _ hpt rfl hok.2 ?_ ?_, rfl, ?_,
      TablesStay.refl kind, ?_⟩
    · intro _
      rw [hptr] at huser
      exact ⟨hv.2, by rwa [hv.1]⟩
    · intro p
      rw [target_of_present hv.2, target_of_present hpres, hv.1, hptr]
    · intro p hp i
      rw [setEntry_mem, setSlot_of_ne _ _ (.inl (hnotpt p hp))]
    · refine leafMap_update hva ?_
      intro e' π' hok' hlen
      exact h.entry_setLeaf (ptx va) _ hpt rfl e' π' hok' (by omega)
  · have hptr : ppn (m.mem pt (ptx va)) ≠ pp := fun hc => hdiff ((pteAddr_eq_iff _ hlt).2 hc)
    rw [hleaf] at hcount
    rcases h.clearSlot hroot hva hpt hclear with
      ⟨kind2, h2, hpt2, hz, hnp, hmap, hother, hmem, hstay⟩
    rcases hother pp hptr.symm hpp with ⟨hk2, hr2⟩
    have h3 := h2.putLeaf hpt2 rfl hok.2 hz (by rwa [hk2])
      (hr2 ▸ hcount.resolve_right hptr) hv
    have hnotab : ∀ e π, kind2 pp ≠ .table e π := by
      intro e' π' hc
      rw [hk2] at hc
      rw [hc] at hpp
      simp at hpp
    refine ⟨_, h3, hnp, ?_, hstay.trans (TablesStay.update _ hnotab), ?_⟩
    · intro p hp i
      rw [setEntry_mem, setRef_mem, setSlot_of_ne _ _ (.inl (hnotpt p hp)),
        hmem p hp i]
    · rw [leafMap_update hva (fun e' π' hok' hlen => ?_), hmap,
        update_idem]
      exact h2.entry_setLeaf (ptx va) _ hpt2 rfl e' π' hok' (by omega)

/-- `page_insert` of a page that is in use for user memory, or handed out for
    it: the map has the page afterwards, unless there was no memory for a table. -/
theorem pageInsert
    (hva : va < utop) (hpp : kind pp = .user ∨ kind pp = .lost) (hperm : perm.toNat < 4096)
    (hcount : m.ppRef pp ≠ 65535 ∨ ppn (m.leafMap roots (e, va / pgSize)) = pp) {r : Int}
    (hrun : m.pageInsert root pp va perm = some (r, m')) :
    ∃ kind', m'.Wf pool mem0 roots kind' none ∧ m'.npages = m.npages ∧
      (∀ p, kind p = .user ∨ kind p = .lost → ∀ i, m'.mem p i = m.mem p i) ∧
      TablesStay kind kind' ∧
      ((r = eNoMem ∧ m'.leafMap roots = m.leafMap roots ∧ kind' pp = kind pp) ∨
        (r = 0 ∧ m'.leafMap roots =
          update (m.leafMap roots) (e, va / pgSize) (insertedEntry pp perm))) := by
  rcases m.pageInsert_cases hrun with ⟨o, m1, hwalk, hres⟩
  have hwalked := pml4eWalk_rule (@walkInv pool mem0 roots kind m) e va
    ⟨kind, rfl, h, Kept.refl kind m, rfl⟩ hroot hva o m1 hwalk
  cases o with
  | none =>
    rcases hres with ⟨hr, rfl⟩
    rcases h.undone hwalked with ⟨h1, hkept, hmap⟩
    exact ⟨kind, h1, hkept.npages, hkept.mem, TablesStay.refl kind, .inl ⟨hr, hmap, rfl⟩⟩
  | some pt =>
    rcases hwalked with ⟨l1, ⟨kind1, rfl, h1, hkept, hmap⟩, hext, hfound⟩
    have hstay1 : TablesStay kind kind1 := by
      intro q e' π' hq
      exact (labels_eq_some kind1 q e' π').1 (hext q _ ((labels_eq_some kind q e' π').2 hq))
    rcases hres with ⟨hr, hins⟩
    have hpt := (labels_eq_some kind1 pt e (ptPath va)).1 hfound
    rcases h1.inserted hroot hva hpt (by rwa [hkept.use pp hpp])
      hperm (by rwa [hkept.ppRef pp hpp, hmap]) hins with
      ⟨kind', h', hnp, hmem, hstay, hmap'⟩
    refine ⟨kind', h', hnp.trans hkept.npages, ?_, hstay1.trans hstay,
      .inr ⟨hr, by rw [hmap', hmap]⟩⟩
    intro p hp i
    rw [hmem p (by rwa [hkept.use p hp]) i, hkept.mem p hp i]

end

end Wf
end Vm
end Jos
