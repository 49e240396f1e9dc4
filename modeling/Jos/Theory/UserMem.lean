import Jos.Core.UserMem
import Jos.Theory.Memory

/-!
# What the Page Calls Do

Page 0 is never handed out, and an entry that is zero looks like an entry for it. So a
program is concerned with the other pages only, and for them `sys_page_map` copies what is
seen at the source, `sys_page_unmap` removes what is seen, and the counts stay the numbers
of the places where a page is seen.

## Main definitions

* `Pages.seen`: The page that is mapped, unless it is page 0.
* `Pages.Wf`: Entries are zero or present, and belong to a user page of an environment.
* `Pages.Counted`: The count of a page is right.

## Theorems

* `Pages.sysPageMap_spec`, `Pages.sysPageUnmap_spec`: What is seen after a call, and that
  the counts stay right.
* `Pages.envFree_spec`, `Pages.envFree_seen`: The same for the end of an environment.
* `sysPageMap_refines`: The kernel's call does the same to the maps.
* `duppage_cases`: What `duppage` asks for.
-/

namespace Jos.User

open Lib
open Function (update update_self update_of_ne update_eq_self)

variable {perm : BitVec 32}

namespace Pages

variable {m m' : Pages} {q : Nat}

/-- The page that is mapped, unless it is page 0. -/
def seen (m : Pages) (x : Nat × Nat) : Option Nat := (target (m.maps x)).filter (· ≠ 0)

/-- The user pages of all environments. -/
@[irreducible] def slots : Finset (Nat × Nat) := Finset.range nenv ×ˢ Finset.range (utop / pgSize)

/-- Every entry is zero or present, and is one of a user page. -/
structure Wf (m : Pages) : Prop where
  entry : ∀ x, m.maps x = 0 ∨ m.present x = true
  slot : ∀ x, m.maps x ≠ 0 → x ∈ slots

/-- The count of a page is the number of places where it is seen. -/
def Counted (m : Pages) (q : Nat) : Prop := m.ppRef q = BitVec.ofNat 16 (Refs.count slots m.seen q)

theorem seen_eq_some (m : Pages) (x : Nat × Nat) (q : Nat) :
    m.seen x = some q ↔ m.present x = true ∧ ppn (m.maps x) = q ∧ q ≠ 0 := by
  unfold seen target present
  by_cases hp : hasFlags (m.maps x) pteP = true
  · simp [hp]
  · simp [hp]

theorem seen_zero {x : Nat × Nat} (h : m.maps x = 0) : m.seen x = none := by
  rw [seen, h, target_zero]
  rfl

theorem Wf.seen (h : m.Wf) (x : Nat × Nat) :
    m.seen x = if ppn (m.maps x) = 0 then none else some (ppn (m.maps x)) := by
  rcases h.entry x with hz | hp
  · rw [seen_zero hz, hz, ppn_zero, if_pos rfl]
  · by_cases h0 : ppn (m.maps x) = 0
    · rw [if_pos h0, Option.eq_none_iff_forall_ne_some]
      intro q hq
      rcases (seen_eq_some m x q).1 hq with ⟨_, hpq, hne⟩
      exact hne (hpq.symm.trans h0)
    · rw [if_neg h0]
      exact (seen_eq_some m x _).2 ⟨hp, rfl, h0⟩

theorem Wf.seen_iff (h : m.Wf) (hq : q ≠ 0) (x : Nat × Nat) :
    m.seen x = some q ↔ ppn (m.maps x) = q := by
  rw [h.seen x]
  by_cases h0 : ppn (m.maps x) = 0
  · rw [if_pos h0, h0]
    simp [hq.symm]
  · rw [if_neg h0, Option.some.injEq]

theorem Wf.mem_slots (h : m.Wf) {x : Nat × Nat} (hq : m.seen x = some q) : x ∈ slots := by
  refine h.slot x ?_
  intro hz
  rw [seen_zero hz] at hq
  cases hq

/-- What is seen depends on the entries only. -/
theorem seen_congr {x y : Nat × Nat} (h : m'.maps y = m.maps x) : m'.seen y = m.seen x := by
  rw [seen, seen, h]

/-! ## Removing -/

theorem seen_pageRemove (m : Pages) (x : Nat × Nat) :
    (m.pageRemove x).seen = update m.seen x none := by
  funext y
  by_cases hy : y = x
  · rw [hy, update_self]
    exact seen_zero (update_self x 0 m.maps)
  · rw [update_of_ne hy]
    exact seen_congr (update_of_ne hy 0 m.maps)

theorem Wf.pageRemove (h : m.Wf) (x : Nat × Nat) : (m.pageRemove x).Wf := by
  refine ⟨?_, ?_⟩
  · intro y
    rw [present, pageRemove_maps]
    by_cases hy : y = x
    · rw [hy, update_self]
      exact .inl rfl
    · rw [update_of_ne hy]
      exact h.entry y
  · intro y hy
    refine h.slot y ?_
    intro hz
    refine hy ?_
    rw [pageRemove_maps]
    by_cases hyx : y = x
    · rw [hyx, update_self]
    · rw [update_of_ne hyx, hz]

/-- The number of places with a page after a change at one of them, in 16 bits. -/
theorem ofNat_count_update (f : Nat × Nat → Option Nat) {x : Nat × Nat} (hx : x ∈ slots)
    (o : Option Nat) (q : Nat) :
    BitVec.ofNat 16 (Refs.count slots (update f x o) q) =
      BitVec.ofNat 16 (Refs.count slots f q) - (if f x = some q then 1 else 0) +
        (if o = some q then 1 else 0) := by
  have hcount := Refs.count_update f (update f x o) hx
    (fun y _ hy => update_of_ne hy o f) q
  rw [update_self] at hcount
  generalize Refs.count slots (update f x o) q = c' at hcount ⊢
  generalize Refs.count slots f q = c at hcount ⊢
  by_cases hold : f x = some q <;> by_cases hnew : o = some q <;>
    simp only [hold, hnew, if_true, if_false] at hcount ⊢ <;> bv_omega

/-- One place less has the page that was there. -/
theorem Counted.pageRemove (h : m.Counted q) (hwf : m.Wf) (hq : q ≠ 0) (x : Nat × Nat) :
    (m.pageRemove x).Counted q := by
  unfold Counted at h ⊢
  rw [seen_pageRemove, pageRemove_ppRef, update_sub_one, h]
  by_cases hz : m.maps x = 0
  · -- only page 0 is counted wrong
    rw [hz, ppn_zero, if_neg hq.symm, sub_zero, ← seen_zero hz, update_eq_self]
  · have hno : ¬(none : Option Nat) = some q := by simp
    rw [ofNat_count_update m.seen (hwf.slot x hz) none q, if_neg hno, add_zero]
    simp only [hwf.seen_iff hq]

/-! ## Inserting -/

theorem pageInsert_maps (m : Pages) (x : Nat × Nat) (pp : Nat) (perm : BitVec 32) :
    (m.pageInsert x pp perm).maps = update m.maps x (Vm.insertedEntry pp perm) := by
  unfold pageInsert Vm.insertedEntry
  split
  · split
    · simp
    · rfl
  · rfl

section Insert

variable (x : Nat × Nat) {pp : Nat} {perm : BitVec 32}

theorem seen_pageInsert (hpp : pp < 2 ^ 52) (hperm : perm.toNat < 4096) :
    (m.pageInsert x pp perm).seen = update m.seen x (if pp = 0 then none else some pp) := by
  rcases Vm.insertedEntry_spec pp perm hpp hperm with ⟨hppn, hp⟩
  funext y
  by_cases hy : y = x
  · rw [hy, update_self, seen, pageInsert_maps, update_self, target, if_pos hp,
      hppn]
    by_cases h0 : pp = 0
    · simp [h0]
    · simp [h0]
  · rw [update_of_ne hy]
    refine seen_congr ?_
    rw [pageInsert_maps, update_of_ne hy]

theorem Wf.pageInsert (h : m.Wf) (hx : x ∈ slots) (hpp : pp < 2 ^ 52) (hperm : perm.toNat < 4096) :
    (m.pageInsert x pp perm).Wf := by
  refine ⟨?_, ?_⟩
  · intro y
    rw [present, pageInsert_maps]
    by_cases hy : y = x
    · rw [hy, update_self]
      exact .inr (Vm.insertedEntry_spec pp perm hpp hperm).2
    · rw [update_of_ne hy]
      exact h.entry y
  · intro y hy
    by_cases hyx : y = x
    · rwa [hyx]
    · rw [pageInsert_maps, update_of_ne hyx] at hy
      exact h.slot y hy

/-- What `page_insert` counts, besides page 0. -/
theorem pageInsert_ppRef (hwf : m.Wf) (hq : q ≠ 0) (hpp : pp < 2 ^ 52) :
    (m.pageInsert x pp perm).ppRef q =
      m.ppRef q - (if m.seen x = some q then 1 else 0) + (if pp = q then 1 else 0) := by
  simp only [hwf.seen_iff hq]
  unfold Pages.pageInsert
  by_cases hsame : ppn (m.maps x) = pp
  · rw [if_neg (not_not.2 ((pteAddr_eq_iff _ hpp).2 hsame)), hsame, BitVec.sub_add_cancel]
  · rw [if_pos (fun hc => hsame ((pteAddr_eq_iff _ hpp).1 hc))]
    dsimp only
    rw [update_add_one]
    by_cases hz : m.maps x = 0
    · rw [if_neg (not_not.2 hz), hz, ppn_zero, if_neg hq.symm, sub_zero]
    · rw [if_pos hz, pageRemove_ppRef, update_sub_one]

theorem Counted.pageInsert (h : m.Counted q) (hwf : m.Wf) (hq : q ≠ 0) (hx : x ∈ slots)
    (hpp : pp < 2 ^ 52) (hperm : perm.toNat < 4096) : (m.pageInsert x pp perm).Counted q := by
  unfold Counted at h ⊢
  rw [seen_pageInsert x hpp hperm, ofNat_count_update m.seen hx _ q, ← h,
    pageInsert_ppRef x hwf hq hpp]
  congr 1
  by_cases h0 : pp = 0
  · rw [if_pos h0, h0]
    simp [hq.symm]
  · rw [if_neg h0]
    simp

end Insert

/-! ## The calls -/

theorem mem_slots (x : Nat × Nat) : x ∈ slots ↔ x.1 < nenv ∧ x.2 < utop / pgSize := by
  unfold slots
  rw [Finset.mem_product, Finset.mem_range, Finset.mem_range]

theorem lt_of_not_le {v : Nat} (h : ¬utop ≤ v * pgSize) : v < utop / pgSize := by
  simp only [utop, pgSize] at h ⊢
  omega

/-- A call copies what is seen at the source, and the counts stay right. -/
theorem sysPageMap_spec (hwf : m.Wf) {src dst : Nat × Nat} (hperm : perm.toNat < 4096)
    (hdst : dst.1 < nenv) (hrun : m.sysPageMap src dst perm = some m') :
    m'.seen = update m.seen dst (m.seen src) ∧ m'.Wf ∧
      ∀ q, q ≠ 0 → m.Counted q → m'.Counted q := by
  unfold sysPageMap at hrun
  rcases Option.ite_none_left_eq_some.1 hrun with ⟨hva, hrun⟩
  rw [Option.some.injEq] at hrun
  rw [not_or] at hva
  have hx : dst ∈ slots := (mem_slots dst).2 ⟨hdst, lt_of_not_le hva.2⟩
  have hpp := ppn_lt (m.maps src)
  rw [← hrun]
  refine ⟨?_, hwf.pageInsert dst hx hpp hperm,
    fun q hq hc => hc.pageInsert dst hwf hq hx hpp hperm⟩
  rw [seen_pageInsert dst hpp hperm, hwf.seen src]

theorem sysPageUnmap_spec (hwf : m.Wf) (x : Nat × Nat) :
    (m.sysPageUnmap x).seen = update m.seen x none ∧ (m.sysPageUnmap x).Wf ∧
      ∀ q, q ≠ 0 → m.Counted q → (m.sysPageUnmap x).Counted q := by
  unfold sysPageUnmap
  by_cases hva : utop ≤ x.2 * pgSize
  · rw [if_pos hva]
    refine ⟨?_, hwf, fun q _ hc => hc⟩
    -- nothing is mapped there
    have hnone : m.seen x = none := by
      refine seen_zero ?_
      by_contra hne
      have hlt := ((mem_slots x).1 (hwf.slot x hne)).2
      simp only [utop, pgSize] at hva hlt
      omega
    rw [← hnone, update_eq_self]
  · rw [if_neg hva]
    exact ⟨seen_pageRemove m x, hwf.pageRemove x, fun q hq hc => hc.pageRemove hwf hq x⟩

/-- One round of `env_free`. -/
theorem removePresent_spec (hwf : m.Wf) (x : Nat × Nat) :
    ∃ m', (if m.present x then m.pageRemove x else m) = m' ∧
      m'.seen = update m.seen x none ∧ m'.Wf ∧
      ∀ q, q ≠ 0 → m.Counted q → m'.Counted q := by
  by_cases hp : m.present x = true
  · rw [if_pos hp]
    exact ⟨_, rfl, seen_pageRemove m x, hwf.pageRemove x, fun q hq hc => hc.pageRemove hwf hq x⟩
  · rw [if_neg hp]
    refine ⟨_, rfl, ?_, hwf, fun q _ hc => hc⟩
    rw [← seen_zero ((hwf.entry x).resolve_right hp), update_eq_self]

/-- `env_free` removes one page after the other. -/
theorem envFree_spec (hwf : m.Wf) (e n : Nat) :
    (∀ x, (m.envFree e n).seen x = if x.1 = e ∧ x.2 < n then none else m.seen x) ∧
      (m.envFree e n).Wf ∧ ∀ q, q ≠ 0 → m.Counted q → (m.envFree e n).Counted q := by
  induction n with
  | zero =>
    refine ⟨?_, hwf, fun q _ hc => hc⟩
    intro x
    rw [if_neg (by omega)]
    rfl
  | succ n ih =>
    rcases ih with ⟨hseen, hwf', hcount⟩
    rcases removePresent_spec hwf' (e, n) with ⟨m', hm', hseen', hwf'', hcount'⟩
    rw [envFree, hm']
    refine ⟨?_, hwf'', fun q hq hc => hcount' q hq (hcount q hq hc)⟩
    intro x
    rw [hseen']
    by_cases hx : x = (e, n)
    · rw [hx, update_self, if_pos ⟨rfl, Nat.lt_succ_self n⟩]
    · rw [update_of_ne hx, hseen x]
      have hiff : (x.1 = e ∧ x.2 < n) ↔ (x.1 = e ∧ x.2 < n + 1) := by
        constructor
        · exact fun h => ⟨h.1, by omega⟩
        · intro h
          refine ⟨h.1, ?_⟩
          by_contra hge
          exact hx (Prod.ext h.1 (by omega))
      simp only [hiff]

/-- Everything goes. -/
theorem envFree_seen (hwf : m.Wf) (e : Nat) (x : Nat × Nat) :
    (m.envFree e (utop / pgSize)).seen x = if x.1 = e then none else m.seen x := by
  rw [(envFree_spec hwf e (utop / pgSize)).1 x]
  by_cases he : x.1 = e
  · rw [if_pos he]
    by_cases hlt : x.2 < utop / pgSize
    · rw [if_pos ⟨he, hlt⟩]
    · rw [if_neg (fun h => hlt h.2)]
      refine seen_zero ?_
      by_contra hne
      exact hlt ((mem_slots x).1 (hwf.slot x hne)).2
  · rw [if_neg (fun h => he h.1), if_neg he]

/-! ## Examples of maps -/

/-- Pages at the given places, shared and writable. -/
def ofList : List ((Nat × Nat) × Nat) → Pages
  | [] => ⟨fun _ => 0, fun _ => 0⟩
  | (x, q) :: l => (ofList l).pageInsert x q 0x407

theorem ofList_spec (l : List ((Nat × Nat) × Nat)) :
    (∀ p ∈ l, p.1 ∈ slots ∧ p.2 < 2 ^ 52) →
    (ofList l).Wf ∧ (∀ q, q ≠ 0 → (ofList l).Counted q) ∧
      (∀ x q, (ofList l).seen x = some q → (x, q) ∈ l) ∧
      ∀ x, (∀ p ∈ l, p.1 ≠ x) → (ofList l).maps x = 0 := by
  induction l with
  | nil =>
    intro _
    have hnone : ∀ x, (ofList []).seen x = none := fun x => seen_zero rfl
    refine ⟨⟨fun _ => .inl rfl, fun _ hne => absurd rfl hne⟩, ?_, ?_, fun _ _ => rfl⟩
    · intro q _
      unfold Counted
      rw [(Refs.count_eq_zero slots _ q).2]
      · rfl
      · intro x _ hx
        cases (hnone x).symm.trans hx
    · intro x q hx
      cases (hnone x).symm.trans hx
  | cons p l ih =>
    intro hall
    rcases ih fun p' hp' => hall p' (List.mem_cons_of_mem _ hp') with ⟨hwf, hcount, hseen, hmaps⟩
    rcases hall p List.mem_cons_self with ⟨hslot, hpp⟩
    have hperm : (0x407 : BitVec 32).toNat < 4096 := by decide
    refine ⟨hwf.pageInsert p.1 hslot hpp hperm, ?_, ?_, ?_⟩
    · intro q hq
      exact (hcount q hq).pageInsert p.1 hwf hq hslot hpp hperm
    · intro x q hx
      rw [ofList, seen_pageInsert p.1 hpp hperm] at hx
      by_cases hxp : x = p.1
      · rw [hxp, update_self] at hx
        split at hx
        · cases hx
        · rw [hxp, ← Option.some.inj hx]
          exact List.mem_cons_self
      · rw [update_of_ne hxp] at hx
        exact List.mem_cons_of_mem _ (hseen x q hx)
    · intro x hx
      rw [ofList, pageInsert_maps, update_of_ne (hx p List.mem_cons_self).symm]
      exact hmaps x fun p' hp' => hx p' (List.mem_cons_of_mem _ hp')

end Pages

/-! ## The kernel -/

/-- A call of `sys_page_map` that keeps the kernel's pages in order and returns 0 does to
    the maps what the call does here. -/
theorem sysPageMap_refines {pool : Nat → Prop} {mem0 : Nat → Nat → Pte} {P : Pte → Prop}
    {s : Kernel} (h : s.MemInv pool mem0 P) {cur : Nat} {srcenvid : BitVec 32} {srcva : Nat}
    {dstenvid : BitVec 32} {dstva : Nat} {g : Kernel.Mapping}
    (hg : s.mapping cur (.pageMap srcenvid srcva dstenvid dstva perm) = some g) (hcan : s.CanMap g)
    (hperm : ∀ pp, P (Vm.insertedEntry pp g.perm)) :
    (s.sysPageMap cur srcenvid srcva dstenvid dstva perm).Sat
      (fun n s' => n = 0 → ∀ ppRef,
        ((⟨s.maps, ppRef⟩ : Pages).sysPageMap (g.src, g.srcva / pgSize) g.dest g.perm).map
          Pages.maps = some s'.maps)
      (fun _ => False) (fun _ => True) := by
  refine (s.sysPageMap_step cur srcenvid srcva dstenvid dstva perm).mono ?_ (fun _ hf => hf)
    (fun _ ht => ht)
  intro n s' hstep hn ppRef
  rcases hstep with ⟨_, hnone | hne⟩ | ⟨g', p, pt, r, m, hg', hsrc, hlook, hins, hr, hsame⟩
  · cases hg.symm.trans hnone
  · exact absurd hn hne
  · have hgg : g' = g := Option.some.inj (hg'.symm.trans hg)
    rw [hgg] at hsrc hlook hins
    rcases Kernel.mapPage_inv h hsrc hcan hperm hlook hins with
      ⟨_, ⟨hmem, _⟩ | ⟨_, hmapped⟩⟩
    · rw [hr.1 hn] at hmem
      cases hmem
    · have hlow : ¬(utop ≤ g.srcva / pgSize * pgSize ∨ utop ≤ g.dest.2 * pgSize) := by
        rw [not_or, Nat.not_le, Nat.not_le]
        exact ⟨lt_of_le_of_lt (Nat.div_mul_le_self _ _) hsrc,
          lt_of_le_of_lt (Nat.div_mul_le_self _ _) hcan.low⟩
      rw [Pages.sysPageMap, if_neg hlow, Option.map_some, Pages.pageInsert_maps, hsame.maps,
        hmapped]
      rfl

/-! ## Fork -/

theorem and_setWidth_lt {f : Pte} (w : Pte) (hf : f.toNat < 4096) :
    ((w &&& f).setWidth 32).toNat < 4096 := by
  rw [BitVec.toNat_setWidth, BitVec.toNat_and]
  have hle : w.toNat &&& f.toNat ≤ f.toNat := Nat.and_le_right
  exact lt_of_le_of_lt (Nat.mod_le _ _) (lt_of_le_of_lt hle hf)

/-- `duppage` maps the page in the child first, and then perhaps once more where it is. -/
theorem duppage_cases (w : Pte) :
    ∃ perm calls, duppage w = (.child, perm) :: calls ∧ perm.toNat < 4096 ∧
      (calls = [] ∨ ∃ perm', calls = [(.self, perm')] ∧ perm'.toNat < 4096) := by
  unfold duppage
  split
  · exact ⟨_, _, rfl, and_setWidth_lt w (by decide), .inl rfl⟩
  · split
    · exact ⟨_, _, rfl, by decide, .inr ⟨_, rfl, by decide⟩⟩
    · exact ⟨_, _, rfl, and_setWidth_lt w (by decide), .inl rfl⟩

end Jos.User
