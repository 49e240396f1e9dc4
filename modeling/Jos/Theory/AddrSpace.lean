import Jos.Theory.PageOps
import Jos.Theory.Setup

/-!
# New Address Spaces

`env_setup_vm` builds the three tables every address space has and shares the
kernel's half of the last directory. `load_icode` fills the user's half at boot.

## Main definitions

* `BootTables`: The kernel's tables, from which address spaces are made.

## Theorems

* `Wf.envSetupVm`: A new address space has an empty map.
* `Wf.loadIcode`: The boot code maps an image.
-/

namespace Jos

open Lib.Radix (Tree OkPath entry)
open Function (update update_self update_of_ne)

/-- The kernel's tables are none of the allocator's pages, and the directory
    from which address spaces are made has no entries below `UTOP`. -/
structure BootTables (pool : Nat → Prop) (mem0 : Nat → Nat → Pte) (boot : Nat) : Prop where
  root : ¬pool boot
  pdp : ¬pool (ppn (mem0 boot 0))
  dir : ¬pool (ppn (mem0 (ppn (mem0 boot 0)) 3))
  low : ∀ i, i < 380 → mem0 (ppn (mem0 (ppn (mem0 boot 0)) 3)) i = 0

theorem pgaddr_path {i d n : Nat} (hi : i < 4) (hd : UserIdx [i, 0] d) (hn : n < 512) :
    pgaddr 0 i d n 0 < utop ∧ ptPath (pgaddr 0 i d n 0) = [d, i, 0] ∧
      ptx (pgaddr 0 i d n 0) = n := by
  simp only [UserIdx] at hd
  simp only [pgaddr, utop, ptPath, ptx, pdx, pdpe, pml4, List.cons.injEq, and_true]
  omega

namespace Vm

variable {m' : Vm} {root : Nat} {segs : List (Nat × Nat)}

/-- What each page mapped by the loader keeps, `region_alloc` keeps. -/
theorem regionAlloc_rule {J : Vm → Prop}
    (hstep : ∀ m1 m2 m3 zero p va perm r, J m1 → va < utop → perm = 7 ∨ perm = 6 →
      m1.pageAlloc zero = (some p, m2) → m2.pageInsert root p va perm = some (r, m3) → J m3)
    {va len : Nat} (hva : va + len ≤ utop) {m : Vm} (h : J m)
    (hrun : m.regionAlloc root va len = some m') : J m' := by
  refine Lib.forUpto_inv (fun _ m => J m) ?_ m m' h hrun
  intro i m1 m2 hi h1 hbody
  rcases ha : m1.pageAlloc true with ⟨o, m3⟩
  rw [ha] at hbody
  cases o with
  | none => cases hbody
  | some p =>
    rcases Option.map_eq_some_iff.1 hbody with ⟨⟨r, m4⟩, hins, hm2⟩
    rw [← hm2]
    -- the rounded end of the region is not above `UTOP`
    have hlt : va / pgSize * pgSize + i * pgSize < utop := by
      simp only [pgSize, utop] at hi hva ⊢
      omega
    exact hstep m1 m3 m4 true p _ 7 r h1 hlt (.inl rfl) ha hins

/-- The rule for `load_icode`, by induction on the segments. -/
theorem loadIcode_rule (J : Vm → Prop)
    (hstep : ∀ m1 m2 m3 zero p va perm r, J m1 → va < utop → perm = 7 ∨ perm = 6 →
      m1.pageAlloc zero = (some p, m2) → m2.pageInsert root p va perm = some (r, m3) → J m3) :
    ∀ m m' : Vm, J m → (∀ sg ∈ segs, sg.1 + sg.2 ≤ utop) → m.loadIcode root segs = some m' →
      J m' := by
  induction segs with
  | nil =>
    intro m m' h _ hrun
    rw [Vm.loadIcode] at hrun
    rcases ha : m.pageAlloc false with ⟨o, m1⟩
    rw [ha] at hrun
    cases o with
    | none => cases hrun
    | some p =>
      rcases Option.map_eq_some_iff.1 hrun with ⟨⟨r, m2⟩, hins, hm2⟩
      rw [← hm2]
      exact hstep m m1 m2 false p _ 6 r h (by decide) (.inr rfl) ha hins
  | cons sg segs ih =>
    intro m m' h hsegs hrun
    rcases sg with ⟨va, len⟩
    rcases Option.bind_eq_some_iff.1 hrun with ⟨m1, hreg, hrest⟩
    have h1 := regionAlloc_rule hstep (hsegs _ List.mem_cons_self) h hreg
    exact ih m1 m' h1 (fun sg hsg => hsegs sg (List.mem_cons_of_mem _ hsg)) hrest

namespace Wf

variable {pool : Nat → Prop} {mem0 : Nat → Nat → Pte} {roots : Nat → Option Nat} {kind : Nat → Kind}
  {m : Vm} {e p p3 boot : Nat}

/-! ## Creation -/

section

variable (h : m.Wf pool mem0 roots kind none)

include h

/-- Three blank pages become the root, the directory pointers and the fourth
    directory of a new address space. -/
theorem connect {p2 : Nat} (he : e < nenv) (hroot : roots e = none) (hp : kind p = .lost)
    (hp2 : kind p2 = .lost) (hp3 : kind p3 = .lost) (h12 : p ≠ p2) (h13 : p ≠ p3) (h23 : p2 ≠ p3)
    (hz : ∀ i, m.mem p i = 0) (hz2 : ∀ i, m.mem p2 i = 0) (hz3 : ∀ i, m.mem p3 i = 0) :
    (m.connect p p2 p3).Wf pool mem0 (update roots e (some p))
      (update (update (update kind p (.table e [])) p2 (.table e [0])) p3
        (.table e [3, 0])) none ∧
      (m.connect p p2 p3).leafMap (update roots e (some p)) = m.leafMap roots := by
  have hr := h.ppRef_eq_zero (.inr hp)
  have hr2 := h.ppRef_eq_zero (.inr hp2)
  have hr3 := h.ppRef_eq_zero (.inr hp3)
  have h1 := addRoot p e (h.hold p (by rw [hr]; decide)) he hroot hp (fun i _ => hz i)
  have h2 := h1.hold p2 (by
    rw [setRef_ppRef, update_of_ne h12.symm, hr2]; decide)
  have hk2 : update kind p (Kind.table e []) p2 = .lost := by
    rw [update_of_ne h12.symm, hp2]
  have h3 := attach [] h2 (by rw [update_self]) (by simp) rfl (hz 0) hk2 hz2
  have h4 := h3.hold p3 (by
    rw [setEntry_ppRef, setRef_ppRef, update_of_ne h23.symm, setRef_ppRef,
      update_of_ne h13.symm, hr3]
    decide)
  have hk3 : update (update kind p (Kind.table e [])) p2 (.table e [0]) p3 =
      .lost := by
    rw [update_of_ne h23.symm, update_of_ne h13.symm, hp3]
  -- the directory pointers and the directory are still blank
  have hslot : ∀ q i, q ≠ p →
      Lib.Radix.setSlot m.mem p 0 (page2pa p2 ||| 7) q i = m.mem q i :=
    fun q i hq => Lib.Radix.setSlot_of_ne _ _ (.inl hq)
  have h5 := attach [0] h4 (by rw [update_self]) (by simp)
    (by simp [UserIdx]) ((hslot p2 3 h12.symm).trans (hz2 3)) hk3
    (fun i => (hslot p3 i h13.symm).trans (hz3 i))
  refine ⟨h5, leafMap_congr ?_⟩
  intro e' π' hok hlen
  have hlong : ∀ x : Nat × List Nat, x.2.length < 4 → (e', π') ≠ x := by
    intro x hx hc
    have hlt : π'.length < 4 := by rw [← hc] at hx; exact hx
    omega
  have h5e := h4.entry_attach [0] (by rw [update_self]) (by simp)
    (by simp [UserIdx]) ((hslot p2 3 h12.symm).trans (hz2 3)) hk3
    (fun i => (hslot p3 i h13.symm).trans (hz3 i)) e' π' hok (by omega)
  have h3e := h2.entry_attach [] (by rw [update_self]) (by simp) rfl (hz 0) hk2
    hz2 e' π' hok (by omega)
  have h1e := h.tree.entry_addRoot e p hroot (by simp [labels, hp, Kind.label]) (fun i _ => hz i)
    e' π' hok (by omega)
  rw [update_of_ne (hlong _ (by simp))] at h5e h3e
  exact h5e.trans (h3e.trans h1e)

/-- The last part of `env_setup_vm`: the kernel's half of the fourth directory
    and the self-map are filled in, outside of what belongs to the tree. -/
theorem shareKernel (hb : BootTables pool mem0 boot) (hp : kind p = .table e [])
    (hp3 : kind p3 = .table e [3, 0]) (hz : ∀ i, i < 380 → m.mem p3 i = 0) {kpdp kdir : Nat}
    (hkpdp : kpdp = ppn (m.mem boot 0)) (hdir : kdir = ppn (m.mem kpdp 3))
    (hout : m' = (m.copyEntries p3 kdir 0).setEntry p 2 (page2pa p ||| 5)) :
    m'.Wf pool mem0 roots kind none ∧ Kept kind kind m m' ∧
      m'.leafMap roots = m.leafMap roots := by
  rw [hkpdp, h.keep boot 0 hb.root, h.keep _ 3 hb.pdp] at hdir
  have hnot : p ≠ p3 := by
    intro hc
    rw [hc, hp3] at hp
    cases hp
  -- what is copied below `UTOP` is zero
  have hmem : ∀ q i, kind q = .kernel ∨ (∃ e π, kind q = .table e π ∧ UserIdx π i) →
      m'.mem q i = m.mem q i := by
    intro q i hq
    rw [hout, setEntry_mem]
    by_cases hs : q = p ∧ i = 2
    · exfalso
      rw [hs.1, hs.2, hp] at hq
      rcases hq with hq | ⟨e', π', hq, hidx⟩
      · cases hq
      · cases hq
        exact absurd hidx (by simp [UserIdx])
    · rw [not_and_or] at hs
      rw [Lib.Radix.setSlot_of_ne _ _ hs]
      simp only [copyEntries]
      by_cases hq3 : q = p3 ∧ 0 ≤ i ∧ i < 512
      · rw [if_pos hq3, hq3.1]
        rw [hq3.1, hp3] at hq
        rcases hq with hq | ⟨e', π', hq, hidx⟩
        · cases hq
        · cases hq
          have hlt : i < 380 := hidx.2 rfl
          rw [hdir, h.keep _ i hb.dir, hb.low i hlt, hz i hlt]
      · rw [if_neg hq3]
  have hm' : m' = { m with mem := m'.mem } := by
    rw [hout]
    rfl
  have hwf := h.scribble hmem
  rw [← hm'] at hwf
  refine ⟨hwf, ⟨by rw [hm'], fun _ _ => rfl, fun _ _ => by rw [hm'], ?_⟩, ?_⟩
  · intro q hq i
    have hqp : q ≠ p := by
      intro hc
      rw [hc, hp] at hq
      simp at hq
    have hqp3 : q ≠ p3 := by
      intro hc
      rw [hc, hp3] at hq
      simp at hq
    rw [hout, setEntry_mem, Lib.Radix.setSlot_of_ne _ _ (.inl hqp)]
    simp only [copyEntries]
    rw [if_neg (fun hc => hqp3 hc.1)]
  · refine leafMap_congr ?_
    intro e' π' hok hlen
    exact h.entry_scribble hmem e' π' hok (by omega)

/-- Pages that are taken are lost. -/
theorem takes {ps : List Nat} {m1 : Vm} (ht : Takes m ps m1) :
    ∃ kind1, m1.Wf pool mem0 roots kind1 none ∧ Kept kind kind1 m m1 ∧
      m1.leafMap roots = m.leafMap roots ∧ TablesStay kind kind1 ∧ ps.Nodup ∧
      ∀ p ∈ ps, kind1 p = .lost := by
  induction ht with
  | none =>
    exact ⟨kind, h, Kept.refl kind m, rfl, TablesStay.refl kind, List.nodup_nil,
      fun _ hp => absurd hp List.not_mem_nil⟩
  | @next ps p m1 m2 _ halloc ih =>
    rcases ih with ⟨kind1, h1, hkept1, hmap1, hst1, hnd, hps⟩
    rcases h1.pageAlloc halloc with ⟨hfree, h2, hkept2, hmap2, -⟩
    -- a page that was lost before is not free now
    have hnot : p ∉ ps := by
      intro hp
      rw [hps p hp] at hfree
      cases hfree
    refine ⟨_, h2, hkept1.trans hkept2, hmap2.trans hmap1,
      hst1.trans (TablesStay.update .lost (by rw [hfree]; simp)),
      List.nodup_cons.2 ⟨hnot, hnd⟩, fun q hq => ?_⟩
    rcases List.mem_cons.1 hq with rfl | hq
    · exact update_self _ _ _
    · have hqp : q ≠ p := fun hc => hnot (hc ▸ hq)
      rw [update_of_ne hqp]
      exact hps q hq

/-- `env_setup_vm`: on success the environment `e` has an address space with an
    empty map. On a failure the pages taken so far are lost. -/
theorem envSetupVm (hb : BootTables pool mem0 boot) (he : e < nenv) (hroot : roots e = none)
    {o : Option Nat} (hrun : m.envSetupVm boot = some (o, m')) :
    ∃ kind', m'.Wf pool mem0 (update roots e o) kind' none ∧ Kept kind kind' m m' ∧
      m'.leafMap (update roots e o) = m.leafMap roots ∧ TablesStay kind kind' ∧
      (o ≠ none → ∃ q, kind' q = .table e [0]) := by
  rcases envSetupVm_cases hrun with ⟨rfl, -, ps, -, htakes⟩ |
    ⟨p, p2, p3, m3, kpdp, kdir, rfl, htakes, hkpdp, hkdir, hm'⟩
  · rcases h.takes htakes with ⟨kind1, h1, hkept, hmap, hst, -⟩
    have hnone : update roots e none = roots := by
      rw [← hroot, Function.update_eq_self]
    rw [hnone]
    exact ⟨kind1, h1, hkept, hmap, hst, fun hc => absurd rfl hc⟩
  rcases h.takes htakes with ⟨kind3, h3, hkept3, hmap3, hst3, hnd, hps⟩
  rcases htakes.facts with ⟨hlist, -, -, -, hzero⟩
  have hfree : ∀ q ∈ [p3, p2, p], kind q = .free := by
    intro q hq
    refine (h.free q).1 ?_
    rw [hlist]
    exact List.mem_append_left _ (List.mem_reverse.2 hq)
  simp only [List.nodup_cons, List.mem_cons, List.not_mem_nil, or_false, not_or] at hnd
  rcases hnd with ⟨⟨h32, h31⟩, h21, -⟩
  have hp := hps p (by simp)
  have hp2 := hps p2 (by simp)
  have hp3 := hps p3 (by simp)
  have hcon := h3.connect he hroot hp hp2 hp3 (Ne.symm h21) (Ne.symm h31)
    (Ne.symm h32) (hzero p (by simp)) (hzero p2 (by simp)) (hzero p3 (by simp))
  obtain ⟨kind', hkind'⟩ : ∃ kind', kind' = update (update
      (update kind3 p (.table e [])) p2 (.table e [0])) p3 (.table e [3, 0]) := ⟨_, rfl⟩
  have hat : kind' p = .table e [] ∧ kind' p2 = .table e [0] ∧ kind' p3 = .table e [3, 0] := by
    rw [hkind', update_self, update_of_ne (Ne.symm h32), update_self,
      update_of_ne (Ne.symm h31), update_of_ne (Ne.symm h21), update_self]
    exact ⟨rfl, rfl, rfl⟩
  rw [← hkind'] at hcon
  rcases hcon.1.shareKernel hb hat.1 hat.2.2 (fun i _ => by
    rw [(m3.connect_other p3 h31 h32).1 i, hzero p3 (by simp)]) hkpdp hkdir hm' with
    ⟨hwf, hkept, hmap⟩
  -- pages in use are none of the three
  have hq : ∀ q, kind q = .user ∨ kind q = .lost → q ≠ p ∧ q ≠ p2 ∧ q ≠ p3 := by
    intro q hq
    refine ⟨?_, ?_, ?_⟩ <;> intro hc <;> rw [hc] at hq
    · exact absurd hq (by simp [hfree p])
    · exact absurd hq (by simp [hfree p2])
    · exact absurd hq (by simp [hfree p3])
  have huse : ∀ q, kind q = .user ∨ kind q = .lost → kind' q = kind q := by
    intro q hu
    rcases hq q hu with ⟨hqp, hqp2, hqp3⟩
    rw [hkind', update_of_ne hqp3, update_of_ne hqp2, update_of_ne hqp,
      hkept3.use q hu]
  have hst : TablesStay kind kind' := by
    rw [hkind']
    refine ((hst3.trans (TablesStay.update _ ?_)).trans (TablesStay.update _ ?_)).trans
      (TablesStay.update _ ?_)
    · rw [hp]
      simp
    · rw [update_of_ne h21, hp2]
      simp
    · rw [update_of_ne h32, update_of_ne h31, hp3]
      simp
  refine ⟨kind', hwf, ⟨hkept.npages.trans hkept3.npages, huse, fun q hu => ?_, fun q hu i => ?_⟩,
    hmap.trans (hcon.2.trans hmap3), hst, fun _ => ⟨p2, hat.2.1⟩⟩
  · rcases hq q hu with ⟨hqp, hqp2, hqp3⟩
    rw [hkept.ppRef q (by rwa [huse q hu]),
      (m3.connect_other p3 hqp hqp2).2 hqp3, hkept3.ppRef q hu]
  · rcases hq q hu with ⟨hqp, hqp2, -⟩
    rw [hkept.mem q (by rwa [huse q hu]) i,
      (m3.connect_other p3 hqp hqp2).1 i, hkept3.mem q hu i]

/-! ## Loading -/

/-- `page_alloc` followed by `page_insert`: a page is mapped with the given flags,
    or lost if there is no memory for a table. -/
theorem allocInsert (P : Pte → Prop) {e root va : Nat} (zero : Bool) (perm : BitVec 32)
    (hroot : roots e = some root) (hva : va < utop) (hperm : perm.toNat < 4096)
    (hP : ∀ x, P (m.leafMap roots x)) (hnew : ∀ pp, P (insertedEntry pp perm)) (p : Nat) (m1 : Vm)
    (halloc : m.pageAlloc zero = (some p, m1)) (r : Int) (m' : Vm)
    (hrun : m1.pageInsert root p va perm = some (r, m')) :
    ∃ kind', m'.Wf pool mem0 roots kind' none ∧ TablesStay kind kind' ∧
      (∀ x, P (m'.leafMap roots x)) ∧ (r ≠ 0 → kind' p = .lost) := by
  rcases h.pageAlloc halloc with ⟨hfree, h1, _, hmap1, _, _, _⟩
  have hlost : update kind p Kind.lost p = .lost := by rw [update_self]
  have href := h1.ppRef_eq_zero (.inr hlost)
  rcases h1.pageInsert hroot hva (.inr hlost) hperm
    (.inl (by rw [href]; decide)) hrun with ⟨kind', h', _, _, hstay, hres⟩
  refine ⟨kind', h', (TablesStay.update .lost (by rw [hfree]; simp)).trans hstay, ?_, ?_⟩
  · intro x
    rcases hres with ⟨_, hmap, _⟩ | ⟨_, hmap⟩
    · rw [hmap, hmap1]
      exact hP x
    · rw [hmap, hmap1]
      by_cases hx : x = (e, va / pgSize)
      · rw [hx, update_self]
        exact hnew p
      · rw [update_of_ne hx]
        exact hP x
  · intro hr
    rcases hres with ⟨_, _, hk⟩ | ⟨hr0, _⟩
    · rw [hk, hlost]
    · exact absurd hr0 hr

/-- `load_icode` of an image below `UTOP`. -/
theorem loadIcode {P : Pte → Prop} (hroot : roots e = some root)
    (hnew : ∀ pp, P (insertedEntry pp 7) ∧ P (insertedEntry pp 6)) (hP : ∀ x, P (m.leafMap roots x))
    (hsegs : ∀ sg ∈ segs, sg.1 + sg.2 ≤ utop) (hrun : m.loadIcode root segs = some m') :
    ∃ kind', m'.Wf pool mem0 roots kind' none ∧ TablesStay kind kind' ∧
      ∀ x, P (m'.leafMap roots x) := by
  refine loadIcode_rule (fun m => ∃ kind', m.Wf pool mem0 roots kind' none ∧
    TablesStay kind kind' ∧ ∀ x, P (m.leafMap roots x)) ?_ m m'
    ⟨kind, h, TablesStay.refl kind, hP⟩ hsegs hrun
  intro m1 m2 m3 zero p va perm r hinv hva hperm halloc hins
  rcases hinv with ⟨kind1, h1, hstay1, hP1⟩
  have hflags : perm.toNat < 4096 ∧ ∀ pp, P (insertedEntry pp perm) := by
    rcases hperm with rfl | rfl
    · exact ⟨by decide, fun pp => (hnew pp).1⟩
    · exact ⟨by decide, fun pp => (hnew pp).2⟩
  rcases h1.allocInsert P zero perm hroot hva hflags.1 hP1 hflags.2 p m2 halloc r m3 hins
    with ⟨kind3, h3, hstay3, hP3, _⟩
  exact ⟨kind3, h3, hstay1.trans hstay3, hP3⟩

end

end Wf
end Vm
end Jos
