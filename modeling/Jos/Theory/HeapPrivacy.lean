import Jos.Theory.Fork
import Jos.Theory.Malloc

/-!
# The Heap across Fork and Spawn

`malloc` marks the pages of a large block with `PTE_CONTINUED`, which is the same bit as
`PTE_SHARE`: `fork` and `copy_shared_pages` take these pages for shared ones. A program
that only asks for blocks that fit a page with their count has no such pages, and keeps
its heap to itself.

The pages of the heap are put into the memory of all programs, of which the rest stays
the same. What `sys_page_alloc` finds for `malloc` is mapped nowhere at that time.

## Main definitions

* `withHeap`: The memory of all programs with the heap of one.
* `smallCond`: The requests for blocks of at most 4092 bytes.
* `Small`: What holds along such a run.
* `Secluded`: The heap pages of the given programs are secure and not shared.

## Theorems

* `malloc_small`: What a call can do to the entries.
* `Small.step`: The invariant.
* `heap_private`: Neither `fork` nor `spawn` gives the heap away.
* `heap_shared`: They do for a block of 5000 bytes.
-/

namespace Jos.Malloc

open Heap (allocLoop pagesFor roundup)
open Option (map_eq_some_iff some.inj some.injEq)
open User Lib.Alias
open Function (update update_self update_of_ne)
open Cow (Ram cell view writable shared Fresh Guarded cell_of_present present_of_writable cell_zero
  copySharedFrom forkCond forkStart forkStep twoPages twoPages_fresh writeCond writeStep)

variable {v n p e pp c : Nat} {h h' : Heap} {m : Ram} {vpt : Nat → Pte} {s : Session} {A : Set Nat}
  {maps : Nat × Nat → Pte}

/-- The pages of the heap. -/
def InHeap (v : Nat) : Prop := mbegin / pgSize ≤ v ∧ v < mend / pgSize

instance (v : Nat) : Decidable (InHeap v) :=
  inferInstanceAs (Decidable (mbegin / pgSize ≤ v ∧ v < mend / pgSize))

/-- The memory of all programs, where `e` has these entries for its heap. -/
def withHeap (m : Ram) (e : Nat) (vpt : Nat → Pte) : Ram where
  pages :=
    { maps := fun y => if y.1 = e ∧ InHeap y.2 then vpt y.2 else m.pages.maps y
      ppRef := m.pages.ppRef }
  bytes := m.bytes

theorem withHeap_in (m : Ram) (e : Nat) (vpt : Nat → Pte) (hv : InHeap v) :
    (withHeap m e vpt).entry (e, v) = vpt v := if_pos ⟨rfl, hv⟩

theorem withHeap_out (m : Ram) {e : Nat} (vpt : Nat → Pte) {y : Nat × Nat}
    (hy : ¬(y.1 = e ∧ InHeap y.2)) : (withHeap m e vpt).entry y = m.entry y := if_neg hy

/-! ## What the calls do to the entries -/

/-- Entries are kept or cleared. -/
def Shrinks (vpt vpt' : Nat → Pte) : Prop := ∀ v, vpt' v = vpt v ∨ vpt' v = 0

theorem Shrinks.refl (vpt : Nat → Pte) : Shrinks vpt vpt := fun _ => .inl rfl

/-- The heap when `malloc` asks for pages: the page that was being filled may be gone. -/
def Heap.asking (h : Heap) : Heap :=
  if h.mptr % pgSize = 0 then h else (h.free h.mptr).getD h

theorem asking_shrinks (h : Heap) : Shrinks h.vpt h.asking.vpt := by
  rw [Heap.asking]
  split
  · exact Shrinks.refl _
  · cases hf : h.free h.mptr with
    | none => exact Shrinks.refl _
    | some h' => exact (fewer_free hf).2

/-- A place of the heap that can be filled further. -/
def PtrOk (mptr : Nat) : Prop := mbegin ≤ mptr ∧ (mptr % pgSize ≠ 0 → mptr < mend)

/-- What a call of `malloc` leaves: pages may be gone, or one is new. -/
structure Grabbed (vpt : Nat → Pte) (h' : Heap) (n p : Nat) (alloc : Nat → Option Nat) :
    Prop where
  vpt : Shrinks vpt h'.vpt ∨
    ∃ v pp, alloc 0 = some pp ∧ h'.vpt = update vpt v (Vm.insertedEntry pp 7)
  mptr : PtrOk h'.mptr
  block : p = 0 ∨ mbegin ≤ p ∧ p + n ≤ mend

theorem pagesFor_one (hn : n ≤ 4092) : pagesFor (roundup n + 4) = 1 := by
  unfold pagesFor roundup
  simp only [pgSize]
  omega

theorem grab_small (alloc : Nat → Option Nat) (hn : n ≤ 4092) (hlo : mbegin ≤ h.mptr)
    (hal : h.mptr % pgSize = 0) (hlt : h.mptr < mend) :
    Grabbed h.vpt (h.grab (roundup n) alloc).2 n (h.grab (roundup n) alloc).1 alloc := by
  have hperm : ¬(0 + 1) * pgSize < roundup n + 4 := by
    unfold roundup
    simp only [pgSize]
    omega
  -- there is room for the block on the one page
  have hroom : h.mptr + roundup n < mend ∧ n ≤ roundup n := by
    unfold roundup
    simp only [pgSize, mend] at hal hlt ⊢
    omega
  cases halloc : alloc 0 with
  | none =>
    have hloop : h.allocLoop (h.mptr / pgSize) (roundup n) alloc 0
        (pagesFor (roundup n + 4)) = (h, some 0) := by
      rw [pagesFor_one hn, allocLoop, halloc]
    rw [grab_failed hloop]
    exact ⟨.inl (fewer_sysPageUnmap h _).2, ⟨hlo, fun hc => absurd hal hc⟩, .inl rfl⟩
  | some pp =>
    have hloop : h.allocLoop (h.mptr / pgSize) (roundup n) alloc 0
        (pagesFor (roundup n + 4)) =
        (h.sysPageAlloc (h.mptr / pgSize + 0) pp 7, none) := by
      rw [pagesFor_one hn, allocLoop, halloc]
      simp only [if_neg hperm, allocLoop]
    rw [grab_done hloop]
    refine ⟨.inr ⟨h.mptr / pgSize + 0, pp, halloc, rfl⟩, ⟨?_, fun _ => hroom.1⟩, .inr ⟨hlo, ?_⟩⟩
    · exact Nat.le_trans hlo (Nat.le_add_right _ _)
    · omega

theorem fresh_small {alloc : Nat → Option Nat} (hn : n ≤ 4092) (hlo : mbegin ≤ h.mptr)
    (hal : h.mptr % pgSize = 0) (hf : h.fresh (roundup n) alloc = some (p, h')) :
    Grabbed h.vpt h' n p alloc := by
  rw [Heap.fresh, map_eq_some_iff] at hf
  rcases hf with ⟨⟨found, q⟩, hs, hr⟩
  rcases search_spec 0 h.mptr found q hs hlo hal with ⟨hqlo, hqal, hfree⟩
  cases found with
  | false =>
    rw [if_neg Bool.false_ne_true] at hr
    cases hr
    exact ⟨.inl (Shrinks.refl _), ⟨hqlo, fun hc => absurd hqal.1 hc⟩, .inl rfl⟩
  | true =>
    rw [if_pos rfl] at hr
    have hlt := (isfree_spec (hfree rfl) 0 (by rw [pagesFor_one hn]; omega)).1
    rw [Nat.zero_mul, Nat.add_zero] at hlt
    have hgrab := grab_small (h := { h with mptr := q }) alloc hn hqlo hqal.1 hlt
    rwa [hr] at hgrab

/-- A call of `malloc` for a small block, as it is after pages may have gone. -/
theorem malloc_small {alloc : Nat → Option Nat} (hn : n ≤ 4092) (hptr : h.mptr = 0 ∨ PtrOk h.mptr)
    (hm : h.malloc n alloc = some (p, h')) :
    (h'.vpt = h.vpt ∧ PtrOk h'.mptr ∧ (p = 0 ∨ mbegin ≤ p ∧ p + n ≤ mend)) ∨
      Grabbed h.asking.vpt h' n p alloc := by
  have hok : PtrOk h.begun.mptr := by
    unfold Heap.begun
    by_cases hz : h.mptr = 0
    · rw [if_pos hz]
      exact ⟨le_rfl, fun hc => absurd (by decide : mbegin % pgSize = 0) hc⟩
    · rw [if_neg hz]
      exact hptr.resolve_left hz
  rcases malloc_call h n alloc with
    ⟨-, hres⟩ | ⟨-, ⟨hopen, hfit, hres⟩ | ⟨hmis, hres⟩ | ⟨hal, hres⟩⟩
  · rw [hres] at hm
    cases hm
    exact .inl ⟨begun_vpt h, hok, .inl rfl⟩
  · -- the block goes to the page that is being filled
    rw [hres, some.injEq, Prod.mk.injEq] at hm
    rw [begun_eq hopen] at hok
    rw [← hm.1, ← hm.2]
    have hlt := hok.2 hopen
    have hend : h.mptr + roundup n < mend ∧ n ≤ roundup n := by
      unfold roundup at hfit ⊢
      simp only [pgSize, mend] at hfit hlt hopen ⊢
      omega
    refine .inl ⟨rfl, ⟨?_, fun _ => hend.1⟩, .inr ⟨hok.1, ?_⟩⟩
    · exact Nat.le_trans hok.1 (Nat.le_add_right _ _)
    · omega
  · rw [hres, Option.bind_eq_some_iff] at hm
    rcases hm with ⟨h1, hfree, hfresh⟩
    rw [begun_eq hmis.1] at hok
    have hlo := hok.1
    have hasking : h.asking = h1 := by
      rw [Heap.asking, if_neg hmis.1, hfree]
      rfl
    have hmptr := (fewer_free hfree).1
    rw [hasking]
    refine .inr (fresh_small (h := { h1 with mptr := (h1.mptr + pgSize) / pgSize * pgSize }) hn ?_
      (Nat.mul_mod_left _ _) hfresh)
    simp only [mbegin, pgSize, hmptr] at hlo ⊢
    omega
  · rw [hres] at hm
    rw [Heap.asking, if_pos hal, ← begun_vpt h]
    exact .inr (fresh_small hn hok.1 ((begun_mod h).trans hal) hm)

/-! ## Programs -/

/-- The requests for small blocks, with pages that are mapped nowhere. -/
def smallCond (m : Ram) (e : Nat) (s : Session) : Event → Prop
  | .malloc n alloc =>
    n ≤ 4092 ∧ ∀ pp, alloc 0 = some pp → Fresh (withHeap m e s.heap.asking.vpt) pp
  | .free _ _ => True
  | .write _ _ => True

/-- The pages of the heap are not shared, and nobody else has them. -/
structure Own (m : Ram) (e : Nat) (vpt : Nat → Pte) : Prop where
  plain : ∀ v, InHeap v → ∀ d, cell (vpt v) = some d → d.share = false
  secure : ∀ v, InHeap v → Secure (view (withHeap m e vpt).pages.maps) (e, v)

theorem Own.shrinks {vpt' : Nat → Pte} (h : Own m e vpt) (hs : Shrinks vpt vpt') :
    Own m e vpt' := by
  have hcell : ∀ v d, cell (vpt' v) = some d → cell (vpt v) = some d := by
    intro v d hd
    rcases hs v with hs | hs
    · rwa [hs] at hd
    · rw [hs, cell_zero] at hd
      cases hd
  refine ⟨fun v hv d hd => h.plain v hv d (hcell v d hd), ?_⟩
  intro v hv
  refine (h.secure v hv).mono ?_
  intro u d hd
  rw [Ram.view_eq] at hd ⊢
  by_cases hu : u.1 = e ∧ InHeap u.2
  · have hue : u = (e, u.2) := Prod.ext hu.1 rfl
    rw [hue, withHeap_in m e _ hu.2] at hd ⊢
    exact hcell u.2 d hd
  · rw [withHeap_out m _ hu] at hd ⊢
    exact hd

theorem Own.alloc (h : Own m e vpt) (hpp : Fresh (withHeap m e vpt) pp) :
    Own m e (update vpt v (Vm.insertedEntry pp 7)) := by
  by_cases hv : InHeap v
  · have hview : view (withHeap m e (update vpt v (Vm.insertedEntry pp 7))).pages.maps =
        update (view (withHeap m e vpt).pages.maps) (e, v) (some ⟨pp, true, false⟩) := by
      funext u
      rw [Ram.view_eq]
      by_cases hin : u.1 = e ∧ InHeap u.2
      · have hue : u = (e, u.2) := Prod.ext hin.1 rfl
        by_cases huv : u.2 = v
        · rw [hue, huv, update_self, withHeap_in m e _ hv, update_self,
            Cow.cell_ownEntry hpp.lt]
        · have hne : (e, u.2) ≠ (e, v) := fun hc => huv (congrArg Prod.snd hc)
          rw [hue, update_of_ne hne, withHeap_in m e _ hin.2, update_of_ne huv,
            Ram.view_eq, withHeap_in m e _ hin.2]
      · have hne : u ≠ (e, v) := by
          intro hc
          rw [hc] at hin
          exact hin ⟨rfl, hv⟩
        rw [update_of_ne hne, withHeap_out m _ hin, Ram.view_eq, withHeap_out m _ hin]
    refine ⟨?_, ?_⟩
    · intro w hw d hd
      by_cases hwv : w = v
      · rw [hwv, update_self, Cow.cell_ownEntry hpp.lt, some.injEq] at hd
        rw [← hd]
      · rw [update_of_ne hwv] at hd
        exact h.plain w hw d hd
    · intro w hw
      rw [hview]
      exact Secure.fresh (fun _ => h.secure w hw) hpp.unused
  · -- the heap does not have this page
    have hsame : withHeap m e (update vpt v (Vm.insertedEntry pp 7)) =
        withHeap m e vpt := by
      have hmaps : ∀ y : Nat × Nat, (if y.1 = e ∧ InHeap y.2 then
          update vpt v (Vm.insertedEntry pp 7) y.2 else m.pages.maps y) =
          if y.1 = e ∧ InHeap y.2 then vpt y.2 else m.pages.maps y := by
        intro y
        by_cases hy : y.1 = e ∧ InHeap y.2
        · have hne : y.2 ≠ v := fun hc => hv (hc ▸ hy.2)
          rw [if_pos hy, if_pos hy, update_of_ne hne]
        · rw [if_neg hy, if_neg hy]
      unfold withHeap
      simp only [hmaps]
    refine ⟨?_, ?_⟩
    · intro w hw d hd
      have hne : w ≠ v := fun hc => hv (hc ▸ hw)
      rw [update_of_ne hne] at hd
      exact h.plain w hw d hd
    · rw [hsame]
      exact h.secure

/-- The heap of a program without large blocks. -/
structure Small (m : Ram) (e : Nat) (s : Session) : Prop where
  mptr : s.heap.mptr = 0 ∨ PtrOk s.heap.mptr
  blocks : ∀ b ∈ s.live, mbegin ≤ b.1 ∧ b.1 + b.2 ≤ mend
  own : Own m e s.heap.vpt

theorem Small.malloc {alloc : Nat → Option Nat} {s' : Session} (h : Small m e s)
    (hcond : smallCond m e s (.malloc n alloc)) (hstep : step s (.malloc n alloc) = some s') :
    Small m e s' := by
  rcases step_malloc hstep with ⟨p, heap, hm, hs'⟩
  have hblocks : (p = 0 ∨ mbegin ≤ p ∧ p + n ≤ mend) →
      ∀ b ∈ s'.live, mbegin ≤ b.1 ∧ b.1 + b.2 ≤ mend := by
    intro hp b hb
    rw [hs'] at hb
    by_cases hp0 : p = 0
    · rw [if_pos hp0] at hb
      exact h.blocks b hb
    · rw [if_neg hp0] at hb
      rcases List.mem_cons.1 hb with hb | hb
      · rw [hb]
        exact hp.resolve_left hp0
      · exact h.blocks b hb
  have hheap : s'.heap = heap := by rw [hs']
  rcases malloc_small hcond.1 h.mptr hm with ⟨hvpt, hptr, hp⟩ | hgrab
  · refine ⟨hheap ▸ .inr hptr, hblocks hp, ?_⟩
    rw [hheap, hvpt]
    exact h.own
  · refine ⟨hheap ▸ .inr hgrab.mptr, hblocks hgrab.block, ?_⟩
    -- some pages may have gone before the new one came
    have hasking := h.own.shrinks (asking_shrinks s.heap)
    rw [hheap]
    rcases hgrab.vpt with hs | ⟨v, pp, halloc, hnew⟩
    · exact hasking.shrinks hs
    · rw [hnew]
      exact hasking.alloc (hcond.2 pp halloc)

theorem Small.step (s : Session) (ev : Event) (s' : Session) (h : Small m e s)
    (hcond : smallCond m e s ev) (hstep : step s ev = some s') :
    Small m e s' := by
  cases ev with
  | malloc n alloc => exact h.malloc hcond hstep
  | free p n =>
    rcases step_freed hstep with ⟨-, heap, hf, hs⟩
    rcases fewer_free hf with ⟨hmptr, hshrinks⟩
    rw [hs]
    refine ⟨hmptr ▸ h.mptr, ?_, h.own.shrinks hshrinks⟩
    exact fun b hb => h.blocks b (List.mem_of_mem_erase hb)
  | write a x =>
    rw [(step_written hstep).2]
    exact ⟨h.mptr, h.blocks, h.own⟩

theorem Start.small (h : Start s) (m : Ram) (e : Nat) : Small m e s := by
  have hzero : ∀ v, InHeap v → cell (s.heap.vpt v) = none := by
    intro v hv
    rw [h.empty v hv.1 hv.2, cell_zero]
  refine ⟨.inl h.mptr, ?_, ?_, ?_⟩
  · rw [h.live]
    exact fun b hb => absurd hb List.not_mem_nil
  · intro v hv d hd
    rw [hzero v hv] at hd
    cases hd
  · intro v hv
    refine secure_of_none ?_
    rw [Ram.view_eq, withHeap_in m e _ hv, hzero v hv]

/-! ## Heap pages in the memory of all programs -/

/-- The heap pages of the given programs are secure, and not shared. -/
structure Secluded (A : Set Nat) (maps : Nat × Nat → Pte) : Prop where
  secure : ∀ z : Nat × Nat, z.1 ∈ A → InHeap z.2 → Secure (view maps) z
  plain : ∀ z : Nat × Nat, z.1 ∈ A → InHeap z.2 → ∀ d, view maps z = some d → d.share = false

theorem Secluded.write {A : Set Nat} {m m' : Ram} {x : Nat × Nat} {off pp : Nat} {b : BitVec 8}
    (h : Secluded A m.pages.maps) (hw : m.write x off b pp = some m')
    (hfresh : Cow.freshIf m x pp) : Secluded A m'.pages.maps := by
  refine ⟨fun z hz hv => Cow.secure_write hw hfresh (h.secure z hz hv), ?_⟩
  intro z hz hv d hd
  rw [Ram.view_eq] at hd
  by_cases hzx : z = x
  · rw [hzx] at hd hz hv
    rcases Cow.cell_write hw hfresh with ⟨hentry, _⟩ | ⟨hcell, _, _, _⟩
    · rw [hentry] at hd
      exact h.plain x hz hv d hd
    · rw [hcell, some.injEq] at hd
      rw [← hd]
  · have hlow : z.2 ≠ Ram.pftempPage := by
      have hlo := hv.1
      simp only [mbegin, pgSize, Ram.pftempPage] at hlo ⊢
      omega
    rw [Cow.entry_write hw hfresh hzx fun _ => hlow] at hd
    exact h.plain z hz hv d hd

/-- A page that is duplicated or shared with another program. -/
theorem Secluded.protect {A : Set Nat} {maps maps' : Nat × Nat → Pte} {e c v : Nat} {k : Cell Nat}
    (h : Secluded A maps) (he : e ∈ A) (hk : view maps (e, v) = some k)
    (hview : view maps' = protectBoth (view maps) (e, v) (c, v) k) : Secluded A maps' := by
  refine ⟨?_, ?_⟩
  · intro z hz hv
    rw [hview]
    refine Secure.protect hk ?_ fun _ _ => h.secure z hz hv
    intro hzv
    have hz2 : z.2 = v := by
      rcases hzv with hzv | hzv
      · rw [hzv]
      · rw [hzv]
    exact h.secure (e, v) he (hz2 ▸ hv)
  · intro z hz hv d hd
    rw [hview] at hd
    rcases protectBoth_or hd with ⟨hd, hzv⟩ | ⟨_, _, hd⟩
    · have hz2 : z.2 = v := by
        rcases hzv with hzv | hzv
        · rw [hzv]
        · rw [hzv]
      rw [hd]
      exact h.plain (e, v) he (hz2 ▸ hv) k hk
    · exact h.plain z hz hv d hd

/-! ## Fork -/

/-- The loop of `fork` when it has come to a page: the heap pages of both are secluded. -/
structure ForkSecluded (e c : Nat) (maps : Nat × Nat → Pte) : Prop where
  guarded : Guarded ∅ e c maps
  secluded : Secluded {a | a = e ∨ a = c} maps

theorem ForkSecluded.step (hne : e ≠ c) (f : Cow.Fork) (ev : Cow.ForkEvent) (f' : Cow.Fork)
    (h : ForkSecluded e c f.ram.pages.maps) (hcond : forkCond e f ev)
    (hstep : forkStep e c f ev = some f') : ForkSecluded e c f'.ram.pages.maps := by
  cases ev with
  | page =>
    rw [forkStep] at hstep
    rcases Option.ite_none_right_eq_some.1 hstep with ⟨hv, hstep⟩
    rcases map_eq_some_iff.1 hstep with ⟨p', hrun, hf'⟩
    have hpages : f'.ram.pages = p' := by rw [← hf']
    rw [hpages]
    refine ⟨h.guarded.page hne hv hrun, ?_⟩
    by_cases hp : f.ram.pages.present (e, f.next) = true
    · rcases Cow.forkPage_view hne hv hp with ⟨p1, hrun1, hview, _⟩
      rw [hrun] at hrun1
      cases hrun1
      exact h.secluded.protect (.inl rfl) (cell_of_present hp) hview
    · have hvs : f.next ≠ stackPage := by
        intro hc
        rw [hc] at hp
        exact hp h.guarded.stack
      rw [Cow.forkPage_absent hvs (Bool.eq_false_iff.2 hp),
        some.injEq] at hrun
      rw [← hrun]
      exact h.secluded
  | write v off b pp =>
    rcases map_eq_some_iff.1 hstep with ⟨m', hw, hf'⟩
    have hram : m' = f'.ram := by rw [← hf']
    rw [hram] at hw
    exact ⟨h.guarded.write hw hcond, h.secluded.write hw hcond⟩

/-- The stack and the exception stack are no pages of the heap. -/
theorem not_inHeap_stack : ¬InHeap stackPage ∧ ¬InHeap ((utop - pgSize) / pgSize) := by
  simp only [InHeap, stackPage, ustacktop, utop, pgSize, mbegin, mend]
  omega

/-- The start of `fork`. -/
theorem Own.forkStart (h : Own m e vpt) (hne : e ≠ c) (hchild : ∀ u, m.entry (c, u) = 0)
    (hstack : m.pages.present (e, stackPage) = true) (hpp : Fresh (withHeap m e vpt) pp) :
    ForkSecluded e c (forkStart (withHeap m e vpt) c pp).ram.pages.maps := by
  have hout : ∀ u, ¬((c, u).1 = e ∧ InHeap (c, u).2) := fun u hc => hne hc.1.symm
  have hempty : ∀ u, (withHeap m e vpt).entry (c, u) = 0 := by
    intro u
    rw [withHeap_out m vpt (hout u), hchild u]
  have hst : (withHeap m e vpt).pages.present (e, stackPage) = true := by
    have hentry : (withHeap m e vpt).entry (e, stackPage) = m.entry (e, stackPage) :=
      withHeap_out m vpt fun hc => not_inHeap_stack.1 hc.2
    exact (congrArg (fun w => hasFlags w pteP) hentry).trans hstack
  have hguard : Guarded {v | InHeap v} e c _ :=
    Cow.guarded_forkStart hempty hst (fun v hv => h.secure v hv) hpp
  refine ⟨⟨hguard.stack, fun z _ hz => absurd hz (Set.notMem_empty _)⟩, ?_, ?_⟩
  · intro z hz hv
    exact hguard.secure z hz hv
  · intro z hz hv d hd
    rw [Cow.view_forkStart hpp.lt] at hd
    have hx : z ≠ (c, (utop - pgSize) / pgSize) := by
      intro hc
      rw [hc] at hv
      exact not_inHeap_stack.2 hv
    rw [update_of_ne hx, Ram.view_eq] at hd
    rcases hz with hz | hz
    · have hze : z = (e, z.2) := Prod.ext hz rfl
      rw [hze, withHeap_in m e vpt hv] at hd
      exact h.plain z.2 hv d hd
    · have hzc : z = (c, z.2) := Prod.ext hz rfl
      rw [hzc, hempty z.2, cell_zero] at hd
      cases hd

/-! ## Spawn -/

/-- `copy_shared_pages` goes past the pages of the heap. -/
theorem copySharedFrom_secluded {p : Pages} (hne : e ≠ c) (h : Secluded {e} p.maps) {n : Nat} :
    ∀ p', n ≤ stackPage - firstPage →
      copySharedFrom p e c n = some p' → Secluded {e} p'.maps := by
  induction n with
  | zero =>
    intro p' _ hrun
    rw [copySharedFrom] at hrun
    cases hrun
    exact h
  | succ n ih =>
    intro p' hn hrun
    rw [copySharedFrom] at hrun
    rcases Option.bind_eq_some_iff.1 hrun with ⟨p1, hrun1, hpage⟩
    have hsec := ih p1 (by omega) hrun1
    dsimp only at hpage
    split at hpage
    · -- a shared page gets a second place, with its flags
      rename_i hcond
      rw [Bool.and_eq_true] at hcond
      rcases hcond with ⟨hp, hshare⟩
      have hs : shared (p1.maps (e, firstPage + n)) = true := by
        rwa [shared, Cow.and_syscall_share] at hshare
      have hlow := Cow.page_below (v := firstPage + n) (by omega)
      rw [Pages.sysPageMap, if_neg hlow, some.injEq] at hpage
      have hec : (e, firstPage + n) ≠ (c, firstPage + n) := fun hc => hne (congrArg Prod.fst hc)
      have hcell := cell_of_present hp
      have hself := Cow.cell_selfEntry hp
      rw [Cow.selfEntry, if_pos hs] at hself
      have hchild := Cow.cell_childEntry hp
      rw [Cow.childEntry, if_pos hs] at hchild
      refine hsec.protect (c := c) (Set.mem_singleton e) hcell ?_
      rw [← hpage, Pages.pageInsert_maps, Cow.view_update, hchild, protectBoth]
      refine (Function.update_eq_self_iff.2 ?_).symm
      rw [update_of_ne hec]
      exact hself.symm
    · cases hpage
      exact hsec

/-! ## The theorem -/

/-- A page with bytes of a block that the program has. -/
def Session.Holds (s : Session) (v : Nat) : Prop :=
  ∃ b ∈ s.live, ∃ a, b.1 ≤ a ∧ a < b.1 + b.2 ∧ a / pgSize = v

/-- The page of `e` at `v` is not one that both can write to. -/
def Private (e c : Nat) (maps : Nat × Nat → Pte) (v : Nat) : Prop :=
  writable (maps (e, v)) = true → ∀ u, writable (maps (c, u)) = true →
    ppn (maps (c, u)) ≠ ppn (maps (e, v))

theorem Small.inHeap (h : Small m e s) (hv : s.Holds v) :
    InHeap v := by
  rcases hv with ⟨b, hb, a, hlo, hhi, ha⟩
  have hin := h.blocks b hb
  rw [← ha]
  simp only [InHeap, mbegin, mend, pgSize] at hin ⊢
  omega

theorem Secluded.isPrivate (h : Secluded A maps) (he : e ∈ A) (hne : e ≠ c) (hv : InHeap v) :
    Private e c maps v := by
  intro hw u hu
  have hd : view maps (e, v) = _ := cell_of_present (present_of_writable hw)
  have hd' : view maps (c, u) = _ := cell_of_present (present_of_writable hu)
  have hcu : (c, u) ≠ (e, v) := fun hc => hne (congrArg Prod.fst hc).symm
  exact (h.secure (e, v) he hv _ hd (h.plain (e, v) he hv _ hd)).1 hw (c, u) _ hcu hd'

/-- After `fork` no page of a block can be written to by both, and neither of them sees
    what the other one writes there. -/
def ForkPrivate (m : Ram) (e c : Nat) (s : Session) : Prop :=
  ∀ pp f, (∀ u, m.entry (c, u) = 0) → m.pages.present (e, stackPage) = true →
    Fresh (withHeap m e s.heap.vpt) pp →
    Lib.Run (forkStep e c) (forkCond e)
      (forkStart (withHeap m e s.heap.vpt) c pp) f → f.done →
    ∀ v, s.Holds v → Private e c f.ram.pages.maps v ∧
      ∀ m1, Lib.Run writeStep (writeCond e c) f.ram m1 →
        ∀ w m2, w.page.2 = v → writeCond e c m1 w → writeStep m1 w = some m2 →
          ∀ y : Nat × Nat, y.1 = e ∨ y.1 = c → y.1 ≠ w.page.1 →
            ∀ i, m2.read y i = m1.read y i

/-- After `copy_shared_pages` no page of a block can be written to by both. The child sees
    nothing of what the parent writes there, and writes nothing that the parent reads
    there. -/
def SpawnPrivate (m : Ram) (e c : Nat) (s : Session) : Prop :=
  ∀ p', Cow.copySharedPages (withHeap m e s.heap.vpt).pages e c = some p' →
    ∀ v, s.Holds v → Private e c p'.maps v ∧
      ∀ m1, Lib.Run writeStep (writeCond e c)
          { withHeap m e s.heap.vpt with pages := p' } m1 →
        ∀ w m2, writeCond e c m1 w → writeStep m1 w = some m2 →
          (w.page = (e, v) → ∀ u i, m2.read (c, u) i = m1.read (c, u) i) ∧
          (w.page.1 = c → ∀ i, m2.read (e, v) i = m1.read (e, v) i)

/-- A program that only asks for blocks of at most 4092 bytes keeps them to itself. -/
theorem heap_private {m : Ram} {e c : Nat} {s s' : Session} (hne : e ≠ c) (hstart : Start s)
    (hrun : Lib.Run step (smallCond m e) s s') :
    ForkPrivate m e c s' ∧ SpawnPrivate m e c s' := by
  have hsmall : Small m e s' :=
    Lib.Run.invariant (Small m e) Small.step hrun (hstart.small m e)
  -- what the writes of the two keep
  have hlater : ∀ (A : Set Nat) (m0 m1 : Ram), Secluded A m0.pages.maps →
      Lib.Run writeStep (writeCond e c) m0 m1 → Secluded A m1.pages.maps := by
    intro A m0 m1 h0 hrun1
    refine Lib.Run.invariant (fun r : Ram => Secluded A r.pages.maps) ?_ hrun1 h0
    intro r w r' hr hcond hstep
    exact hr.write hstep hcond.2
  refine ⟨?_, ?_⟩
  · intro pp f hchild hstack hpp hfork hdone v hv
    have hin := hsmall.inHeap hv
    have hsec : ForkSecluded e c f.ram.pages.maps :=
      Lib.Run.invariant (fun g : Cow.Fork => ForkSecluded e c g.ram.pages.maps)
        (ForkSecluded.step hne) hfork (hsmall.own.forkStart hne hchild hstack hpp)
    refine ⟨hsec.secluded.isPrivate (.inl rfl) hne hin, ?_⟩
    intro m1 hrun1 w m2 hw hcond hstep y _ hy i
    have h1 := hlater _ f.ram m1 hsec.secluded hrun1
    have hplain : shared (m1.entry w.page) = false := by
      cases hs : shared (m1.entry w.page) with
      | false => rfl
      | true =>
        -- a write that works needs the page to be there
        have hp : hasFlags (m1.entry w.page) pteP = true := by
          rcases Ram.write_cases hstep hcond.2 with ⟨hwr, _⟩ | ⟨_, hp, _, _, _, _⟩
          · exact present_of_writable hwr
          · exact hp
        have hshare := h1.plain w.page hcond.1 (hw ▸ hin) _ (cell_of_present hp)
        cases (hs.symm.trans hshare)
    exact Cow.read_write hstep hcond.2 (h1.secure w.page hcond.1 (hw ▸ hin)) hplain hy i
  · intro p' hcopy v hv
    have hin := hsmall.inHeap hv
    have hstartSec : Secluded {e} (withHeap m e s'.heap.vpt).pages.maps := by
      refine ⟨?_, ?_⟩
      · intro z hz hzv
        have hze : z = (e, z.2) := Prod.ext hz rfl
        rw [hze]
        exact hsmall.own.secure z.2 hzv
      · intro z hz hzv d hd
        have hze : z = (e, z.2) := Prod.ext hz rfl
        rw [hze, Ram.view_eq, withHeap_in m e _ hzv] at hd
        exact hsmall.own.plain z.2 hzv d hd
    have hsec := copySharedFrom_secluded hne hstartSec p' le_rfl hcopy
    refine ⟨hsec.isPrivate (Set.mem_singleton e) hne hin, ?_⟩
    intro m1 hrun1 w m2 hcond hstep
    have h1 := hlater {e} _ m1 hsec hrun1
    have hsecure := h1.secure (e, v) (Set.mem_singleton e) hin
    have hplain := h1.plain (e, v) (Set.mem_singleton e) hin
    refine ⟨?_, ?_⟩
    · intro hw u i
      have hp : hasFlags (m1.entry w.page) pteP = true := by
        rcases Ram.write_cases hstep hcond.2 with ⟨hwr, _⟩ | ⟨_, hp, _, _, _, _⟩
        · exact present_of_writable hwr
        · exact hp
      have hs := hplain _ (by rw [← hw]; exact cell_of_present hp)
      exact Cow.read_write hstep hcond.2 (by rwa [hw]) hs
        (hw ▸ Ne.symm hne) i
    · intro hw i
      exact Cow.read_of_secure hstep hcond.2 hsecure hplain (by rwa [hw]) i

/-- A page that is mapped neither in the rest nor in the heap. -/
theorem fresh_withHeap (h : Fresh m pp)
    (hvpt : ∀ v, hasFlags (vpt v) pteP = true → ppn (vpt v) ≠ pp) :
    Fresh (withHeap m e vpt) pp := by
  refine ⟨h.lt, ?_⟩
  intro z d hd
  rw [Ram.view_eq] at hd
  by_cases hz : z.1 = e ∧ InHeap z.2
  · have hze : z = (e, z.2) := Prod.ext hz.1 rfl
    rw [hze, withHeap_in m e vpt hz.2] at hd
    rw [(Cow.cell_eq_some hd).2]
    exact hvpt z.2 (Cow.cell_eq_some hd).1
  · rw [withHeap_out m vpt hz] at hd
    exact h.unused z d hd

/-- There is nothing in a blank heap. -/
theorem blank_absent (v : Nat) : ¬hasFlags (blank.heap.vpt v) pteP = true := by
  have hzero : ¬hasFlags 0 pteP = true := by decide
  exact hzero

/-- One word on page 20. -/
theorem blank_word : ∃ s, step blank (.malloc 4 fun _ => some 20) = some s ∧
    s.live = [(mbegin, 4)] ∧
      ∀ v, hasFlags (s.heap.vpt v) pteP = true → ppn (s.heap.vpt v) = 20 := by
  have h : ((step blank (.malloc 4 fun _ => some 20)).map Session.live) = some [(mbegin, 4)] := by
    decide +kernel
  rcases map_eq_some_iff.1 h with ⟨s, hs, hlive⟩
  refine ⟨s, hs, hlive, ?_⟩
  rcases step_malloc hs with ⟨p, heap, hm, hs'⟩
  have hheap : s.heap = heap := by rw [hs']
  have hsmaller : ∀ vpt', Shrinks blank.heap.vpt vpt' → ∀ v, ¬hasFlags (vpt' v) pteP = true := by
    intro vpt' hsh v
    rcases hsh v with hv | hv
    · rw [hv]
      exact blank_absent v
    · rw [hv]
      exact fun hc => absurd hc (by decide)
  intro v hp
  rw [hheap] at hp ⊢
  rcases malloc_small (by omega) (.inl rfl) hm with ⟨hvpt, _, _⟩ | hgrab
  · rw [hvpt] at hp
    exact absurd hp (blank_absent v)
  · rcases hgrab.vpt with hsh | ⟨w, pp, halloc, hnew⟩
    · exact absurd hp (hsmaller _ (fun w => (hsh w).elim
        (fun he => he ▸ asking_shrinks blank.heap w) .inr) v)
    · rw [hnew] at hp ⊢
      by_cases hvw : v = w
      · rw [hvw, update_self, ← some.inj halloc]
        exact (Cow.writable_ownEntry (by omega)).2
      · rw [update_of_ne hvw] at hp
        exact absurd hp (hsmaller _ (asking_shrinks blank.heap) v)

theorem heap_private_word : ∃ s' f, s'.live = [(mbegin, 4)] ∧
    Lib.Run (forkStep 1 2) (forkCond 1)
      (forkStart (withHeap twoPages 1 s'.heap.vpt) 2 7) f ∧ f.done ∧
    Fresh (withHeap twoPages 1 s'.heap.vpt) 7 ∧
    ForkPrivate twoPages 1 2 s' ∧ SpawnPrivate twoPages 1 2 s' := by
  rcases blank_word with ⟨s', hs, hlive, hvpt⟩
  rcases Cow.fork_quiet_done (by decide : 1 ≠ 2) (withHeap twoPages 1 s'.heap.vpt) 7 with
    ⟨f, hrun, hdone, _, _⟩
  refine ⟨s', f, hlive, hrun, hdone, ?_, ?_⟩
  · refine fresh_withHeap (twoPages_fresh (by omega) (by omega) (by omega)) ?_
    intro v hp
    rw [hvpt v hp]
    omega
  · refine heap_private (by decide) blank_start (Relation.ReflTransGen.single ⟨_, ?_, hs⟩)
    refine ⟨by omega, ?_⟩
    intro pp hpp
    rw [← some.inj hpp]
    refine fresh_withHeap (twoPages_fresh (by omega) (by omega) (by omega)) ?_
    intro v hp
    exact absurd hp (blank_absent v)

/-- A block of 5000 bytes, on pages 20 and 21. -/
theorem blank_large : ∃ s, step blank (.malloc 5000 fun i => some (20 + i)) = some s ∧
    s.live = [(mbegin, 5000)] ∧ s.heap.vpt (mbegin / pgSize) = 0x14407 := by
  have h : ((step blank (.malloc 5000 fun i => some (20 + i))).map fun s =>
      (s.live, s.heap.vpt (mbegin / pgSize))) = some ([(mbegin, 5000)], 0x14407) := by
    decide +kernel
  rcases map_eq_some_iff.1 h with ⟨s, hs, hv⟩
  rw [Prod.mk.injEq] at hv
  exact ⟨s, hs, hv.1, hv.2⟩

/-- `PTE_CONTINUED` is `PTE_SHARE`: the first page of a large block is writable in both, and
    the parent reads what the child writes. -/
theorem heap_shared : Fresh twoPages 20 ∧ Fresh twoPages 21 ∧
    ∃ s f m2, Start blank ∧ step blank (.malloc 5000 fun i => some (20 + i)) = some s ∧
      s.live = [(mbegin, 5000)] ∧ s.Holds (mbegin / pgSize) ∧
      Lib.Run (forkStep 1 2) (forkCond 1)
        (forkStart (withHeap twoPages 1 s.heap.vpt) 2 7) f ∧ f.done ∧
      ¬Private 1 2 f.ram.pages.maps (mbegin / pgSize) ∧
      writeStep f.ram ⟨(2, mbegin / pgSize), 0, 1, 8⟩ = some m2 ∧
      f.ram.read (1, mbegin / pgSize) 0 = some 0 ∧ m2.read (1, mbegin / pgSize) 0 = some 1 := by
  refine ⟨twoPages_fresh (by omega) (by omega) (by omega),
    twoPages_fresh (by omega) (by omega) (by omega), ?_⟩
  rcases blank_large with ⟨s, hs, hlive, hvpt⟩
  rcases Cow.fork_quiet_done (by decide : 1 ≠ 2) (withHeap twoPages 1 s.heap.vpt) 7 with
    ⟨f, hrun, hdone, hbytes, hentry⟩
  have hin : InHeap (mbegin / pgSize) := by decide
  have hrange : firstPage ≤ mbegin / pgSize ∧ mbegin / pgSize ≤ stackPage := by
    simp only [firstPage, utext, mbegin, pgSize, stackPage, ustacktop, utop]
    omega
  have hpar : (forkStart (withHeap twoPages 1 s.heap.vpt) 2 7).ram.entry
      (1, mbegin / pgSize) = 0x14407 := by
    rw [Cow.entry_forkStart hrange.2, withHeap_in _ 1 _ hin, hvpt]
  have hcond : (firstPage ≤ mbegin / pgSize ∧ mbegin / pgSize < stackPage + 1) ∧
      (mbegin / pgSize = stackPage ∨
        (forkStart (withHeap twoPages 1 s.heap.vpt) 2 7).ram.pages.present
          (1, mbegin / pgSize) = true) := by
    refine ⟨⟨hrange.1, Nat.lt_succ_of_le hrange.2⟩, .inr ?_⟩
    exact (congrArg (fun w => hasFlags w pteP) hpar).trans (by decide)
  -- both have the page with all its flags
  have hself : f.ram.entry (1, mbegin / pgSize) = Cow.selfEntry 0x14407 := by
    rw [hentry, Cow.quietEntry, if_pos hcond]
    simp only [hpar]
    rfl
  have hchild : f.ram.entry (2, mbegin / pgSize) = Cow.childEntry 0x14407 := by
    rw [hentry, Cow.quietEntry, if_pos hcond]
    simp only [hpar]
    rfl
  have hwrite : writable (f.ram.entry (2, mbegin / pgSize)) = true := by
    rw [hchild]
    decide
  have hppn : ppn (f.ram.entry (2, mbegin / pgSize)) = 20 := by
    rw [hchild]
    decide
  have hppn' : ppn (f.ram.entry (1, mbegin / pgSize)) = 20 := by
    rw [hself]
    decide
  have hpres : f.ram.pages.present (1, mbegin / pgSize) = true :=
    (congrArg (fun w => hasFlags w pteP) hself).trans (by decide)
  refine ⟨s, f, f.ram.store (2, mbegin / pgSize) 0 1, blank_start, hs, hlive, ?_, hrun, hdone, ?_,
    if_pos hwrite, ?_, ?_⟩
  · rw [Session.Holds, hlive]
    exact ⟨_, List.mem_singleton_self _, mbegin, le_rfl, by decide, rfl⟩
  · intro hprivate
    have hw : writable (f.ram.entry (1, mbegin / pgSize)) = true := by
      rw [hself]
      decide
    exact hprivate hw (mbegin / pgSize) hwrite (hppn.trans hppn'.symm)
  · rw [Ram.read, if_pos hpres, hppn', hbytes]
    rfl
  · have hpres' : (f.ram.store (2, mbegin / pgSize) 0 1).pages.present (1, mbegin / pgSize) =
        true := hpres
    have hstore : (f.ram.store (2, mbegin / pgSize) 0 1).entry (1, mbegin / pgSize) =
        f.ram.entry (1, mbegin / pgSize) := rfl
    rw [Ram.read, if_pos hpres', hstore, hppn', Ram.store, hppn]
    simp only [update_self]

end Jos.Malloc
