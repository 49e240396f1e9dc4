import Jos.Lib.Flow
import Jos.Theory.Cow

/-!
# Fork Copies and Separates

What the child has when `fork` is done, and what parent and child see of each other's
writes from then on. The parent may write while the loop goes on, so that a page of the
child holds what the parent had in it when the loop was there.

## Main definitions

* `Dup`: A page that the child has got.
* `Forking`: What holds all through the loop of `fork`.
* `Apart`: What holds from then on.
* `Owned`: The memory of a program that calls `fork`.
* `Copied`, `Separate`: What the child has, and what one sees of the other's writes.

## Theorems

* `Forking.step`, `Apart.step`: The invariants along a run.
* `fork_quiet_done`: The loop gets through.
* `fork_copies_and_separates`: The whole of it.
* `forkAll_complete_iff`: What the child lacks when there is no memory.
-/

namespace Jos.Cow

open Ram (entry read_eq view_eq)
open Option (map_eq_some_iff map_some some.injEq)
open User Lib.Alias
open Function (update update_self update_of_ne)

variable {e c v n pp off : Nat} {f f' : Fork} {p' p : Pages} {w : Pte} {y z : Nat × Nat} {m : Ram}
  {b : BitVec 8}

/-! ## The loop of fork -/

/-- The pages that `fork` goes through. -/
def InRange (v : Nat) : Prop := firstPage ≤ v ∧ v ≤ stackPage

/-- A page that the child has got: it is there and shared as the parent's page is. If it is
    not shared, it holds what the parent had in it then. -/
structure Dup (e c : Nat) (f : Fork) (v : Nat) : Prop where
  twin : Twin (view f.ram.pages.maps) (c, v) (e, v)
  steady : Steady (f.ram.entry (c, v))
  taken : ∀ d, view f.ram.pages.maps (c, v) = some d → d.share = false →
    d.write = false ∧ f.ram.bytes d.frame = f.taken v

/-- The state of `fork` at a page, where `m` is the memory at its start. -/
structure Forking (m : Ram) (e c : Nat) (f : Fork) : Prop where
  first : firstPage ≤ f.next
  last : f.next ≤ stackPage + 1
  guarded : Guarded Set.univ e c f.ram.pages.maps
  steady : ∀ v, InRange v → Steady (f.ram.entry (e, v))
  parent : ∀ v, InRange v →
    (view f.ram.pages.maps (e, v)).map Cell.share = (view m.pages.maps (e, v)).map Cell.share
  rest : ∀ v, f.next ≤ v → v ≤ stackPage → view f.ram.pages.maps (c, v) = none
  copied : ∀ v, firstPage ≤ v → v < f.next → Dup e c f v

def forkCond (e : Nat) (f : Fork) : ForkEvent → Prop
  | .page => True
  | .write v _ _ pp => freshIf f.ram (e, v) pp

/-- Places other than those of page `v` are not looked at. -/
theorem Dup.page {v' : Nat} (h : Dup e c f v') (hne : v' ≠ v)
    (hmaps : ∀ y : Nat × Nat, y.2 ≠ v → f'.ram.entry y = f.ram.entry y)
    (hbytes : f'.ram.bytes = f.ram.bytes) (htaken : f'.taken v' = f.taken v') :
    Dup e c f' v' := by
  have hview : ∀ a, view f'.ram.pages.maps (a, v') = view f.ram.pages.maps (a, v') := by
    intro a
    rw [view_eq, view_eq, hmaps (a, v') hne]
  refine ⟨h.twin.congr (hview c) (hview e), ?_, ?_⟩
  · rw [hmaps (c, v') hne]
    exact h.steady
  · intro d hd hs
    rw [hview c] at hd
    rw [hbytes, htaken]
    exact h.taken d hd hs

/-- The entries away from page `v` are as before. -/
theorem forkPage_other {w' : Pte} (hmaps : p'.maps = update (update p.maps (c, v) w) (e, v) w')
    (hy : y.2 ≠ v) : p'.maps y = p.maps y := by
  have hye : y ≠ (e, v) := by
    intro hc
    rw [hc] at hy
    exact hy rfl
  have hyc : y ≠ (c, v) := by
    intro hc
    rw [hc] at hy
    exact hy rfl
  rw [hmaps, update_of_ne hye, update_of_ne hyc]

/-- The page at which the loop is, when it is there. -/
theorem dup_forkPage (hne : e ≠ c) (hp : f.ram.pages.present (e, f.next) = true)
    (hsteady : Steady (f.ram.entry (e, f.next)))
    (hview : view p'.maps = protectBoth (view f.ram.pages.maps) (e, f.next) (c, f.next)
      ⟨ppn (f.ram.entry (e, f.next)), writable (f.ram.entry (e, f.next)),
        shared (f.ram.entry (e, f.next))⟩)
    (hmaps : p'.maps = update (update f.ram.pages.maps (c, f.next)
      (childEntry (f.ram.entry (e, f.next)))) (e, f.next) (selfEntry (f.ram.entry (e, f.next))))
    (hram : f'.ram = { f.ram with pages := p' })
    (htaken : f'.taken f.next = f.ram.bytes (ppn (f.ram.entry (e, f.next)))) :
    Dup e c f' f.next := by
  have hce : (c, f.next) ≠ (e, f.next) := fun hc => hne (congrArg Prod.fst hc).symm
  refine ⟨?_, ?_, ?_⟩
  · rw [hram]
    simp only
    rw [hview]
    exact twin_protectBoth _ _ _
  · rw [hram, entry]
    simp only
    rw [hmaps, update_of_ne hce, update_self]
    exact steady_childEntry hp hsteady
  · intro d hd hs
    rw [hram] at hd ⊢
    simp only at hd ⊢
    rw [hview, protectBoth, update_of_ne hce, update_self,
      some.injEq] at hd
    rw [← hd] at hs ⊢
    simp only [Cell.protect] at hs ⊢
    rw [hs, Bool.and_false, htaken]
    exact ⟨rfl, rfl⟩

theorem Forking.page (hne : e ≠ c) (h : Forking m e c f) (hstep : forkStep e c f .page = some f') :
    Forking m e c f' := by
  rw [forkStep] at hstep
  rcases Option.ite_none_right_eq_some.1 hstep with ⟨hv, hstep⟩
  rcases map_eq_some_iff.1 hstep with ⟨p', hrun, hf'⟩
  have hguard := h.guarded.page hne hv hrun
  have hnext : f'.next = f.next + 1 := by rw [← hf']
  have hram : f'.ram = { f.ram with pages := p' } := by rw [← hf']
  have htaken : f'.taken = update f.taken f.next
      (f.ram.bytes (ppn (f.ram.entry (e, f.next)))) := by rw [← hf']
  have hbytes : f'.ram.bytes = f.ram.bytes := by rw [hram]
  have hfirst := h.first
  by_cases hp : f.ram.pages.present (e, f.next) = true
  · rcases forkPage_view hne hv hp with ⟨p1, hrun1, hview, hmaps⟩
    rw [hrun] at hrun1
    cases hrun1
    have hother : ∀ y : Nat × Nat, y.2 ≠ f.next → f'.ram.entry y = f.ram.entry y := by
      intro y hy
      rw [hram]
      exact forkPage_other hmaps hy
    -- what the parent has at the page itself
    have hself : f'.ram.entry (e, f.next) = selfEntry (f.ram.entry (e, f.next)) := by
      rw [hram, entry]
      simp only
      rw [hmaps, update_self]
      rfl
    refine ⟨by omega, by omega, by rwa [hram], ?_, ?_, ?_, ?_⟩
    · intro v hvr
      by_cases hvn : v = f.next
      · rw [hvn, hself]
        exact steady_selfEntry hp (hvn ▸ h.steady v hvr)
      · rw [hother (e, v) hvn]
        exact h.steady v hvr
    · intro v hvr
      rw [← h.parent v hvr, view_eq, view_eq]
      by_cases hvn : v = f.next
      · have hcell : cell (f.ram.entry (e, f.next)) = _ := cell_of_present hp
        have hcell' : cell (selfEntry (f.ram.entry (e, f.next))) = _ := cell_selfEntry hp
        rw [hvn, hself, hcell, hcell']
        rfl
      · rw [hother (e, v) hvn]
    · intro v hv1 hv2
      have hvn : v ≠ f.next := by omega
      rw [view_eq, hother (c, v) hvn]
      exact h.rest v (by omega) hv2
    · intro v hv1 hv2
      by_cases hvn : v = f.next
      · rw [hvn]
        refine dup_forkPage hne hp (h.steady _ ⟨hfirst, hv⟩) hview hmaps hram ?_
        rw [htaken, update_self]
      · refine (h.copied v hv1 (by omega)).page hvn hother hbytes ?_
        rw [htaken, update_of_ne hvn]
  · -- nothing is there, and the child has nothing there either
    have hpf : f.ram.pages.present (e, f.next) = false := Bool.eq_false_iff.2 hp
    have hvs : f.next ≠ stackPage := by
      intro hc
      rw [hc] at hp
      exact hp h.guarded.stack
    rw [forkPage_absent hvs hpf, some.injEq] at hrun
    have hsame : f'.ram = f.ram := by rw [hram, ← hrun]
    have hnone : view f.ram.pages.maps (e, f.next) = none := by
      rw [view_eq, cell]
      exact if_neg hp
    refine ⟨by omega, by omega, ?_, ?_, ?_, ?_, ?_⟩
    · rw [hsame]
      exact h.guarded
    · rw [hsame]
      exact h.steady
    · rw [hsame]
      exact h.parent
    · intro v hv1 hv2
      rw [hsame]
      exact h.rest v (by omega) hv2
    · intro v hv1 hv2
      by_cases hvn : v = f.next
      · have hchild := h.rest v (by omega) (by omega)
        rw [hvn] at hchild ⊢
        refine ⟨⟨by rw [hsame, hnone, hchild], ?_⟩, ?_, ?_⟩
        · intro d d' hd
          rw [hsame, hchild] at hd
          cases hd
        · rw [hsame]
          exact steady_of_none hchild
        · intro d hd
          rw [hsame, hchild] at hd
          cases hd
      · refine (h.copied v hv1 (by omega)).page hvn (fun y _ => by rw [hsame]) hbytes ?_
        rw [htaken, update_of_ne hvn]

/-! ## Writes and the sharing of pages -/

section Write

variable {m m' : Ram} {x : Nat × Nat} {off pp : Nat} {b : BitVec 8} {d : Cell Nat}

/-- A page that is copied on a write was not shared. -/
theorem Steady.not_shared (h : Steady w) (hp : hasFlags w pteP = true) (hc : cow w = true)
    (hw : writable w = false) : shared w = false := by
  cases hs : shared w with
  | false => rfl
  | true => exact absurd ((h hp hs hc).symm.trans hw) (by simp)

variable (h : m.write x off b pp = some m') (hfresh : freshIf m x pp)
include h hfresh

/-- Whether a page of the range is there and shared does not change. -/
theorem share_write (hsteady : InRange x.2 → Steady (m.entry x)) (hy : InRange y.2) :
    (view m'.pages.maps y).map Cell.share = (view m.pages.maps y).map Cell.share := by
  rw [view_eq, view_eq]
  by_cases hyx : y = x
  · rw [hyx] at hy ⊢
    rcases cell_write h hfresh with ⟨hentry, _⟩ | ⟨hcell, hp, hc, hw⟩
    · rw [hentry]
    · have hold : cell (m.entry x) = _ := cell_of_present hp
      rw [hcell, hold]
      exact congrArg some ((hsteady hy).not_shared hp hc hw).symm
  · rw [entry_write h hfresh hyx fun _ => ne_pftemp hy.1]

/-- A shared page of the range keeps its cell. -/
theorem view_write_shared
    (hy : InRange y.2) (hd : view m'.pages.maps y = some d) (hs : d.share = true) :
    view m.pages.maps y = some d := by
  rw [view_eq] at hd ⊢
  by_cases hyx : y = x
  · rw [hyx] at hd ⊢
    rcases cell_write h hfresh with ⟨hentry, _⟩ | ⟨hcell, _, _, _⟩
    · rwa [← hentry]
    · rw [hcell] at hd
      cases hd
      cases hs
  · rwa [← entry_write h hfresh hyx fun _ => ne_pftemp hy.1]

theorem twin_write (ht : Twin (view m.pages.maps) y z) (hsteady : InRange x.2 → Steady (m.entry x))
    (hy : InRange y.2) (hz : InRange z.2) : Twin (view m'.pages.maps) y z := by
  have hshare : (view m'.pages.maps y).map Cell.share = (view m'.pages.maps z).map Cell.share := by
    rw [share_write h hfresh hsteady hy, share_write h hfresh hsteady hz, ht.share]
  refine ⟨hshare, ?_⟩
  intro d d' hd hd' hs
  rw [hd, hd', map_some, map_some, some.injEq] at hshare
  exact ht.frame d d' (view_write_shared h hfresh hy hd hs)
    (view_write_shared h hfresh hz hd' (hshare.symm.trans hs)) hs

theorem steady_write (hy : InRange y.2) (hs : Steady (m.entry y)) : Steady (m'.entry y) := by
  by_cases hyx : y = x
  · rw [hyx] at hs ⊢
    rcases cell_write h hfresh with ⟨hentry, _⟩ | ⟨hcell, _, _, _⟩
    · rwa [hentry]
    · exact steady_of_cell hcell rfl
  · rwa [entry_write h hfresh hyx fun _ => ne_pftemp hy.1]

/-- The bytes of a page that nobody can write to stay. -/
theorem bytes_write (hy : Secure (view m.pages.maps) y) (hd : view m.pages.maps y = some d)
    (hw : d.write = false) (hs : d.share = false) : m'.bytes d.frame = m.bytes d.frame := by
  have hcontents : contents (view m.pages.maps) m'.bytes y =
      contents (view m.pages.maps) m.bytes y := by
    rcases Ram.write_cases h hfresh with ⟨hwx, hm'⟩ | ⟨hwx, _, _, _, hbytes, _⟩
    · rw [hm']
      exact contents_store_frozen hy hd hw hs (cell_of_present (present_of_writable hwx)) hwx
    · rw [hbytes]
      exact contents_unused (hfresh hwx).unused
  rwa [contents, contents, hd, map_some, map_some, some.injEq] at hcontents

/-- A write to a shared page of the range is read at both places. -/
theorem read_write_shared (hsteady : Steady (m.entry x)) (hs : shared (m.entry x) = true)
    (ht : Twin (view m.pages.maps) x y) : m'.read y off = some b := by
  rcases Ram.write_cases h hfresh with ⟨hw, hm'⟩ | ⟨hw, hp, hc, _, _, _⟩
  · have hx : view m.pages.maps x = _ := cell_of_present (present_of_writable hw)
    have hshare := ht.share
    -- the other place is there, with the same page
    cases hy : view m.pages.maps y with
    | none =>
      rw [hx, hy] at hshare
      cases hshare
    | some d =>
      have hframe := ht.frame _ d hx hy hs
      rw [hm', read_eq, contents]
      simp only [Ram.store]
      rw [hy, map_some, map_some, ← hframe]
      simp only [entry, update_self]
  · exact absurd (hs.symm.trans (hsteady.not_shared hp hc hw)) (by simp)

end Write

/-- What the child has got stays when the parent writes. -/
theorem Dup.write {u : Nat} (hne : e ≠ c) (h : Dup e c f u) (hu : InRange u)
    (hsecure : Secure (view f.ram.pages.maps) (c, u))
    (hsteady : InRange v → Steady (f.ram.entry (e, v)))
    (hw : f.ram.write (e, v) off b pp = some f'.ram) (hfresh : freshIf f.ram (e, v) pp)
    (htaken : f'.taken = f.taken) : Dup e c f' u := by
  have hcu : (c, u) ≠ (e, v) := fun hc => hne (congrArg Prod.fst hc).symm
  refine ⟨twin_write hw hfresh h.twin hsteady hu hu, steady_write hw hfresh hu h.steady, ?_⟩
  intro d hd hs
  rw [view_eq, entry_write hw hfresh hcu fun hc => absurd hc.symm hne, ← view_eq] at hd
  rcases h.taken d hd hs with ⟨hdw, hbytes⟩
  refine ⟨hdw, ?_⟩
  rw [bytes_write hw hfresh hsecure hd hdw hs, htaken, hbytes]

theorem Forking.write (hne : e ≠ c) (h : Forking m e c f) (hfresh : freshIf f.ram (e, v) pp)
    (hstep : forkStep e c f (.write v off b pp) = some f') : Forking m e c f' := by
  rcases map_eq_some_iff.1 hstep with ⟨m', hw, hf'⟩
  have hnext : f'.next = f.next := by rw [← hf']
  have hram : m' = f'.ram := by rw [← hf']
  have htaken : f'.taken = f.taken := by rw [← hf']
  have hsteady : InRange v → Steady (f.ram.entry (e, v)) := h.steady v
  rw [hram] at hw
  refine ⟨hnext ▸ h.first, hnext ▸ h.last,
    h.guarded.write hw hfresh, ?_, ?_, ?_, ?_⟩
  · intro u hu
    exact steady_write hw hfresh hu (h.steady u hu)
  · intro u hu
    rw [share_write hw hfresh hsteady hu, h.parent u hu]
  · intro u hu1 hu2
    have hcu : (c, u) ≠ (e, v) := fun hc => hne (congrArg Prod.fst hc).symm
    rw [view_eq, entry_write hw hfresh hcu fun hc => absurd hc.symm hne]
    exact h.rest u (by omega) hu2
  · intro u hu1 hu2
    have hlast := h.last
    refine (h.copied u hu1 (by omega)).write hne ⟨hu1, by omega⟩ ?_ hsteady hw hfresh htaken
    exact h.guarded.secure (c, u) (.inr rfl) (Set.mem_univ _)

theorem Forking.step {m : Ram} (hne : e ≠ c) (f : Fork) (ev : ForkEvent) (f' : Fork)
    (h : Forking m e c f) (hcond : forkCond e f ev) (hstep : forkStep e c f ev = some f') :
    Forking m e c f' := by
  cases ev with
  | page => exact h.page hne hstep
  | write v off b pp => exact h.write hne hcond hstep

/-! ## The start of fork -/

/-- The memory of a program that calls `fork`. The stack is there. A page that it can write
    to and that is not shared is mapped nowhere else, and a page that it cannot write to
    can be written to by nobody. A shared page is not marked `PTE_COW` as well, unless it
    is writable. -/
structure Owned (m : Ram) (e : Nat) : Prop where
  stack : m.pages.present (e, stackPage) = true
  sole : ∀ v, writable (m.entry (e, v)) = true → shared (m.entry (e, v)) = false →
    ∀ z, z ≠ (e, v) → m.pages.present z = true → ppn (m.entry z) ≠ ppn (m.entry (e, v))
  frozen : ∀ v, m.pages.present (e, v) = true → writable (m.entry (e, v)) = false →
    ∀ z, m.pages.present z = true → ppn (m.entry z) = ppn (m.entry (e, v)) →
      writable (m.entry z) = false
  steady : ∀ v, InRange v → Steady (m.entry (e, v))

theorem Owned.secure (h : Owned m e) (v : Nat) : Secure (view m.pages.maps) (e, v) := by
  intro d hd hs
  rcases cell_eq_some hd with ⟨hp, hd⟩
  rw [hd] at hs ⊢
  refine ⟨?_, ?_⟩
  · intro hw z d' hz hd'
    rcases cell_eq_some hd' with ⟨hp', hd'⟩
    rw [hd']
    exact h.sole v hw hs z hz hp'
  · intro hw z d' hd' hframe
    rcases cell_eq_some hd' with ⟨hp', hd'⟩
    rw [hd'] at hframe ⊢
    exact h.frozen v hp hw z hp' hframe

/-- The page of the exception stack. -/
theorem xstack_above (h : v ≤ stackPage) : v ≠ (utop - pgSize) / pgSize := by
  simp only [stackPage, ustacktop, utop, pgSize] at h ⊢
  omega

theorem view_forkStart (hpp : pp < 2 ^ 52) :
    view (forkStart m c pp).ram.pages.maps =
      update (view m.pages.maps) (c, (utop - pgSize) / pgSize)
        (some ⟨pp, true, false⟩) := by
  simp only [forkStart, Ram.sysPageAlloc]
  rw [Pages.pageInsert_maps, view_update, cell_ownEntry hpp]

theorem entry_forkStart (hy : y.2 ≤ stackPage) : (forkStart m c pp).ram.entry y = m.entry y := by
  have hne : y ≠ (c, (utop - pgSize) / pgSize) := by
    intro hc
    exact xstack_above hy (congrArg Prod.snd hc)
  simp only [forkStart, Ram.sysPageAlloc, entry]
  rw [Pages.pageInsert_maps, update_of_ne hne]

/-- A page of the child at the start. -/
theorem guarded_forkStart {V : Set Nat} (hchild : ∀ u, m.entry (c, u) = 0)
    (hstack : m.pages.present (e, stackPage) = true)
    (hsecure : ∀ v ∈ V, Secure (view m.pages.maps) (e, v)) (hpp : Fresh m pp) :
    Guarded V e c (forkStart m c pp).ram.pages.maps := by
  refine ⟨?_, ?_⟩
  · have hentry : (forkStart m c pp).ram.entry (e, stackPage) = _ := entry_forkStart le_rfl
    exact (congrArg (fun w => hasFlags w pteP) hentry).trans hstack
  · rintro ⟨a, v⟩ ha hv
    rw [view_forkStart hpp.lt]
    refine Secure.fresh (fun _ => ?_) hpp.unused
    rcases ha with ha | ha
    · rw [show a = e from ha]
      exact hsecure v hv
    · rw [show a = c from ha]
      refine secure_of_none ?_
      rw [view_eq, hchild v, cell_zero]

theorem forking_start (hchild : ∀ u, m.entry (c, u) = 0) (howned : Owned m e) (hpp : Fresh m pp) :
    Forking m e c (forkStart m c pp) := by
  have hrange := stack_in_range
  refine ⟨le_rfl, ?_, ?_, ?_, ?_, ?_, ?_⟩
  · change firstPage ≤ stackPage + 1
    omega
  · exact guarded_forkStart hchild howned.stack (fun v _ => howned.secure v) hpp
  · intro v hv
    rw [entry_forkStart hv.2]
    exact howned.steady v hv
  · intro v hv
    rw [view_eq, entry_forkStart hv.2, view_eq]
  · intro v _ hv
    rw [view_eq, entry_forkStart hv, hchild v, cell_zero]
  · intro v hv1 hv2
    exact absurd hv2 (Nat.not_lt.2 hv1)

/-! ## After fork -/

/-- The memory of parent and child from the end of `fork` on. -/
structure Apart (e c : Nat) (m : Ram) : Prop where
  secure : ∀ z : Nat × Nat, z.1 = e ∨ z.1 = c → Secure (view m.pages.maps) z
  steady : ∀ z : Nat × Nat, z.1 = e ∨ z.1 = c → InRange z.2 → Steady (m.entry z)
  twin : ∀ v, InRange v → Twin (view m.pages.maps) (c, v) (e, v)

theorem Forking.apart (h : Forking m e c f) (hdone : f.done) : Apart e c f.ram := by
  have hcopied : ∀ v, InRange v → Dup e c f v := by
    intro v hv
    refine h.copied v hv.1 ?_
    rw [hdone]
    exact Nat.lt_succ_of_le hv.2
  refine ⟨fun z hz => h.guarded.secure z hz (Set.mem_univ _), ?_, fun v hv => (hcopied v hv).twin⟩
  rintro ⟨a, v⟩ ha hv
  rcases ha with ha | ha
  · rw [show a = e from ha]
    exact h.steady v hv
  · rw [show a = c from ha]
    exact (hcopied v hv).steady

/-- A write of the parent or the child, with what `page_alloc` gives for it. -/
def writeCond (e c : Nat) (m : Ram) (w : Write) : Prop :=
  (w.page.1 = e ∨ w.page.1 = c) ∧ freshIf m w.page w.pp

theorem Apart.step (m : Ram) (w : Write) {m' : Ram} (h : Apart e c m) (hcond : writeCond e c m w)
    (hstep : writeStep m w = some m') : Apart e c m' :=
  ⟨fun z hz => secure_write hstep hcond.2 (h.secure z hz),
    fun z hz hr => steady_write hstep hcond.2 hr (h.steady z hz hr),
    fun v hv => twin_write hstep hcond.2 (h.twin v hv)
      (fun hr => h.steady w.page hcond.1 hr) hv hv⟩

/-- What the child has got when `fork` is done. -/
structure Copied (m : Ram) (e c : Nat) (f : Fork) : Prop where
  mapped : ∀ v, InRange v → f.ram.pages.present (c, v) = m.pages.present (e, v)
  both : ∀ v, InRange v → m.pages.present (e, v) = true → shared (m.entry (e, v)) = true →
    ppn (f.ram.entry (c, v)) = ppn (f.ram.entry (e, v)) ∧
      ∀ i, f.ram.read (c, v) i = f.ram.read (e, v) i
  taken : ∀ v, InRange v → m.pages.present (e, v) = true → shared (m.entry (e, v)) = false →
    ∀ i, f.ram.read (c, v) i = some (f.taken v i)

/-- A write as the other one sees it. -/
structure Separate (e c : Nat) (m m' : Ram) (w : Write) : Prop where
  unseen : shared (m.entry w.page) = false → ∀ y : Nat × Nat, y.1 = e ∨ y.1 = c →
    y.1 ≠ w.page.1 → ∀ i, m'.read y i = m.read y i
  seen : shared (m.entry w.page) = true → InRange w.page.2 →
    m'.read (e, w.page.2) w.off = some w.b ∧ m'.read (c, w.page.2) w.off = some w.b

theorem present_eq_isSome (w : Pte) : hasFlags w pteP = ((cell w).map Cell.share).isSome := by
  rw [cell]
  cases hasFlags w pteP with
  | true => rfl
  | false => rfl

theorem Forking.copiedAll (h : Forking m e c f) (hdone : f.done) : Copied m e c f := by
  -- child and parent at the end, and the parent at the start, agree on what is shared
  have hdup : ∀ v, InRange v → Dup e c f v := by
    intro v hv
    refine h.copied v hv.1 ?_
    rw [hdone]
    exact Nat.lt_succ_of_le hv.2
  have hshare : ∀ v, InRange v → (cell (f.ram.entry (c, v))).map Cell.share =
      (cell (m.entry (e, v))).map Cell.share := fun v hv =>
    (hdup v hv).twin.share.trans (h.parent v hv)
  have hcell : ∀ v, InRange v → m.pages.present (e, v) = true →
      ∃ d, view f.ram.pages.maps (c, v) = some d ∧ d.share = shared (m.entry (e, v)) := by
    intro v hv hp
    have hm : cell (m.entry (e, v)) = _ := cell_of_present hp
    have hs := hshare v hv
    rw [hm, map_some] at hs
    exact map_eq_some_iff.1 hs
  refine ⟨?_, ?_, ?_⟩
  · intro v hv
    rw [Pages.present, Pages.present, present_eq_isSome, present_eq_isSome]
    exact congrArg Option.isSome (hshare v hv)
  · intro v hv hp hs
    rcases hcell v hv hp with ⟨d, hd, hds⟩
    have hparent := (hdup v hv).twin.share
    rw [hd, map_some] at hparent
    rcases map_eq_some_iff.1 hparent.symm with ⟨d', hd', _⟩
    have hframe := (hdup v hv).twin.frame d d' hd hd' (hds.trans hs)
    refine ⟨?_, ?_⟩
    · rwa [(cell_eq_some hd).2, (cell_eq_some hd').2] at hframe
    · intro i
      rw [read_eq, read_eq, contents, contents, hd, hd']
      simp only [map_some, hframe]
  · intro v hv hp hs i
    rcases hcell v hv hp with ⟨d, hd, hds⟩
    rw [read_eq, contents, hd, map_some, map_some,
      ((hdup v hv).taken d hd (hds.trans hs)).2]

theorem Apart.separate {m' : Ram} {w : Write} (h : Apart e c m) (hcond : writeCond e c m w)
    (hstep : writeStep m w = some m') : Separate e c m m' w := by
  refine ⟨?_, ?_⟩
  · intro hs y _ hne i
    exact read_write hstep hcond.2 (h.secure w.page hcond.1) hs hne i
  · intro hs hr
    have hsteady := h.steady w.page hcond.1 hr
    have htwin := h.twin w.page.2 hr
    -- a place is a twin of itself, too
    have hself : Twin (view m.pages.maps) w.page w.page :=
      ⟨rfl, fun d d' hd hd' _ => by rw [hd, some.injEq] at hd'; rw [hd']⟩
    rcases hcond.1 with ha | ha
    · have hpage : w.page = (e, w.page.2) := by rw [← ha]
      rw [← hpage] at htwin ⊢
      exact ⟨read_write_shared hstep hcond.2 hsteady hs hself,
        read_write_shared hstep hcond.2 hsteady hs htwin.symm⟩
    · have hpage : w.page = (c, w.page.2) := by rw [← ha]
      rw [← hpage] at htwin ⊢
      exact ⟨read_write_shared hstep hcond.2 hsteady hs htwin,
        read_write_shared hstep hcond.2 hsteady hs hself⟩

/-! ## A fork without writes -/

/-- The entries when the loop has gone up to page `n` and nobody has written. -/
def quietEntry (m : Ram) (e c n : Nat) (y : Nat × Nat) : Pte :=
  if (firstPage ≤ y.2 ∧ y.2 < n) ∧ (y.2 = stackPage ∨ m.pages.present (e, y.2) = true) then
    if y.1 = e then selfEntry (m.entry (e, y.2))
    else if y.1 = c then childEntry (m.entry (e, y.2))
    else m.entry y
  else m.entry y

theorem quietEntry_of_le (h : n ≤ y.2) : quietEntry m e c n y = m.entry y := by
  refine if_neg ?_
  intro hc
  exact absurd hc.1.2 (Nat.not_lt.2 h)

theorem quietEntry_succ (h : y.2 ≠ n) : quietEntry m e c (n + 1) y = quietEntry m e c n y := by
  have hiff : y.2 < n + 1 ↔ y.2 < n := by omega
  simp only [quietEntry, hiff]

/-- The loop gets through. -/
theorem fork_quiet (hne : e ≠ c) (f0 : Fork) (hnext : f0.next = firstPage) (n : Nat) :
    firstPage + n ≤ stackPage + 1 →
    ∃ f, Lib.Run (forkStep e c) (forkCond e) f0 f ∧ f.next = firstPage + n ∧
      f.ram.bytes = f0.ram.bytes ∧
      ∀ y, f.ram.entry y = quietEntry f0.ram e c (firstPage + n) y := by
  induction n with
  | zero =>
    intro _
    exact ⟨f0, Relation.ReflTransGen.refl, hnext, rfl, fun y => (if_neg (by omega)).symm⟩
  | succ n ih =>
    intro hn
    rcases ih (by omega) with ⟨f, hrun, hfn, hbytes, hentry⟩
    have hv : f.next ≤ stackPage := by omega
    have hpar : f.ram.entry (e, f.next) = f0.ram.entry (e, f.next) := by
      rw [hentry]
      exact quietEntry_of_le (by rw [hfn])
    have hpres : f.ram.pages.present (e, f.next) = f0.ram.pages.present (e, f.next) :=
      congrArg (fun w => hasFlags w pteP) hpar
    -- the calls of this page, and the entries after them
    have hpage : ∃ p', dupCalls f.ram.pages e c f.next (forkPage f.ram.pages e f.next) = some p' ∧
        ∀ y, p'.maps y = quietEntry f0.ram e c (f.next + 1) y := by
      by_cases hp : f.next = stackPage ∨ f.ram.pages.present (e, f.next) = true
      · rcases forkPage_maps hne hv hp with ⟨p', hcalls, hmaps⟩
        refine ⟨p', hcalls, ?_⟩
        rintro ⟨a, u⟩
        by_cases hu : u = f.next
        · have hcond : (firstPage ≤ u ∧ u < f.next + 1) ∧
              (u = stackPage ∨ f0.ram.pages.present (e, u) = true) := by
            refine ⟨⟨by omega, by omega⟩, ?_⟩
            rwa [hu, ← hpres]
          rw [quietEntry, if_pos hcond]
          simp only [hu, hmaps, ← hpar]
          by_cases ha : a = e
          · rw [if_pos ha, ha, update_self]
            rfl
          · have hae : (a, f.next) ≠ (e, f.next) := fun hc => ha (congrArg Prod.fst hc)
            rw [if_neg ha, update_of_ne hae]
            by_cases hac : a = c
            · rw [if_pos hac, hac, update_self]
              rfl
            · have hcc : (a, f.next) ≠ (c, f.next) := fun hc => hac (congrArg Prod.fst hc)
              rw [if_neg hac, update_of_ne hcc]
              have hold := hentry (a, f.next)
              rw [quietEntry_of_le (by rw [hfn])] at hold
              exact hold
        · rw [quietEntry_succ hu, forkPage_other hmaps hu, hfn]
          exact hentry (a, u)
      · rw [not_or, Bool.not_eq_true] at hp
        refine ⟨f.ram.pages, forkPage_absent hp.1 hp.2, ?_⟩
        rintro ⟨a, u⟩
        by_cases hu : u = f.next
        · have hcond : ¬((firstPage ≤ u ∧ u < f.next + 1) ∧
              (u = stackPage ∨ f0.ram.pages.present (e, u) = true)) := by
            rw [hu, ← hpres, hp.2]
            simp [hp.1]
          have hold := hentry (a, u)
          rw [quietEntry_of_le (by omega)] at hold
          rwa [quietEntry, if_neg hcond]
        · rw [quietEntry_succ hu, hfn]
          exact hentry (a, u)
    rcases hpage with ⟨p', hcalls, hmaps⟩
    have hstep : forkStep e c f .page = some
        { ram := { f.ram with pages := p' }
          next := f.next + 1
          taken := update f.taken f.next
            (f.ram.bytes (ppn (f.ram.entry (e, f.next)))) } := by
      rw [forkStep, if_pos hv, hcalls]
      rfl
    refine ⟨_, hrun.tail ⟨.page, trivial, hstep⟩, ?_, hbytes, ?_⟩
    · change f.next + 1 = _
      omega
    · intro y
      have hsum : firstPage + (n + 1) = f.next + 1 := by omega
      rw [hsum]
      exact hmaps y

/-- `fork` can be done. -/
theorem fork_quiet_done (hne : e ≠ c) (m : Ram) (pp : Nat) :
    ∃ f, Lib.Run (forkStep e c) (forkCond e) (forkStart m c pp) f ∧ f.done ∧
      f.ram.bytes = (forkStart m c pp).ram.bytes ∧
      ∀ y, f.ram.entry y = quietEntry (forkStart m c pp).ram e c (stackPage + 1) y := by
  have hrange := stack_in_range
  have hsum : firstPage + (stackPage + 1 - firstPage) = stackPage + 1 := by omega
  rcases fork_quiet hne (forkStart m c pp) rfl (stackPage + 1 - firstPage) (by omega) with
    ⟨f, hrun, hnext, hbytes, hentry⟩
  rw [hsum] at hnext hentry
  exact ⟨f, hrun, hnext, hbytes, hentry⟩

/-! ## The theorem -/

/-- `fork` copies the memory of the parent, and afterwards neither of the two sees what
    the other one writes, unless the page is shared. -/
theorem fork_copies_and_separates {m : Ram} {e c pp : Nat} {f : Fork} (hne : e ≠ c)
    (hchild : ∀ u, m.entry (c, u) = 0) (howned : Owned m e) (hpp : Fresh m pp)
    (hrun : Lib.Run (forkStep e c) (forkCond e) (forkStart m c pp) f) (hdone : f.done) :
    Copied m e c f ∧
      ∀ m1, Lib.Run writeStep (writeCond e c) f.ram m1 → ∀ w m2, writeCond e c m1 w →
        writeStep m1 w = some m2 → Separate e c m1 m2 w := by
  have hforking : Forking m e c f :=
    Lib.Run.invariant (Forking m e c) (Forking.step hne) hrun (forking_start hchild howned hpp)
  refine ⟨hforking.copiedAll hdone, ?_⟩
  intro m1 hlater w m2 hcond hstep
  have hapart : Apart e c m1 :=
    Lib.Run.invariant (Apart e c) Apart.step hlater (hforking.apart hdone)
  exact hapart.separate hcond hstep

/-- A program with a shared page at `UTEXT` and its stack. -/
def twoPages : Ram where
  pages :=
    { maps := fun y =>
        if y = (1, firstPage) then 0x5407 else if y = (1, stackPage) then 0x6007 else 0
      ppRef := fun _ => 1 }
  bytes := fun _ _ => 0

theorem twoPages_present (h : twoPages.pages.present z = true) :
    z = (1, firstPage) ∨ z = (1, stackPage) := by
  by_cases h1 : z = (1, firstPage)
  · exact .inl h1
  · by_cases h2 : z = (1, stackPage)
    · exact .inr h2
    · have hz : twoPages.pages.maps z = 0 := by simp only [twoPages, if_neg h1, if_neg h2]
      rw [Pages.present, hz] at h
      cases h

theorem stack_ne_first : (1, stackPage) ≠ (1, firstPage) := by
  intro h
  have hpage := congrArg Prod.snd h
  simp only [stackPage, ustacktop, utop, pgSize, firstPage, utext] at hpage
  omega

theorem twoPages_first : twoPages.entry (1, firstPage) = 0x5407 := by
  simp only [entry, twoPages, if_true]

theorem twoPages_stack : twoPages.entry (1, stackPage) = 0x6007 := by
  simp only [entry, twoPages, if_neg stack_ne_first, if_true]

theorem twoPages_owned : Owned twoPages 1 := by
  refine ⟨?_, ?_, ?_, ?_⟩
  · exact (congrArg (fun w => hasFlags w pteP) twoPages_stack).trans (by decide)
  · intro v hw hs z hz hp
    rcases twoPages_present (present_of_writable hw) with hv | hv
    · rw [hv, twoPages_first] at hs
      cases hs
    · rcases twoPages_present hp with hzv | hzv
      · rw [hzv, hv, twoPages_first, twoPages_stack]
        decide
      · exact absurd (hzv.trans hv.symm) hz
  · intro v hp hw
    rcases twoPages_present hp with hv | hv
    · rw [hv, twoPages_first] at hw
      cases hw
    · rw [hv, twoPages_stack] at hw
      cases hw
  · intro v _ hp _ hc
    rcases twoPages_present hp with hv | hv
    · rw [hv, twoPages_first] at hc
      cases hc
    · rw [hv, twoPages_stack] at hc
      cases hc

theorem twoPages_fresh (hlt : pp < 2 ^ 52) (h5 : pp ≠ 5) (h6 : pp ≠ 6) : Fresh twoPages pp := by
  refine ⟨hlt, ?_⟩
  intro z d hd hframe
  rcases cell_eq_some hd with ⟨hp, hd⟩
  rw [hd] at hframe
  rcases twoPages_present hp with hz | hz
  · have hentry : twoPages.pages.maps z = 0x5407 := hz ▸ twoPages_first
    rw [hentry] at hframe
    exact h5 hframe.symm
  · have hentry : twoPages.pages.maps z = 0x6007 := hz ▸ twoPages_stack
    rw [hentry] at hframe
    exact h6 hframe.symm

theorem twoPages_child (u : Nat) : twoPages.entry (2, u) = 0 := by
  have h1 : ((2, u) : Nat × Nat) ≠ (1, firstPage) := fun h => absurd (congrArg Prod.fst h) (by simp)
  have h2 : ((2, u) : Nat × Nat) ≠ (1, stackPage) := fun h => absurd (congrArg Prod.fst h) (by simp)
  simp only [entry, twoPages, if_neg h1, if_neg h2]

theorem fork_copies_and_separates_twoPages :
    Owned twoPages 1 ∧ Fresh twoPages 7 ∧
      ∃ f, Lib.Run (forkStep 1 2) (forkCond 1) (forkStart twoPages 2 7) f ∧ f.done ∧
        Copied twoPages 1 2 f ∧
        ∀ m1, Lib.Run writeStep (writeCond 1 2) f.ram m1 → ∀ w m2, writeCond 1 2 m1 w →
          writeStep m1 w = some m2 → Separate 1 2 m1 m2 w := by
  have hfresh : Fresh twoPages 7 := twoPages_fresh (by omega) (by omega) (by omega)
  refine ⟨twoPages_owned, hfresh, ?_⟩
  rcases fork_quiet_done (by decide : 1 ≠ 2) twoPages 7 with ⟨f, hrun, hdone, _, _⟩
  exact ⟨f, hrun, hdone, fork_copies_and_separates (by decide) twoPages_child twoPages_owned
    hfresh hrun hdone⟩

/-- A program that has a page at `UTEXT` and also at `UTEMP`, below what `fork` copies. -/
def aliased : Ram where
  pages :=
    { maps := fun y =>
        if y = (1, firstPage) ∨ y = (1, 0x400) then 0x5007
        else if y = (1, stackPage) then 0x6007 else 0
      ppRef := fun _ => 1 }
  bytes := fun _ _ => 0

theorem aliased_utemp : aliased.entry (1, 0x400) = 0x5007 := by
  simp only [entry, aliased, or_true, if_true]

theorem aliased_first : aliased.entry (1, firstPage) = 0x5007 := by
  simp only [entry, aliased, true_or, if_true]

theorem aliased_stack : aliased.entry (1, stackPage) = 0x6007 := by
  have hne : ¬((1, stackPage) = (1, firstPage) ∨ ((1, stackPage) : Nat × Nat) = (1, 0x400)) := by
    simp only [Prod.mk.injEq, true_and, stackPage, ustacktop, utop, pgSize, firstPage, utext]
    omega
  simp only [entry, aliased, if_neg hne, if_true]

/-- Only the program has pages, and it can write to all of them. -/
theorem aliased_present (h : aliased.pages.present z = true) :
    z.1 = 1 ∧ writable (aliased.entry z) = true := by
  by_cases h1 : z = (1, firstPage) ∨ z = (1, 0x400)
  · have hz : aliased.entry z = 0x5007 := by simp only [entry, aliased, if_pos h1]
    refine ⟨?_, by rw [hz]; decide⟩
    rcases h1 with h1 | h1
    · rw [h1]
    · rw [h1]
  · by_cases h2 : z = (1, stackPage)
    · refine ⟨by rw [h2], ?_⟩
      rw [h2, aliased_stack]
      decide
    · have hz : aliased.pages.maps z = 0 := by simp only [aliased, if_neg h1, if_neg h2]
      rw [Pages.present, hz] at h
      cases h

/-- The page is protected at `UTEXT` only: what the parent writes at `UTEMP` is read by the
    child. -/
theorem fork_aliased_seen :
    (aliased.pages.present (1, stackPage) = true ∧
      (∀ v, writable (aliased.entry (1, v)) = true → shared (aliased.entry (1, v)) = false →
        ∀ z, z.1 ≠ 1 → aliased.pages.present z = true →
          ppn (aliased.entry z) ≠ ppn (aliased.entry (1, v))) ∧
      (∀ v, aliased.pages.present (1, v) = true → writable (aliased.entry (1, v)) = false →
        ∀ z, aliased.pages.present z = true →
          ppn (aliased.entry z) = ppn (aliased.entry (1, v)) →
            writable (aliased.entry z) = false)) ∧
      ∃ f m2, Lib.Run (forkStep 1 2) (forkCond 1) (forkStart aliased 2 7) f ∧ f.done ∧
        shared (f.ram.entry (1, 0x400)) = false ∧
        writeCond 1 2 f.ram ⟨(1, 0x400), 0, 1, 8⟩ ∧
        writeStep f.ram ⟨(1, 0x400), 0, 1, 8⟩ = some m2 ∧
        f.ram.read (2, firstPage) 0 = some 0 ∧ m2.read (2, firstPage) 0 = some 1 := by
  refine ⟨⟨?_, ?_, ?_⟩, ?_⟩
  · exact (congrArg (fun w => hasFlags w pteP) aliased_stack).trans (by decide)
  · intro v _ _ z hz hp
    exact absurd (aliased_present hp).1 hz
  · intro v hp hw
    exact absurd ((aliased_present hp).2.symm.trans hw) (by simp)
  · rcases fork_quiet_done (by decide : 1 ≠ 2) aliased 7 with ⟨f, hrun, hdone, hbytes, hentry⟩
    have hrange := stack_in_range
    have hlow : 0x400 < firstPage := by
      simp only [firstPage, utext, pgSize]
      omega
    -- the page below the range is as it was
    have hutemp : f.ram.entry (1, 0x400) = 0x5007 := by
      have hout : ¬((firstPage ≤ 0x400 ∧ 0x400 < stackPage + 1) ∧ (0x400 = stackPage ∨
          (forkStart aliased 2 7).ram.pages.present (1, 0x400) = true)) := by omega
      rw [hentry, quietEntry, if_neg hout, entry_forkStart (by omega), aliased_utemp]
    have hpar : (forkStart aliased 2 7).ram.entry (1, firstPage) = 0x5007 := by
      rw [entry_forkStart hrange, aliased_first]
    have hchild : f.ram.entry (2, firstPage) = childEntry 0x5007 := by
      have hin : (firstPage ≤ firstPage ∧ firstPage < stackPage + 1) ∧ (firstPage = stackPage ∨
          (forkStart aliased 2 7).ram.pages.present (1, firstPage) = true) := by
        refine ⟨⟨le_rfl, by omega⟩, .inr ?_⟩
        exact (congrArg (fun w => hasFlags w pteP) hpar).trans (by decide)
      rw [hentry, quietEntry, if_pos hin]
      simp only [hpar]
      rfl
    have hwrite : writable (f.ram.entry (1, 0x400)) = true := by
      rw [hutemp]
      decide
    have hpres : f.ram.pages.present (2, firstPage) = true :=
      (congrArg (fun w => hasFlags w pteP) hchild).trans (by decide)
    have hppn : ppn (f.ram.entry (2, firstPage)) = 5 := by
      rw [hchild]
      decide
    have hppn' : ppn (f.ram.entry (1, 0x400)) = 5 := by
      rw [hutemp]
      decide
    refine ⟨f, f.ram.store (1, 0x400) 0 1, hrun, hdone, by rw [hutemp]; decide,
      ⟨.inl rfl, fun hw => absurd (hwrite.symm.trans hw) (by simp)⟩, if_pos hwrite, ?_, ?_⟩
    · rw [Ram.read, if_pos hpres, hppn, hbytes]
      rfl
    · have hpres' : (f.ram.store (1, 0x400) 0 1).pages.present (2, firstPage) = true := hpres
      have hstore : (f.ram.store (1, 0x400) 0 1).entry (2, firstPage) =
          f.ram.entry (2, firstPage) := rfl
      rw [Ram.read, if_pos hpres', hstore, hppn, Ram.store, hppn']
      simp only [update_self]

/-! ## Calls that fail -/

theorem dupTry_off {v : Nat} (e c : Nat) (ok : Side → Bool) (calls : List (Side × BitVec 32))
    {x : Nat × Nat} (hx : x.2 ≠ v) : ∀ p, (dupTry p e c v ok calls).maps x = p.maps x := by
  induction calls with
  | nil => exact fun p => rfl
  | cons call calls ih =>
    intro p
    unfold dupTry
    split
    · unfold Pages.sysPageMap
      split
      · next heq =>
        split at heq
        · cases heq
        · rw [ih, ← Option.some.inj heq, Pages.pageInsert_maps,
            update_of_ne fun he => hx (congrArg Prod.snd he)]
      · rfl
    · rfl

/-- The child has the page if the first call succeeds; the second one is for the parent. -/
theorem dupTry_child (hne : e ≠ c) (hv : v ≤ stackPage) (ok : Side → Bool)
    (hnew : p.maps (c, v) = 0) (w : Pte) :
    (dupTry p e c v ok (duppage w)).present (c, v) = ok .child := by
  rcases duppage_cases w with ⟨perm, calls, hd, hperm, hcalls⟩
  rw [hd, dupTry]
  cases hok : ok .child with
  | false =>
    rw [if_neg (by simp), Pages.present, hnew]
    decide
  | true =>
    have hpres : (p.pageInsert (c, v) (ppn (p.maps (e, v))) perm).present (c, v) = true := by
      rw [Pages.present, Pages.pageInsert_maps, update_self]
      exact (Vm.insertedEntry_spec _ perm (ppn_lt _) hperm).2
    simp only [if_true, Pages.sysPageMap, Fd.World.sideEnv, if_neg (page_below hv)]
    rcases hcalls with rfl | ⟨perm', rfl, -⟩
    · exact hpres
    · simp only [dupTry, Pages.sysPageMap, Fd.World.sideEnv, if_neg (page_below hv)]
      split
      · rw [Pages.present, Pages.pageInsert_maps,
          update_of_ne fun he => hne (congrArg Prod.fst he).symm]
        exact hpres
      · exact hpres

/-- After `n` pages: the rest is untouched, and the child has those pages of the parent for
    which its call succeeded. -/
theorem forkTry_spec (hne : e ≠ c) (ok : Nat → Side → Bool)
    (hnew : ∀ v ≤ stackPage, p.maps (c, v) = 0) (n : Nat) (hn : firstPage + n ≤ stackPage + 1) :
    (∀ x : Nat × Nat, firstPage + n ≤ x.2 → (forkTry p e c ok n).maps x = p.maps x) ∧
    ∀ v, firstPage ≤ v → v < firstPage + n → p.present (e, v) = true →
      (forkTry p e c ok n).present (c, v) = ok v .child := by
  induction n with
  | zero => exact ⟨fun _ _ => rfl, fun v hlo hhi => by omega⟩
  | succ n ih =>
    rcases ih (by omega) with ⟨hrest, hdone⟩
    refine ⟨fun x hx => ?_, fun v hlo hhi hp => ?_⟩
    · rw [forkTry, dupTry_off _ _ _ _ (by omega), hrest x (by omega)]
    · by_cases hv : v = firstPage + n
      · have hsame : (forkTry p e c ok n).present (e, v) = true := by
          rwa [Pages.present, hrest (e, v) (by omega)]
        rw [forkTry, ← hv, forkPage, if_pos (.inr hsame)]
        exact dupTry_child hne (by omega) _ ((hrest _ (by omega)).trans (hnew v (by omega))) _
      · rw [forkTry, Pages.present, dupTry_off _ _ _ _ hv]
        exact hdone v hlo (by omega) hp

/-- `fork` returns with a child that can run, and the child has the pages of the parent if
    all the calls of `sys_page_map` for it have succeeded. -/
theorem forkAll_complete_iff (p : Pages) (e c : Nat) (stack : Option Nat)
    (ok : Nat → Side → Bool) (hne : e ≠ c) (hnew : ∀ v, p.maps (c, v) = 0) :
    (¬((forkAll p e c stack ok).1 = .runnable ∧ ∃ v, firstPage ≤ v ∧ v ≤ stackPage ∧
      p.present (e, v) = true ∧ (forkAll p e c stack ok).2.present (c, v) = false)) ↔
    ∀ v, firstPage ≤ v → v ≤ stackPage → p.present (e, v) = true → ok v .child = true := by
  obtain ⟨p', hp'⟩ : ∃ p', p' = stack.elim p fun pp =>
      p.pageInsert (c, (utop - pgSize) / pgSize) pp 7 := ⟨_, rfl⟩
  -- the exception stack is above all the pages
  have hsame : ∀ x : Nat × Nat, x.2 ≤ stackPage → p'.maps x = p.maps x := by
    intro x hx
    cases stack with
    | none => rw [hp']; rfl
    | some pp =>
      rw [hp', Option.elim_some, Pages.pageInsert_maps,
        update_of_ne fun he => xstack_above hx (congrArg Prod.snd he)]
  have hrange := stack_in_range
  have hspec := (forkTry_spec hne ok (fun v hv => (hsame _ hv).trans (hnew v))
    (stackPage + 1 - firstPage) (by omega)).2
  have hchild : ∀ v, firstPage ≤ v → v ≤ stackPage → p.present (e, v) = true →
      (forkAll p e c stack ok).2.present (c, v) = ok v .child := by
    intro v hlo hhi hp
    rw [forkAll, ← hp']
    refine hspec v hlo (by omega) ?_
    rwa [Pages.present, hsame _ hhi]
  refine ⟨fun h v hlo hhi hp => ?_, fun h hbad => ?_⟩
  · rw [← hchild v hlo hhi hp, ← Bool.not_eq_false]
    exact fun hmiss => h ⟨rfl, v, hlo, hhi, hp, hmiss⟩
  · rcases hbad with ⟨-, v, hlo, hhi, hp, hmiss⟩
    rw [hchild v hlo hhi hp, h v hlo hhi hp] at hmiss
    cases hmiss

theorem forkAll_complete_iff_twoPages :
    (forkAll twoPages.pages 1 2 (some 7) fun _ _ => true).1 = .runnable ∧
    ¬((forkAll twoPages.pages 1 2 (some 7) fun _ _ => true).1 = .runnable ∧
      ∃ v, firstPage ≤ v ∧ v ≤ stackPage ∧ twoPages.pages.present (1, v) = true ∧
        (forkAll twoPages.pages 1 2 (some 7) fun _ _ => true).2.present (2, v) = false) :=
  ⟨rfl, (forkAll_complete_iff _ 1 2 _ _ (by decide) twoPages_child).2 fun _ _ _ _ => rfl⟩

/-- The call for the first page finds no memory for a page table. -/
theorem forkAll_incomplete :
    (∀ v, twoPages.pages.maps (2, v) = 0) ∧ twoPages.pages.present (1, firstPage) = true ∧
    (forkAll twoPages.pages 1 2 none fun v _ => v != firstPage).1 = .runnable ∧
    (forkAll twoPages.pages 1 2 none fun v _ => v != firstPage).2.present (2, firstPage) =
      false := by
  have hrange := stack_in_range
  have hp : twoPages.pages.present (1, firstPage) = true := by
    rw [Pages.present, show twoPages.pages.maps (1, firstPage) = 0x5407 from twoPages_first]
    decide
  refine ⟨twoPages_child, hp, rfl, ?_⟩
  rw [forkAll, Option.elim_none, (forkTry_spec (by decide) _ (fun v _ => twoPages_child v)
    (stackPage + 1 - firstPage) (by omega)).2 firstPage le_rfl (by omega) hp]
  exact bne_self_eq_false _

end Jos.Cow
