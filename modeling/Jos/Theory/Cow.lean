import Jos.Core.Fork
import Jos.Lib.Alias
import Jos.Theory.Isolation
import Jos.Theory.UserMem

/-!
# Copy-on-Write Entries

The entries of programs, seen as cells: the physical page, whether a program can write to
it, and whether it is marked `PTE_SHARE`. `duppage` protects a page of the parent together
with its copy in the child, unless it is shared; `pgfault` gives a place a page of its own.
Both keep every page secure, so that a write is not seen in another environment.

## Main definitions

* `cell`, `view`: The entries as cells.
* `childEntry`, `selfEntry`: The entries that `duppage` makes.
* `Fresh`: A page that `page_alloc` can give.
* `Guarded`: The given pages of parent and child are secure.

## Theorems

* `cell_childEntry`, `cell_selfEntry`: The two entries are protected alike.
* `Ram.write_cases`: The two ways of a write.
* `forkPage_maps`: What `fork` does to the entries at one page.
* `Guarded.page`, `Guarded.write`: The pages stay secure.
* `read_write`: A write is not seen in another environment.
-/

namespace Jos.Cow

open User Lib.Alias
open Function (update update_self update_of_ne update_idem)

variable {w : Pte} {d : Cell Nat} {m m' : Ram} {y x : Nat × Nat} {e v pp off c : Nat} {b : BitVec 8}
  {V : Set Nat} {p : Pages}

/-! ## Entries -/

/-- What an entry says about a page. -/
def cell (w : Pte) : Option (Cell Nat) :=
  if hasFlags w pteP then some ⟨ppn w, writable w, shared w⟩ else none

/-- All entries. -/
def view (maps : Nat × Nat → Pte) (x : Nat × Nat) : Option (Cell Nat) := cell (maps x)

theorem view_update (maps : Nat × Nat → Pte) (x : Nat × Nat) (w : Pte) :
    view (update maps x w) = update (view maps) x (cell w) :=
  Function.comp_update cell maps x w

theorem cell_of_present (h : hasFlags w pteP = true) :
    cell w = some ⟨ppn w, writable w, shared w⟩ := if_pos h

theorem cell_eq_some (h : cell w = some d) :
    hasFlags w pteP = true ∧ d = ⟨ppn w, writable w, shared w⟩ := by
  rw [cell] at h
  rcases Option.ite_none_right_eq_some.1 h with ⟨hp, h⟩
  exact ⟨hp, (Option.some.inj h).symm⟩

@[simp] theorem cell_zero : cell 0 = none := by decide

theorem pteP_eq : pteP = BitVec.twoPow 64 0 := by decide
theorem pteW_eq : pteW = BitVec.twoPow 64 1 := by decide
theorem pteU_eq : pteU = BitVec.twoPow 64 2 := by decide
theorem pteShare_eq : pteShare = BitVec.twoPow 64 10 := by decide
theorem pteCow_eq : pteCow = BitVec.twoPow 64 11 := by decide

theorem present_bit (w : Pte) : hasFlags w pteP = w.getLsbD 0 := by
  rw [pteP_eq, hasFlags_twoPow w (by omega)]

theorem writable_bits (w : Pte) :
    writable w = (w.getLsbD 0 && w.getLsbD 1 && w.getLsbD 2) := by
  rw [writable, pteP_eq, pteW_eq, pteU_eq, hasFlags_twoPow w (by omega),
    hasFlags_twoPow w (by omega), hasFlags_twoPow w (by omega)]

theorem shared_bit (w : Pte) : shared w = w.getLsbD 10 := by
  rw [shared, pteShare_eq, and_twoPow_bne w (by omega)]

theorem cow_bit (w : Pte) : cow w = w.getLsbD 11 := by
  rw [cow, pteCow_eq, and_twoPow_bne w (by omega)]

theorem present_of_writable (h : writable w = true) : hasFlags w pteP = true := by
  rw [writable, Bool.and_eq_true, Bool.and_eq_true] at h
  exact h.1.1

/-- The cell of an entry that `page_insert` has made. -/
theorem cell_insertedEntry {perm : BitVec 32} (hpp : pp < 2 ^ 52) (hperm : perm.toNat < 4096) :
    cell (Vm.insertedEntry pp perm) =
      some ⟨pp, perm.getLsbD 1 && perm.getLsbD 2, perm.getLsbD 10⟩ := by
  rcases Vm.insertedEntry_spec pp perm hpp hperm with ⟨hppn, hp⟩
  have hbit : ∀ j, 0 < j → j < 12 →
      (Vm.insertedEntry pp perm).getLsbD j = perm.getLsbD j := by
    intro j hj0 hj
    have hne : j ≠ 0 := by omega
    rw [Mem.insertedEntry_bit pp perm j hj, BitVec.getLsbD_or]
    simp [hne]
  rw [cell_of_present hp, hppn, writable_bits, shared_bit, ← present_bit, hp,
    hbit 1 (by omega) (by omega), hbit 2 (by omega) (by omega), hbit 10 (by omega) (by omega),
    Bool.true_and]

/-- The entry that the child gets from `duppage`. -/
def childEntry (w : Pte) : Pte :=
  if shared w then Vm.insertedEntry (ppn w) ((w &&& pteSyscall).setWidth 32)
  else if w &&& pteW ≠ 0 ∨ w &&& pteCow ≠ 0 then Vm.insertedEntry (ppn w) 0x805
  else Vm.insertedEntry (ppn w) ((w &&& 0xFFF).setWidth 32)

/-- The entry that the parent has after `duppage`. -/
def selfEntry (w : Pte) : Pte :=
  if shared w then w
  else if w &&& pteW ≠ 0 ∨ w &&& pteCow ≠ 0 then Vm.insertedEntry (ppn w) 0x805
  else w

theorem getLsbD_masked (w f : Pte) (i : Nat) (hi : i < 12) :
    ((w &&& f).setWidth 32).getLsbD i = (w.getLsbD i && f.getLsbD i) := by
  have h32 : i < 32 := by omega
  rw [BitVec.getLsbD_setWidth, BitVec.getLsbD_and]
  simp [h32]

theorem cell_cowEntry (w : Pte) :
    cell (Vm.insertedEntry (ppn w) 0x805) = some ⟨ppn w, false, false⟩ := by
  rw [cell_insertedEntry (ppn_lt w) (by decide)]
  rfl

/-- An entry without `PTE_W` is not writable. -/
theorem writable_of_not_flag (h : ¬(w &&& pteW ≠ 0 ∨ w &&& pteCow ≠ 0)) :
    w.getLsbD 1 = false ∧ writable w = false := by
  have hw : w &&& pteW = 0 := by
    by_contra hc
    exact h (.inl hc)
  have hbit : w.getLsbD 1 = false := by
    rw [← and_twoPow_bne w (by omega), ← pteW_eq, hw]
    rfl
  exact ⟨hbit, by rw [writable_bits, hbit, Bool.and_false, Bool.false_and]⟩

theorem cell_childEntry (hp : hasFlags w pteP = true) :
    cell (childEntry w) = some (Cell.protect ⟨ppn w, writable w, shared w⟩) := by
  have hp0 : w.getLsbD 0 = true := by rw [← present_bit, hp]
  rw [childEntry, Cell.protect]
  by_cases hs : shared w = true
  · -- a shared page keeps its flags
    rw [if_pos hs, cell_insertedEntry (ppn_lt w) (and_setWidth_lt w (by decide)),
      getLsbD_masked w _ 1 (by omega), getLsbD_masked w _ 2 (by omega),
      getLsbD_masked w _ 10 (by omega), ← shared_bit, hs, writable_bits, hp0]
    have hmask : pteSyscall.getLsbD 1 = true ∧ pteSyscall.getLsbD 2 = true ∧
        pteSyscall.getLsbD 10 = true := by decide
    rw [hmask.1, hmask.2.1, hmask.2.2]
    simp only [Bool.and_true, Bool.true_and]
  · rw [if_neg hs]
    have hsf : shared w = false := Bool.eq_false_iff.2 hs
    split
    · rw [cell_cowEntry, hsf, Bool.and_false]
    · -- a page that is only read
      rename_i hflags
      rcases writable_of_not_flag hflags with ⟨hbit, _⟩
      rw [cell_insertedEntry (ppn_lt w) (and_setWidth_lt w (by decide)),
        getLsbD_masked w _ 1 (by omega), getLsbD_masked w _ 10 (by omega), hbit, ← shared_bit, hsf]
      simp only [Bool.false_and, Bool.and_false]

theorem cell_selfEntry (hp : hasFlags w pteP = true) :
    cell (selfEntry w) = some (Cell.protect ⟨ppn w, writable w, shared w⟩) := by
  rw [selfEntry, Cell.protect]
  by_cases hs : shared w = true
  · rw [if_pos hs, cell_of_present hp, hs, Bool.and_true]
  · rw [if_neg hs]
    have hsf : shared w = false := Bool.eq_false_iff.2 hs
    split
    · rw [cell_cowEntry, hsf, Bool.and_false]
    · rename_i hflags
      rw [cell_of_present hp, (writable_of_not_flag hflags).2, hsf, Bool.and_false]

/-- A shared page is not copied on a write: it is writable or not marked `PTE_COW`. -/
def Steady (w : Pte) : Prop :=
  hasFlags w pteP = true → shared w = true → cow w = true → writable w = true

theorem steady_of_none (h : cell w = none) : Steady w := by
  intro hp
  rw [cell_of_present hp] at h
  cases h

theorem steady_of_cell (h : cell w = some d) (hs : d.share = false) :
    Steady w := by
  intro _ hw
  rw [(cell_eq_some h).2] at hs
  cases (hw.symm.trans hs)

/-- Neither side of a shared page is copied if it was not before. -/
theorem steady_childEntry (hp : hasFlags w pteP = true) (h : Steady w) : Steady (childEntry w) := by
  by_cases hs : shared w = true
  · intro _ _ hc
    have hentry : childEntry w = Vm.insertedEntry (ppn w) ((w &&& pteSyscall).setWidth 32) :=
      if_pos hs
    have hcw : cow w = true := by
      have h11 : (1 : BitVec 32).getLsbD 11 = false := by decide
      rw [cow_bit, hentry, Mem.insertedEntry_bit _ _ 11 (by omega), BitVec.getLsbD_or, h11,
        Bool.or_false, getLsbD_masked w _ 11 (by omega), Bool.and_eq_true] at hc
      rw [cow_bit]
      exact hc.1
    have hcell := (cell_eq_some (cell_childEntry hp)).2
    have hwrite := congrArg Cell.write hcell
    simp only [Cell.protect, hs, Bool.and_true] at hwrite
    rw [← hwrite]
    exact h hp hs hcw
  · refine steady_of_cell (cell_childEntry hp) ?_
    exact Bool.eq_false_iff.2 hs

theorem steady_selfEntry (hp : hasFlags w pteP = true) (h : Steady w) : Steady (selfEntry w) := by
  by_cases hs : shared w = true
  · rwa [selfEntry, if_pos hs]
  · refine steady_of_cell (cell_selfEntry hp) ?_
    exact Bool.eq_false_iff.2 hs

/-! ## Writes -/

/-- A page that `page_alloc` can give: it is mapped nowhere. -/
structure Fresh (m : Ram) (pp : Nat) : Prop where
  lt : pp < 2 ^ 52
  unused : Unused (view m.pages.maps) pp

/-- What the writes of a program can rely on. -/
def freshIf (m : Ram) (x : Nat × Nat) (pp : Nat) : Prop :=
  writable (m.entry x) = false → Fresh m pp

theorem cell_ownEntry (hpp : pp < 2 ^ 52) :
    cell (Vm.insertedEntry pp 7) = some ⟨pp, true, false⟩ := by
  rw [cell_insertedEntry hpp (by decide)]
  rfl

theorem writable_ownEntry (hpp : pp < 2 ^ 52) :
    writable (Vm.insertedEntry pp 7) = true ∧ ppn (Vm.insertedEntry pp 7) = pp := by
  have hcell := (cell_eq_some (cell_ownEntry hpp)).2
  exact ⟨(congrArg Cell.write hcell).symm, (congrArg Cell.frame hcell).symm⟩

namespace Ram

theorem view_eq (m : Ram) (x : Nat × Nat) : view m.pages.maps x = cell (m.entry x) := rfl

/-- A byte that is read, as part of the contents of the page. -/
theorem read_eq (m : Ram) (x : Nat × Nat) (off : Nat) :
    m.read x off = (contents (view m.pages.maps) m.bytes x).map fun page => page off := by
  rw [read, contents, view_eq, cell, Pages.present, entry]
  split
  · rfl
  · rfl

theorem read_congr
    (h : contents (view m'.pages.maps) m'.bytes y = contents (view m.pages.maps) m.bytes y)
    (off : Nat) : m'.read y off = m.read y off := by
  rw [read_eq, read_eq, h]

theorem pftemp_below : ¬utop ≤ pftempPage * pgSize := by
  simp only [utop, pftempPage, pgSize]
  omega

/-- The entries and the bytes after `pgfault`, on any page but that of `PFTEMP`. -/
theorem pgfault_spec (hv : v ≠ pftempPage) (hp : m.pages.present (e, v) = true)
    (hfresh : Fresh m pp) (h : m.pgfault e v pp = some m') :
    m'.pages.maps = update (update m.pages.maps (e, v) (Vm.insertedEntry pp 7))
        (e, pftempPage) 0 ∧
      m'.bytes = update m.bytes pp (m.bytes (ppn (m.entry (e, v)))) := by
  have hne : (e, v) ≠ (e, pftempPage) := fun hc => hv (congrArg Prod.snd hc)
  have hpp := (writable_ownEntry hfresh.lt).2
  -- the page that is copied is not the new one
  have hold : ppn (m.pages.maps (e, v)) ≠ pp := hfresh.unused (e, v) _ (cell_of_present hp)
  simp only [pgfault, Option.map_eq_some_iff] at h
  rcases h with ⟨p, hmap, hm'⟩
  rw [Pages.sysPageMap] at hmap
  split at hmap
  · cases hmap
  · rw [Option.some.injEq] at hmap
    rw [← hm', ← hmap]
    refine ⟨?_, ?_⟩
    · simp only [Pages.sysPageUnmap, if_neg pftemp_below, Pages.pageRemove_maps,
        Pages.pageInsert_maps, copyPage, sysPageAlloc, update_self, hpp]
      -- `PFTEMP` is mapped in between only
      rw [Function.update_comm hne.symm, update_idem]
    · simp only [copyPage, sysPageAlloc, entry, Pages.pageInsert_maps, update_self,
        update_of_ne hne, hpp, update_idem]
      rw [update_of_ne hold]

/-- After `pgfault` on the page of `PFTEMP` there is no page there. -/
theorem pgfault_pftemp (h : m.pgfault e pftempPage pp = some m') :
    m'.entry (e, pftempPage) = 0 := by
  simp only [pgfault, Option.map_eq_some_iff] at h
  rcases h with ⟨p, _, hm'⟩
  rw [← hm', entry, Pages.sysPageUnmap, if_neg pftemp_below, Pages.pageRemove_maps, update_self]

/-- A write goes to the page as it is, or to a copy of it on a fresh page. -/
theorem write_cases (h : m.write x off b pp = some m') (hfresh : freshIf m x pp) :
    (writable (m.entry x) = true ∧ m' = m.store x off b) ∨
    (writable (m.entry x) = false ∧ m.pages.present x = true ∧ cow (m.entry x) = true ∧
      m'.pages.maps = update (update m.pages.maps x (Vm.insertedEntry pp 7))
        (x.1, pftempPage) 0 ∧
      m'.bytes = update m.bytes pp
        (update (m.bytes (ppn (m.entry x))) off b) ∧ x.2 ≠ pftempPage) := by
  rcases x with ⟨e, v⟩
  rw [write] at h
  by_cases hw : writable (m.entry (e, v)) = true
  · rw [if_pos hw, Option.some.injEq] at h
    exact .inl ⟨hw, h.symm⟩
  · rw [if_neg hw] at h
    have hwf : writable (m.entry (e, v)) = false := Bool.eq_false_iff.2 hw
    rcases Option.ite_none_right_eq_some.1 h with ⟨hpc, h⟩
    rw [Bool.and_eq_true] at hpc
    rcases Option.bind_eq_some_iff.1 h with ⟨m1, hfault, hstore⟩
    split at hstore
    · rename_i hw1
      rw [Option.some.injEq] at hstore
      have hv : v ≠ pftempPage := by
        intro hc
        rw [hc] at hfault hw1
        rw [pgfault_pftemp hfault] at hw1
        cases hw1
      have hne : (e, v) ≠ (e, pftempPage) := fun hc => hv (congrArg Prod.snd hc)
      rcases pgfault_spec hv hpc.1 (hfresh hwf) hfault with ⟨hmaps, hbytes⟩
      have hentry : ppn (m1.entry (e, v)) = pp := by
        rw [entry, hmaps, update_of_ne hne, update_self]
        exact (writable_ownEntry (hfresh hwf).lt).2
      refine .inr ⟨hwf, hpc.1, hpc.2, ?_, ?_, hv⟩
      · rwa [← hstore]
      · rw [← hstore, store, hentry, hbytes]
        simp only [update_self, update_idem]
    · cases hstore

end Ram

/-! ## The pages that are secure -/

theorem and_syscall_share (w : Pte) : w &&& pteSyscall &&& pteShare = w &&& pteShare := by
  have hmask : pteSyscall &&& pteShare = pteShare := by decide
  rw [BitVec.and_assoc, hmask]

/-- A page that `sys_page_map` takes. -/
theorem page_below (h : v ≤ stackPage) : ¬(utop ≤ v * pgSize ∨ utop ≤ v * pgSize) := by
  simp only [stackPage, ustacktop, utop, pgSize] at h ⊢
  omega

/-- What `fork` does to the entries at page `v`. -/
theorem forkPage_maps (hne : e ≠ c) (hv : v ≤ stackPage)
    (hp : v = stackPage ∨ p.present (e, v) = true) :
    ∃ p', dupCalls p e c v (forkPage p e v) = some p' ∧
      p'.maps = update (update p.maps (c, v) (childEntry (p.maps (e, v)))) (e, v)
        (selfEntry (p.maps (e, v))) := by
  have hec : (e, v) ≠ (c, v) := fun hc => hne (congrArg Prod.fst hc)
  have hlow := page_below hv
  rw [forkPage, if_pos hp, duppage, and_syscall_share]
  by_cases hs : shared (p.maps (e, v)) = true
  · have hshare : p.maps (e, v) &&& pteShare ≠ 0 := by simpa [shared] using hs
    rw [if_pos hshare]
    refine ⟨_, by simp only [dupCalls, Pages.sysPageMap, if_neg hlow, Option.bind_some]; rfl, ?_⟩
    rw [Pages.pageInsert_maps, childEntry, if_pos hs, selfEntry, if_pos hs, Fd.World.sideEnv]
    exact (Function.update_eq_self_iff.2 (by rw [update_of_ne hec])).symm
  · have hshare : ¬p.maps (e, v) &&& pteShare ≠ 0 := by simpa [shared] using hs
    rw [if_neg hshare, childEntry, if_neg hs, selfEntry, if_neg hs]
    by_cases hflags : p.maps (e, v) &&& pteW ≠ 0 ∨ p.maps (e, v) &&& pteCow ≠ 0
    · rw [if_pos hflags, if_pos hflags, if_pos hflags]
      refine ⟨_, by simp only [dupCalls, Pages.sysPageMap, if_neg hlow, Option.bind_some]; rfl, ?_⟩
      -- the second call still finds the entry of the parent
      simp only [Pages.pageInsert_maps, Fd.World.sideEnv]
      rw [update_of_ne hec]
    · rw [if_neg hflags, if_neg hflags, if_neg hflags]
      refine ⟨_, by simp only [dupCalls, Pages.sysPageMap, if_neg hlow, Option.bind_some]; rfl, ?_⟩
      rw [Pages.pageInsert_maps, Fd.World.sideEnv]
      exact (Function.update_eq_self_iff.2 (by rw [update_of_ne hec])).symm

/-- A page of the parent that is there is protected, and so is the one of the child. -/
theorem forkPage_view (hne : e ≠ c) (hv : v ≤ stackPage) (hp : p.present (e, v) = true) :
    ∃ p', dupCalls p e c v (forkPage p e v) = some p' ∧
      view p'.maps = protectBoth (view p.maps) (e, v) (c, v)
        ⟨ppn (p.maps (e, v)), writable (p.maps (e, v)), shared (p.maps (e, v))⟩ ∧
      p'.maps = update (update p.maps (c, v) (childEntry (p.maps (e, v)))) (e, v)
        (selfEntry (p.maps (e, v))) := by
  rcases forkPage_maps hne hv (.inr hp) with ⟨p', hrun, hmaps⟩
  refine ⟨p', hrun, ?_, hmaps⟩
  rw [hmaps, view_update, view_update, cell_childEntry hp, cell_selfEntry hp, protectBoth]

/-- A page that is not there is left out. -/
theorem forkPage_absent (hv : v ≠ stackPage) (hp : p.present (e, v) = false) :
    dupCalls p e c v (forkPage p e v) = some p := by
  have hno : ¬(v = stackPage ∨ p.present (e, v) = true) := by
    rw [hp]
    simpa using hv
  rw [forkPage, if_neg hno, dupCalls]

/-- The stack of the parent is there, and the given pages of both are secure. -/
structure Guarded (V : Set Nat) (e c : Nat) (maps : Nat × Nat → Pte) : Prop where
  stack : hasFlags (maps (e, stackPage)) pteP = true
  secure : ∀ z : Nat × Nat, z.1 = e ∨ z.1 = c → z.2 ∈ V → Secure (view maps) z

theorem hasFlags_of_cell (h : cell w = some d) :
    hasFlags w pteP = true := (cell_eq_some h).1

/-- One page of the loop keeps the pages secure. -/
theorem Guarded.page {p' : Pages} (hne : e ≠ c) (hv : v ≤ stackPage) (h : Guarded V e c p.maps)
    (hrun : dupCalls p e c v (forkPage p e v) = some p') : Guarded V e c p'.maps := by
  by_cases hp : p.present (e, v) = true
  · rcases forkPage_view hne hv hp with ⟨p1, hrun1, hview, hmaps⟩
    rw [hrun] at hrun1
    cases hrun1
    refine ⟨?_, ?_⟩
    · rw [hmaps]
      by_cases hvs : (e, stackPage) = (e, v)
      · rw [hvs, update_self]
        exact hasFlags_of_cell (cell_selfEntry hp)
      · have hec : (e, stackPage) ≠ (c, v) := fun hc => hne (congrArg Prod.fst hc)
        rw [update_of_ne hvs, update_of_ne hec]
        exact h.stack
    · intro z hz hzV
      rw [hview]
      refine Secure.protect (cell_of_present hp) ?_ (fun _ _ => h.secure z hz hzV)
      -- both places have the page number `v`
      intro hzv
      have hzv2 : z.2 = v := by
        rcases hzv with hzv | hzv
        · rw [hzv]
        · rw [hzv]
      exact h.secure (e, v) (.inl rfl) (hzv2 ▸ hzV)
  · have hpf : p.present (e, v) = false := Bool.eq_false_iff.2 hp
    have hvs : v ≠ stackPage := by
      intro hc
      rw [hc] at hp
      exact hp h.stack
    rw [forkPage_absent hvs hpf] at hrun
    cases hrun
    exact h

/-- The cells after a write that copies a page. -/
theorem view_fault (hpp : pp < 2 ^ 52)
    (h : m'.pages.maps = update (update m.pages.maps x (Vm.insertedEntry pp 7))
      (x.1, Ram.pftempPage) 0) :
    view m'.pages.maps = update (update (view m.pages.maps) x
      (some ⟨pp, true, false⟩)) (x.1, Ram.pftempPage) none := by
  rw [h, view_update, view_update, cell_ownEntry hpp, cell_zero]

/-- A write of anyone keeps all pages secure. -/
theorem secure_write {z : Nat × Nat} (h : m.write x off b pp = some m')
    (hfresh : freshIf m x pp) (hz : Secure (view m.pages.maps) z) :
    Secure (view m'.pages.maps) z := by
  rcases Ram.write_cases h hfresh with ⟨_, hm'⟩ | ⟨hw, _, _, hmaps, _, _⟩
  · rwa [hm']
  · rw [view_fault (hfresh hw).lt hmaps]
    exact (Secure.fresh (fun _ => hz) (hfresh hw).unused).unmap _

/-- The entries that a write leaves alone. -/
theorem entry_write (h : m.write x off b pp = some m') (hfresh : freshIf m x pp) (hy : y ≠ x)
    (htemp : y.1 = x.1 → y.2 ≠ Ram.pftempPage) : m'.entry y = m.entry y := by
  rcases Ram.write_cases h hfresh with ⟨_, hm'⟩ | ⟨_, _, _, hmaps, _, _⟩
  · rw [hm']
    rfl
  · have hyt : y ≠ (x.1, Ram.pftempPage) := by
      intro hc
      rw [hc] at htemp
      exact htemp rfl rfl
    rw [Ram.entry, hmaps, update_of_ne hyt, update_of_ne hy]
    rfl

/-- No page of the range is that of `PFTEMP`. -/
theorem ne_pftemp (h : firstPage ≤ v) : v ≠ Ram.pftempPage := by
  simp only [firstPage, utext, pgSize, Ram.pftempPage] at h ⊢
  omega

/-- The cell at the place of a write, if it was not writable, is a new one. -/
theorem cell_write (h : m.write x off b pp = some m') (hfresh : freshIf m x pp) :
    (m'.entry x = m.entry x ∧ writable (m.entry x) = true) ∨
      (cell (m'.entry x) = some ⟨pp, true, false⟩ ∧ m.pages.present x = true ∧
        cow (m.entry x) = true ∧ writable (m.entry x) = false) := by
  rcases Ram.write_cases h hfresh with ⟨hw, hm'⟩ | ⟨hw, hp, hc, hmaps, _, hx⟩
  · rw [hm']
    exact .inl ⟨rfl, hw⟩
  · have hxt : x ≠ (x.1, Ram.pftempPage) := fun hc => hx (congrArg Prod.snd hc)
    refine .inr ⟨?_, hp, hc, hw⟩
    rw [Ram.entry, hmaps, update_of_ne hxt, update_self]
    exact cell_ownEntry (hfresh hw).lt

theorem stack_in_range : firstPage ≤ stackPage := by
  simp only [firstPage, stackPage, utext, ustacktop, utop, pgSize]
  omega

variable (h : m.write x off b pp = some m') (hfresh : freshIf m x pp)
include h hfresh

/-- A write keeps what is there in the range. -/
theorem present_write {a : Nat} (hv : firstPage ≤ v) (hp : m.pages.present (a, v) = true) :
    m'.pages.present (a, v) = true := by
  by_cases hx : (a, v) = x
  · rw [hx] at hp ⊢
    rcases cell_write h hfresh with ⟨hentry, _⟩ | ⟨hcell, _, _, _⟩
    · exact (congrArg (fun w => hasFlags w pteP) hentry).trans hp
    · exact hasFlags_of_cell hcell
  · have hentry := entry_write h hfresh hx fun _ => ne_pftemp hv
    exact (congrArg (fun w => hasFlags w pteP) hentry).trans hp

theorem Guarded.write (hg : Guarded V e c m.pages.maps) : Guarded V e c m'.pages.maps :=
  ⟨present_write h hfresh stack_in_range hg.stack,
    fun z hz hzV => secure_write h hfresh (hg.secure z hz hzV)⟩

/-- A copy is not read in another environment, so that only a store to the page itself can be. -/
theorem read_other (hy : y.1 ≠ x.1)
    (hstore : writable (m.entry x) = true → contents (view m.pages.maps) (m.store x off b).bytes y =
      contents (view m.pages.maps) m.bytes y) (i : Nat) : m'.read y i = m.read y i := by
  refine Ram.read_congr ?_ i
  rcases Ram.write_cases h hfresh with ⟨hw, rfl⟩ | ⟨hw, _, _, hmaps, hbytes, _⟩
  · exact hstore hw
  · have hne : ∀ z : Nat × Nat, z.1 = x.1 → y ≠ z := by
      rintro z hz rfl
      exact hy hz
    have hview : view m'.pages.maps y = view m.pages.maps y := by
      rw [view_fault (hfresh hw).lt hmaps, update_of_ne (hne (x.1, Ram.pftempPage) rfl),
        update_of_ne (hne x rfl)]
    rw [hbytes, contents, hview]
    exact contents_unused (hfresh hw).unused

/-- A write to a page that is secure and not shared is not read in any other environment. -/
theorem read_write (hx : Secure (view m.pages.maps) x) (hs : shared (m.entry x) = false)
    (hy : y.1 ≠ x.1) (i : Nat) : m'.read y i = m.read y i := by
  refine read_other h hfresh hy (fun hw => ?_) i
  exact contents_store hx (cell_of_present (present_of_writable hw)) hw hs
    fun hc => hy (congrArg Prod.fst hc)

/-- No write of another environment is read at a page that is secure and not shared. -/
theorem read_of_secure (hy : Secure (view m.pages.maps) y)
    (hs : ∀ d, view m.pages.maps y = some d → d.share = false) (hne : y.1 ≠ x.1) (i : Nat) :
    m'.read y i = m.read y i := by
  have hxy : x ≠ y := fun hc => hne (congrArg Prod.fst hc).symm
  refine read_other h hfresh hne (fun hw => contents_update ?_) i
  have hx : view m.pages.maps x = _ := cell_of_present (present_of_writable hw)
  intro d hd hframe
  -- the page would be written to at `x` and be named at `y`
  cases hdw : d.write with
  | true => exact (hy d hd (hs d hd)).1 hdw x _ hxy hx hframe.symm
  | false =>
    have hfrozen := (hy d hd (hs d hd)).2 hdw x _ hx hframe.symm
    cases (hfrozen.symm.trans hw)

end Jos.Cow
