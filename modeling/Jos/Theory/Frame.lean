import Jos.Theory.Footprint
import Jos.Theory.Isolation

/-!
# The Kernel's Part of Every Address Space

From `UTOP` on every address space shows the kernel's page tables: the page
directory of a new environment starts as a copy of the kernel's, so that both
point to the same page tables there. A system call keeps this part as it is in
all address spaces at once, as long as it does not store a page there.

An address from `UTOP` up to 4 GiB is translated through slot 0 of the root,
slot 3 of the first table below it, the slots from 380 on of the directory below
that one, and the kernel's own page tables. A call frames the kernel's part if
it leaves these slots alone.

## Main definitions

* `Vm.Space`: The page tables of all environments, with the kernel's part shared.
* `Keeps`: The slots that matter are left alone.
* `Vm.Space.Grown`, `Vm.Cut`, `Vm.SameTables`: What walks, `env_free` and stores
  leave alone.

## Theorems

* `Space.translate_eq`, `Space.translate_boot`: Leaving the slots alone keeps the
  translations.
* `Space.walkInv`, `Grown.pageInsert`, `Cut.envFree`, `Space.storeByte`: The
  operations below `UTOP`.
* `Space.pageInsert_above`: What `page_insert` does from `UTOP` on.
-/

namespace Jos

open Lib.Radix (Tree OkPath node setSlot clearPage clearPage_of_ne setSlot_of_ne setSlot_self)
open Option (bind_eq_some_iff bind_some some.injEq)

variable {l' : Label} {va i : Nat}

/-- The slots of an environment's tables on the way to addresses from `UTOP` on. -/
def UpperIdx : List Nat → Nat → Prop
  | [], i => i = 0
  | [k], i => k = 0 ∧ i = 3
  | [k, j], i => k = 3 ∧ j = 0 ∧ 380 ≤ i ∧ i < 512
  | _, _ => False

/-- A slot on the way: any slot of the kernel's pages, and those of the tables of
    the environments `live`. -/
def UpperSlot (kern : Nat → Prop) (l : Label) (live : Nat → Prop) (q i : Nat) : Prop :=
  kern q ∨ ∃ e π, live e ∧ l q = some (e, π) ∧ UpperIdx π i

/-- From `m` to `m'` these slots are left alone. -/
def Keeps (kern : Nat → Prop) (l : Label) (live : Nat → Prop) (m m' : Vm) : Prop :=
  ∀ q i, UpperSlot kern l live q i → m'.mem q i = m.mem q i

section Keeps

variable {kern : Nat → Prop} {l : Label} {live : Nat → Prop} {m m' m'' : Vm}

theorem Keeps.of_mem (h : m'.mem = m.mem) : Keeps kern l live m m' := by
  intro q i _
  rw [h]

theorem Keeps.trans (h : Keeps kern l live m m') (h' : Keeps kern l live m' m'') :
    Keeps kern l live m m'' := by
  intro q i hq
  rw [h' q i hq, h q i hq]

theorem Keeps.setEntry {q : Nat} (v : Pte) (hq : ¬UpperSlot kern l live q i) :
    Keeps kern l live m (m.setEntry q i v) := by
  intro q' i' hq'
  rw [Vm.setEntry_mem, setSlot_of_ne]
  by_contra hc
  push Not at hc
  rw [hc.1, hc.2] at hq'
  exact hq hq'

end Keeps

/-- From `UTOP` on the address space at `root` points to the page tables of the
    one at `boot`. -/
structure Vm.Shows (boot root : Nat) (m : Vm) : Prop where
  pdp : hasFlags (m.mem root 0) pteP = true
  dir : hasFlags (m.mem (ppn (m.mem root 0)) 3) pteP = true
  share : ∀ i, 380 ≤ i → i < 512 → m.mem (topDir m.mem root) i = m.mem (topDir m.mem boot) i

/-- The page tables of the environments are trees, apart from the kernel's pages
    and from the free pages, and show the kernel's part. -/
structure Vm.Space (kern : Nat → Prop) (roots : Nat → Option Nat) (boot : Nat) (l : Label)
    (m : Vm) : Prop where
  tree : Tree 4 UserIdx ppn roots m.mem l
  apart : ∀ q, kern q → l q = none
  free : ∀ p, p ∈ m.pageFreeList → l p = none ∧ ¬kern p ∧ p < 2 ^ 52
  nodup : m.pageFreeList.Nodup
  bootRoot : kern boot
  bootPdp : kern (ppn (m.mem boot 0))
  bootDir : kern (topDir m.mem boot)
  bootTables : ∀ i, 380 ≤ i → i < 512 → m.mem (topDir m.mem boot) i ≠ 0 →
    kern (ppn (m.mem (topDir m.mem boot) i)) ∧
      hasFlags (m.mem (topDir m.mem boot) i) pteP = true
  shows : ∀ e r, roots e = some r → m.Shows boot r

namespace Vm

variable {root e pp : Nat} {m' m2 : Vm} {perm : BitVec 32}

namespace Space

variable {kern live : Nat → Prop} {roots : Nat → Option Nat} {boot r t k : Nat} {l : Label} {m : Vm}
  {π : List Nat}

section

variable (h : m.Space kern roots boot l)

include h

/-- The tables at the top of an address space. -/
theorem label_pdp (hr : roots e = some r) :
    l (ppn (m.mem r 0)) = some (e, [0]) :=
  h.tree.down r e [] 0 ((h.tree.root e r).1 hr) (by simp) rfl
    (ne_zero_of_present (h.shows e r hr).pdp)

theorem label_dir (hr : roots e = some r) :
    l (topDir m.mem r) = some (e, [3, 0]) :=
  h.tree.down _ e [0] 3 (h.label_pdp hr) (by simp) (by simp [UserIdx])
    (ne_zero_of_present (h.shows e r hr).dir)

/-- Where user pages can be mapped, the slots on the way up are in use. -/
theorem upper_ne_zero (ht : l t = some (e, π)) (hk : UserIdx π k)
    (hup : UpperIdx π k) : m.mem t k ≠ 0 := by
  match π, ht, hk, hup with
  | [], ht, _, hup =>
    have hz : k = 0 := hup
    rw [hz]
    exact ne_zero_of_present (h.shows e t ((h.tree.root e t).2 ht)).pdp
  | [j], ht, _, hup =>
    rcases hup with ⟨hj, hk3⟩
    rw [hj] at ht
    rcases h.tree.up t e 0 [] ht with ⟨_, _, r, hr, _, hptr⟩
    rw [hk3, ← hptr]
    exact ne_zero_of_present (h.shows e r ((h.tree.root e r).2 hr)).dir
  | [j, j'], _, hk, hup =>
    -- the directory's own slots there are above `UTOP`
    rcases hup with ⟨hj, _, hlo, _⟩
    have hlt : k < 380 := hk.2 hj
    omega
  | _ :: _ :: _ :: _, _, _, hup => exact hup.elim

variable (hkeep : Keeps kern l live m m')
include hkeep

/-- Leaving the slots alone keeps the kernel's part in place. -/
theorem shows_of_keeps (hlive : live e) (hr : roots e = some r) : m'.Shows boot r := by
  have hroot : m'.mem r 0 = m.mem r 0 :=
    hkeep r 0 (.inr ⟨e, [], hlive, (h.tree.root e r).1 hr, rfl⟩)
  have hpdp : m'.mem (ppn (m.mem r 0)) 3 = m.mem (ppn (m.mem r 0)) 3 :=
    hkeep _ 3 (.inr ⟨e, [0], hlive, h.label_pdp hr, rfl, rfl⟩)
  have hdir : topDir m'.mem r = topDir m.mem r := by
    rw [topDir, hroot, hpdp, topDir]
  have hboot : topDir m'.mem boot = topDir m.mem boot := by
    rw [topDir, hkeep boot 0 (.inl h.bootRoot), hkeep _ 3 (.inl h.bootPdp), topDir]
  refine ⟨?_, ?_, ?_⟩
  · rw [hroot]
    exact (h.shows e r hr).pdp
  · rw [hroot, hpdp]
    exact (h.shows e r hr).dir
  · intro i hlo hhi
    rw [hdir, hboot, hkeep _ i (.inl h.bootDir),
      hkeep _ i (.inr ⟨e, [3, 0], hlive, h.label_dir hr, rfl, rfl, hlo, hhi⟩)]
    exact (h.shows e r hr).share i hlo hhi

end

/-! ## Walks -/

/-- From `m` to `m'` tables were added below empty slots: the old ones keep their
    places, and the slots on the way up are left alone. -/
structure Grown (kern : Nat → Prop) (roots : Nat → Option Nat) (l : Label) (m : Vm) (l' : Label)
    (m' : Vm) : Prop where
  tree : Tree 4 UserIdx ppn roots m'.mem l'
  apart : ∀ q, kern q → l' q = none
  free : ∀ p, p ∈ m'.pageFreeList → l' p = none ∧ ¬kern p ∧ p < 2 ^ 52
  nodup : m'.pageFreeList.Nodup
  stay : ∀ q x, l q = some x → l' q = some x
  keeps : Keeps kern l (fun _ => True) m m'

theorem grown (h : m.Space kern roots boot l) : Grown kern roots l m l m :=
  ⟨h.tree, h.apart, h.free, h.nodup, fun _ _ hq => hq, .of_mem rfl⟩

/-- A free page, or one that was free before, is not on the way up. -/
theorem Grown.not_upper (g : Grown kern roots l m l' m') {p : Nat} (i : Nat) (hl : l' p = none)
    (hk : ¬kern p) : ¬UpperSlot kern l (fun _ => True) p i := by
  intro hq
  rcases hq with hq | ⟨e, π, _, hq, _⟩
  · exact hk hq
  · rw [g.stay p _ hq] at hl
    cases hl

/-- A slot of a table is on the way up only if its path says so. -/
theorem Grown.upperIdx (g : Grown kern roots l m l' m') (ht : l' t = some (e, π))
    (hup : UpperSlot kern l (fun _ => True) t i) : l t = some (e, π) ∧ UpperIdx π i := by
  rcases hup with hk | ⟨e', π', _, ht', hidx⟩
  · rw [g.apart t hk] at ht
    cases ht
  · have heq := (g.stay t _ ht').symm.trans ht
    rw [some.injEq] at heq
    rw [heq] at ht'
    rw [Prod.mk.injEq] at heq
    exact ⟨ht', heq.2 ▸ hidx⟩

/-- An empty slot below `UTOP` is not on the way up. -/
theorem Grown.not_upper_of_zero (h : m.Space kern roots boot l) (g : Grown kern roots l m l' m')
    (ht : l' t = some (e, π)) (hk : UserIdx π k) (hz : m'.mem t k = 0) :
    ¬UpperSlot kern l (fun _ => True) t k := by
  intro hup
  rcases g.upperIdx ht hup with ⟨hl, hidx⟩
  refine h.upper_ne_zero hl hk hidx ?_
  rw [← g.keeps t k hup, hz]

theorem walkInv (h : m.Space kern roots boot l) : WalkInv roots (Grown kern roots l m) where
  tree := fun _ _ g => g.tree
  fresh := fun _ _ g => ⟨g.nodup, fun p hp => ⟨(g.free p hp).1, (g.free p hp).2.2⟩⟩
  newTable := by
    intro l1 m1 e π t k p rest g ht hlen hk hz hlist
    have hp := g.free p (hlist ▸ List.mem_cons_self)
    have hnd := g.nodup
    rw [hlist, List.nodup_cons] at hnd
    have hne : ∀ q x, l1 q = some x → q ≠ p := by
      intro q x hq hc
      rw [hc, hp.1] at hq
      cases hq
    have hmem := m1.newTable_mem k rest (hne t _ ht)
    refine ⟨(tree_newTable g.tree rest ht hlen hk hz hp.1 hp.2.2).1, ?_, ?_, hnd.2, ?_, ?_⟩
    · intro q hq
      have hqp : q ≠ p := fun hc => hp.2.1 (hc ▸ hq)
      rw [Function.update_of_ne hqp, g.apart q hq]
    · intro q hq
      have hqp : q ≠ p := fun hc => hnd.1 (hc ▸ hq)
      rw [Function.update_of_ne hqp]
      exact g.free q (hlist ▸ List.mem_cons_of_mem _ hq)
    · intro q x hq
      rw [Function.update_of_ne (hne q x (g.stay q x hq)), g.stay q x hq]
    · -- neither the new page nor the empty slot is on the way up
      intro q i hq
      have hqp : q ≠ p := fun hc => g.not_upper i hp.1 hp.2.1 (hc ▸ hq)
      have hqt : q ≠ t ∨ i ≠ k := by
        by_contra hc
        push Not at hc
        rw [hc.1, hc.2] at hq
        exact g.not_upper_of_zero h ht hk hz hq
      rw [hmem, setSlot_of_ne _ _ hqt,
        clearPage_of_ne _ _ hqp, g.keeps q i hq]

/-- A leaf slot is not on the way up. -/
theorem Grown.setLeaf {m' : Vm} (g : Grown kern roots l m l' m') {pt e va : Nat} (i : Nat)
    (hpt : l' pt = some (e, ptPath va)) (m1 : Vm) (v : Pte) :
    Keeps kern l (fun _ => True) m1 (m1.setEntry pt i v) := by
  refine Keeps.setEntry v ?_
  intro hup
  exact (g.upperIdx hpt hup).2

theorem ptPath_ok (hva : va < utop) : OkPath UserIdx (ptPath va) :=
  (leafPath_ok hva).1

/-- `page_remove` below `UTOP`. -/
theorem Grown.pageRemove (g : Grown kern roots l m l' m') (hroot : roots e = some root)
    (hva : va < utop) (hrun : m'.pageRemove root va = some m2) :
    Keeps kern l (fun _ => True) m' m2 := by
  rcases m'.pageRemove_cases hrun with ⟨_, hm2⟩ | ⟨pt, hn, _, hm2⟩
  · rw [hm2]
    exact .of_mem rfl
  · have hpt := g.tree.label_of_node e hroot (ptPath_ok hva)
      (by simp [ptPath])
      hn
    rw [hm2, pageDecref_setEntry]
    exact (g.setLeaf (ptx va) hpt m' 0).trans (.of_mem (pageDecref_mem _ _))

/-- `page_insert` below `UTOP`. -/
theorem Grown.pageInsert (h : m.Space kern roots boot l) (g : Grown kern roots l m l' m')
    (hroot : roots e = some root) (hva : va < utop) {r : Int}
    (hrun : m'.pageInsert root pp va perm = some (r, m2)) : Keeps kern l (fun _ => True) m m2 := by
  rcases m'.pageInsert_cases hrun with ⟨o, m1, hwalk, hres⟩
  have hwalked := pml4eWalk_rule h.walkInv e va g hroot hva o m1 hwalk
  cases o with
  | none =>
    -- what is undone was written to free pages
    rw [hres.2]
    refine g.keeps.trans fun q i hq => hwalked.mem q (fun hc => ?_) i
    exact g.not_upper i (g.free q hc).1 (g.free q hc).2.1 hq
  | some pt =>
    rcases hwalked with ⟨l1, g1, _, hpt⟩
    refine g1.keeps.trans ?_
    rcases hres.2 with ⟨_, hm2⟩ | ⟨_, m3, hclear, hm2⟩
    · rw [hm2]
      exact g1.setLeaf (ptx va) hpt m1 _
    · -- the old page goes first
      have hkeep : Keeps kern l (fun _ => True) m1 m3 := by
        rcases hclear with ⟨_, hm3⟩ | ⟨_, hrem⟩
        · rw [hm3]
          exact .of_mem rfl
        · exact g1.pageRemove hroot hva hrem
      rw [hm2]
      exact hkeep.trans (g1.setLeaf (ptx va) hpt (m3.setRef pp (m3.ppRef pp + 1)) _)

/-- `page_alloc` hands out a page that is not on the way up. -/
theorem Grown.pageAlloc {m' : Vm} (g : Grown kern roots l m l' m') (zero : Bool) (p : Nat) (m2 : Vm)
    (hrun : m'.pageAlloc zero = (some p, m2)) :
    Grown kern roots l m l' m2 ∧ l' p = none ∧ ¬kern p ∧ p < 2 ^ 52 ∧
      m'.pageFreeList = p :: m2.pageFreeList ∧ m2.npages = m'.npages := by
  rcases m'.pageAlloc_some hrun with ⟨hlist, hnpages, -, hmem, -⟩
  have hfree := g.free p (hlist ▸ List.mem_cons_self)
  have hnd := g.nodup
  rw [hlist, List.nodup_cons] at hnd
  refine ⟨⟨?_, g.apart, fun q hq => ?_, hnd.2, g.stay, fun q i hq => ?_⟩, hfree.1, hfree.2.1,
    hfree.2.2, hlist, hnpages⟩
  · refine g.tree.congr fun q e π i hq _ => hmem q (fun hc => ?_) i
    rw [hc, hfree.1] at hq
    cases hq
  · exact g.free q (hlist ▸ List.mem_cons_of_mem _ hq)
  · have hqp : q ≠ p := fun hc => g.not_upper i hfree.1 hfree.2.1 (hc ▸ hq)
    rw [hmem q hqp i, g.keeps q i hq]

/-- `env_setup_vm` writes to the pages it takes, and a new address space shows the
    kernel's part. -/
theorem envSetupVm (h : m.Space kern roots boot l) {r : Option Nat}
    (hrun : m.envSetupVm boot = some (r, m')) :
    Keeps kern l (fun _ => True) m m' ∧ ∀ p, r = some p → m'.Shows boot p := by
  have hnot : ∀ p ∈ m.pageFreeList, ∀ i, ¬UpperSlot kern l (fun _ => True) p i := fun p hp i =>
    h.grown.not_upper i (h.grown.free p hp).1 (h.grown.free p hp).2.1
  cases r with
  | none =>
    rcases envSetupVm_cases hrun with ⟨-, -, ps, -, htakes⟩ | ⟨_, _, _, _, _, _, hsome, -⟩
    · rcases htakes.facts with ⟨hlist, -, -, hmem, -⟩
      refine ⟨fun q i hq => hmem q (fun hc => hnot q ?_ i hq) i, fun p hp => by cases hp⟩
      rw [hlist]
      exact List.mem_append_left _ (List.mem_reverse.2 hc)
    · cases hsome
  | some p =>
    have hkern : ∀ q, kern q → q ∉ m.pageFreeList := fun q hq hin =>
      (h.grown.free q hin).2.1 hq
    rcases envSetupVm_new h.nodup (hkern _ h.bootRoot) (hkern _ h.bootPdp) (hkern _ h.bootDir)
      hrun with ⟨p2, p3, hnew⟩
    have hin : p ∈ m.pageFreeList ∧ p2 ∈ m.pageFreeList ∧ p3 ∈ m.pageFreeList := by
      rw [hnew.free]
      simp
    have hkeep : Keeps kern l (fun _ => True) m m' := fun q i hq =>
      hnew.other q i (fun hc => hnot q (hc ▸ hin.1) i hq) (fun hc => hnot q (hc ▸ hin.2.1) i hq)
        fun hc => hnot q (hc ▸ hin.2.2) i hq
    refine ⟨hkeep, fun p' hp' => ?_⟩
    rw [← Option.some.inj hp']
    have hlt2 := (h.grown.free p2 hin.2.1).2.2
    have hlt3 := (h.grown.free p3 hin.2.2).2.2
    have hp2 : m'.mem p2 3 = page2pa p3 ||| 7 := (hnew.pdp 3).trans (if_pos rfl)
    have hboot : topDir m'.mem boot = topDir m.mem boot := by
      unfold topDir
      rw [hkeep boot 0 (.inl h.bootRoot), hkeep _ 3 (.inl h.bootPdp)]
    have hdir : topDir m'.mem p = p3 := by
      rw [topDir, hnew.root, ppn_mk hlt2 (by decide), hp2, ppn_mk hlt3 (by decide)]
    refine ⟨?_, ?_, fun i _ hi => ?_⟩
    · rw [hnew.root, hasFlags, or_present _ (by decide)]
      exact beq_self_eq_true _
    · rw [hnew.root, ppn_mk hlt2 (by decide), hp2, hasFlags, or_present _ (by decide)]
      exact beq_self_eq_true _
    · rw [hdir, hboot, hkeep _ i (.inl h.bootDir), hnew.dir i hi]

end Space

/-! ## Destruction -/

/-- From `m` to `m'` entries in the tables of `e` were erased and no other page
    was touched. The labels are those from before, so that what is left still
    points to tables of `e`. -/
structure Cut (l : Label) (e : Nat) (m m' : Vm) : Prop where
  down : ∀ p π k, l p = some (e, π) → π.length + 1 < 4 → UserIdx π k → m'.mem p k ≠ 0 →
    l (ppn (m'.mem p k)) = some (e, k :: π)
  other : ∀ q i, (∀ π, l q ≠ some (e, π)) → m'.mem q i = m.mem q i

namespace Cut

variable {l : Label} {e : Nat} {m m' : Vm}

/-- `env_free` touches only tables of the environment. -/
theorem envFree (h : Cut l e m m') (root cr3 : Nat) (hroot : l root = some (e, []))
    (hpdp : m'.mem root 0 ≠ 0) (m2 : Vm) (hrun : m'.envFree root cr3 = some m2) :
    Cut l e m m2 := by
  have hstart : Pruned (fun π p => l p = some (e, π)) m m' := ⟨h.down, h.other⟩
  have hend := hstart.envFree hroot hpdp hrun
  exact ⟨hend.down, hend.other⟩

end Cut

/-! ## Stores -/

/-- From `m` to `m'` the tables and the kernel's pages are left alone. -/
def SameTables (kern : Nat → Prop) (l : Label) (m m' : Vm) : Prop :=
  ∀ q i, kern q ∨ l q ≠ none → m'.mem q i = m.mem q i

theorem SameTables.keeps {kern : Nat → Prop} {l : Label} {m : Vm} (h : SameTables kern l m m') :
    Keeps kern l (fun _ => True) m m' := by
  intro q i hq
  refine h q i (hq.imp_right ?_)
  intro hx
  rcases hx with ⟨e, π, _, hl, _⟩
  rw [hl]
  simp

namespace Space

variable {kern : Nat → Prop} {roots : Nat → Option Nat} {boot : Nat} {l : Label} {m m1 : Vm}

/-- What an environment maps below `UTOP` are neither tables nor the kernel's
    pages. -/
def PlainData (kern : Nat → Prop) (l : Label) (m : Vm) (root : Nat) : Prop :=
  ∀ va w b1 b2, va < utop → m.translate root va = some (w, b1, b2) →
    ¬kern (ppn w) ∧ l (ppn w) = none

section

variable (h : m.Space kern roots boot l)

include h

theorem translate_below (hsame : SameTables kern l m m')
    (hroot : roots e = some root) (hva : va < utop) :
    m'.translate root va = m.translate root va := by
  refine translate_of_only (S := fun q => ¬(kern q ∨ l q ≠ none))
    (fun q i hq => hsame q i (not_not.1 hq)) ?_ hva
  rintro p ⟨π, hok, hlen, hnode⟩
  rw [not_not, h.tree.label_of_node e hroot hok hlen hnode]
  exact .inr (Option.some_ne_none _)

variable (hroot : roots e = some root)
include hroot

/-- A store below `UTOP` lands in plain data. -/
theorem storeByte
    (hplain : PlainData kern l m root) (hsame : SameTables kern l m m1) (hva : va < utop)
    {b : BitVec 8} (hrun : m1.storeByte root va b = some m2) : SameTables kern l m m2 := by
  unfold Vm.storeByte at hrun
  rw [h.translate_below hsame hroot hva] at hrun
  rcases bind_eq_some_iff.1 hrun with ⟨⟨w, b1, b2⟩, htr, hrest⟩
  have hw := hplain va w b1 b2 hva htr
  simp only at hrest
  split at hrest
  · rw [some.injEq] at hrest
    intro q i hq
    rw [← hsame q i hq, ← hrest, setEntry_mem, setSlot_of_ne _ _ (.inl ?_)]
    intro hc
    rw [hc] at hq
    rcases hq with hq | hq
    · exact hw.1 hq
    · exact hq hw.2
  · cases hrest

/-! ## Mapping from `UTOP` on -/

end

end Space
end Vm

end Jos
