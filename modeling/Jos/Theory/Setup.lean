import Jos.Core.Env
import Jos.Theory.Walk

/-!
# New Page Tables

`env_setup_vm` takes three pages for a root, a page of directory pointers and the fourth
directory, connects them and copies the kernel's directory. If there are not enough pages, it
keeps those that it has taken.

## Main definitions

* `Vm.Takes`: Pages that were taken from the free list.
* `Vm.connect`: The three tables in place.
* `Vm.NewSpace`: What a new address space looks like.

## Theorems

* `Vm.envSetupVm_cases`: What `env_setup_vm` can do.
* `Vm.envSetupVm_new`: What it leaves if it succeeds.
-/

namespace Jos

open Lib.Radix (setSlot setSlot_of_ne setSlot_self)

/-- The page directory for the fourth GiB. -/
def topDir (mem : Nat → Nat → Pte) (root : Nat) : Nat := ppn (mem (ppn (mem root 0)) 3)

namespace Vm

/-- Blank pages taken with `page_alloc`, the last one first. -/
inductive Takes (m : Vm) : List Nat → Vm → Prop
  | none : Takes m [] m
  | next {ps : List Nat} {p : Nat} {m1 m2 : Vm} (h : Takes m ps m1)
      (halloc : m1.pageAlloc true = (some p, m2)) : Takes m (p :: ps) m2

variable {m m' : Vm} {boot : Nat}

/-- The pages come from the front of the free list, and nothing else changes. -/
theorem Takes.facts {ps : List Nat} (h : Takes m ps m') :
    m.pageFreeList = ps.reverse ++ m'.pageFreeList ∧ m'.npages = m.npages ∧ m'.ppRef = m.ppRef ∧
      (∀ q, q ∉ ps → ∀ i, m'.mem q i = m.mem q i) ∧ ∀ p ∈ ps, ∀ i, m'.mem p i = 0 := by
  induction h with
  | none => exact ⟨rfl, rfl, rfl, fun _ _ _ => rfl, fun _ hp => absurd hp List.not_mem_nil⟩
  | @next ps p m1 m2 _ halloc ih =>
    rcases ih with ⟨hlist, hn, hr, hmem, hzero⟩
    rcases m1.pageAlloc_some halloc with ⟨hlist', hn', hr', hmem', hzero'⟩
    refine ⟨?_, hn'.trans hn, hr'.trans hr, fun q hq i => ?_, fun q hq i => ?_⟩
    · rw [hlist, hlist', List.reverse_cons, List.append_assoc, List.singleton_append]
    · rw [List.mem_cons, not_or] at hq
      rw [hmem' q hq.1, hmem q hq.2]
    · by_cases hqp : q = p
      · rw [hqp, hzero' rfl]
      · rw [hmem' q hqp, hzero q ((List.mem_cons.1 hq).resolve_left hqp)]

/-- How `env_setup_vm` connects the tables of a new address space. -/
def connect (m : Vm) (p p2 p3 : Nat) : Vm :=
  let m := m.setEntry p 0 (page2pa p2 ||| 7)
  let m := m.setEntry p2 3 (page2pa p3 ||| 7)
  let m := m.setRef p (m.ppRef p + 1)
  let m := m.setRef p2 (m.ppRef p2 + 1)
  m.setRef p3 (m.ppRef p3 + 1)

theorem connect_other (m : Vm) {p p2 q : Nat} (p3 : Nat) (h : q ≠ p) (h2 : q ≠ p2) :
    (∀ i, (m.connect p p2 p3).mem q i = m.mem q i) ∧
      (q ≠ p3 → (m.connect p p2 p3).ppRef q = m.ppRef q) := by
  refine ⟨?_, ?_⟩
  · intro i
    simp only [connect, setRef_mem, setEntry_mem]
    rw [setSlot_of_ne _ _ (.inl h2),
      setSlot_of_ne _ _ (.inl h)]
  · intro h3
    simp only [connect, setRef_ppRef, setEntry_ppRef]
    rw [Function.update_of_ne h3, Function.update_of_ne h2, Function.update_of_ne h]

/-- `env_setup_vm` runs out of pages, or finishes with the three that it has taken. -/
theorem envSetupVm_cases {o : Option Nat} (hrun : m.envSetupVm boot = some (o, m')) :
    (o = none ∧ m'.pageFreeList = [] ∧ ∃ ps, ps.length < 3 ∧ Takes m ps m') ∨
    ∃ p p2 p3 m3 kpdp kdir, o = some p ∧ Takes m [p3, p2, p] m3 ∧
      kpdp = ppn ((m3.connect p p2 p3).mem boot 0) ∧
      kdir = ppn ((m3.connect p p2 p3).mem kpdp 3) ∧
      m' = ((m3.connect p p2 p3).copyEntries p3 kdir 0).setEntry p 2 (page2pa p ||| 5) := by
  have hfail : ∀ (ps : List Nat) (m1 m2 : Vm), ps.length < 3 → Takes m ps m1 →
      m1.pageAlloc true = (none, m2) → some (none, m2) = some (o, m') →
      o = none ∧ m'.pageFreeList = [] ∧ ∃ ps, ps.length < 3 ∧ Takes m ps m' := by
    intro ps m1 m2 hlen htakes halloc hout
    rw [Option.some.injEq, Prod.mk.injEq] at hout
    rw [← hout.2, m1.pageAlloc_none halloc]
    refine ⟨hout.1.symm, ?_, ps, hlen, htakes⟩
    unfold pageAlloc at halloc
    split at halloc
    · assumption
    · cases (Prod.mk.inj halloc).1
  unfold envSetupVm at hrun
  rcases ha1 : m.pageAlloc true with ⟨_ | p, m1⟩
  · rw [ha1] at hrun
    exact .inl (hfail [] m m1 (by simp) .none ha1 hrun)
  have h1 := Takes.none.next ha1
  rcases ha2 : m1.pageAlloc true with ⟨_ | p2, m2⟩
  · simp only [ha1, ha2] at hrun
    exact .inl (hfail _ m1 m2 (by simp) h1 ha2 hrun)
  have h2 := h1.next ha2
  rcases ha3 : m2.pageAlloc true with ⟨_ | p3, m3⟩
  · simp only [ha1, ha2, ha3] at hrun
    exact .inl (hfail _ m2 m3 (by simp) h2 ha3 hrun)
  simp only [ha1, ha2, ha3, show pml4 utop = 0 by decide, show pdpe utop = 3 by decide,
    show ptx utop = 0 by decide, show pml4 uvpt = 2 by decide] at hrun
  rcases Option.bind_eq_some_iff.1 hrun with ⟨kpdp, hkpdp, hrest⟩
  rcases Option.map_eq_some_iff.1 hrest with ⟨kdir, hkdir, hout⟩
  rw [Prod.mk.injEq] at hout
  exact .inr ⟨p, p2, p3, m3, kpdp, kdir, hout.1.symm, h2.next ha3, kaddr_eq _ hkpdp,
    kaddr_eq _ hkdir, hout.2.symm⟩

/-- From `m` to `m'` there is a new address space. -/
structure NewSpace (m m' : Vm) (boot p p2 p3 : Nat) : Prop where
  free : m.pageFreeList = p :: p2 :: p3 :: m'.pageFreeList
  npages : m'.npages = m.npages
  ne : p ≠ p2 ∧ p ≠ p3 ∧ p2 ≠ p3
  ppRef : ∀ q, m'.ppRef q = if q = p ∨ q = p2 ∨ q = p3 then m.ppRef q + 1 else m.ppRef q
  root : m'.mem p 0 = page2pa p2 ||| 7
  pdp : ∀ i, m'.mem p2 i = if i = 3 then page2pa p3 ||| 7 else 0
  dir : ∀ i < 512, m'.mem p3 i = m.mem (topDir m.mem boot) i
  other : ∀ q i, q ≠ p → q ≠ p2 → q ≠ p3 → m'.mem q i = m.mem q i

/-- `env_setup_vm` where the kernel's tables are not among the free pages. -/
theorem envSetupVm_new {p : Nat} (hnodup : m.pageFreeList.Nodup) (hboot : boot ∉ m.pageFreeList)
    (hpdp : ppn (m.mem boot 0) ∉ m.pageFreeList) (hdir : topDir m.mem boot ∉ m.pageFreeList)
    (hrun : m.envSetupVm boot = some (some p, m')) : ∃ p2 p3, NewSpace m m' boot p p2 p3 := by
  rcases envSetupVm_cases hrun with ⟨hnone, -⟩ |
    ⟨q, p2, p3, m3, kpdp, kdir, ho, htakes, hk, hd, rfl⟩
  · cases hnone
  rcases htakes.facts with ⟨hlist, hn, hr, hmem, hzero⟩
  cases ho
  change m.pageFreeList = p :: p2 :: p3 :: m3.pageFreeList at hlist
  rw [hlist] at hnodup hboot hpdp hdir
  simp only [List.nodup_cons, List.mem_cons, not_or] at hnodup hboot hpdp hdir
  rcases hnodup with ⟨⟨h12, h13, -⟩, ⟨h23, -⟩, -, -⟩
  -- the kernel's tables are read as they were
  have hconn : ∀ r i, r ≠ p → r ≠ p2 → r ≠ p3 → (m3.connect p p2 p3).mem r i = m.mem r i := by
    intro r i hp hp2 hp3
    rw [(m3.connect_other p3 hp hp2).1 i]
    exact hmem r (by simp [hp, hp2, hp3]) i
  rw [hconn boot 0 hboot.1 hboot.2.1 hboot.2.2.1] at hk
  rw [hk, hconn _ 3 hpdp.1 hpdp.2.1 hpdp.2.2.1] at hd
  have hlast : ∀ r i, r ≠ p3 → ¬(r = p ∧ i = 2) →
      (((m3.connect p p2 p3).copyEntries p3 kdir 0).setEntry p 2 (page2pa p ||| 5)).mem r i =
        (m3.connect p p2 p3).mem r i := by
    intro r i hr3 hs
    rw [setEntry_mem, setSlot_of_ne _ _ (not_and_or.1 hs), copyEntries]
    exact if_neg fun hc => hr3 hc.1
  have hslots : ∀ r i, (m3.connect p p2 p3).mem r i = setSlot (setSlot m3.mem p 0
      (page2pa p2 ||| 7)) p2 3 (page2pa p3 ||| 7) r i := fun _ _ => rfl
  refine ⟨p2, p3, hlist, hn, ⟨h12, h13, h23⟩, fun r => ?_, ?_, fun i => ?_, fun i hi => ?_,
    fun r i hp hp2 hp3 => (hlast r i hp3 fun hc => hp hc.1).trans (hconn r i hp hp2 hp3)⟩
  · change (m3.connect p p2 p3).ppRef r = _
    simp only [connect, setRef_ppRef, setEntry_ppRef, hr, Function.update_apply]
    by_cases hrp : r = p
    · simp [hrp, h12, h13]
    · by_cases hrp2 : r = p2
      · simp [hrp2, h23, Ne.symm h12]
      · by_cases hrp3 : r = p3
        · simp [hrp3, Ne.symm h13, Ne.symm h23]
        · simp [hrp, hrp2, hrp3]
  · rw [hlast p 0 h13 (by simp), hslots, setSlot_of_ne _ _ (.inl h12),
      setSlot_self]
  · rw [hlast p2 i h23 fun hc => h12 hc.1.symm, hslots]
    by_cases hi : i = 3
    · rw [if_pos hi, hi, setSlot_self]
    · rw [if_neg hi, setSlot_of_ne _ _ (.inr hi),
        setSlot_of_ne _ _ (.inl (Ne.symm h12)), hzero p2 (by simp)]
  · rw [setEntry_mem, setSlot_of_ne _ _ (.inl (Ne.symm h13)), copyEntries]
    refine (if_pos ⟨rfl, Nat.zero_le i, hi⟩).trans ?_
    rw [hd]
    exact hconn _ i hdir.1 hdir.2.1 hdir.2.2.1

end Vm

end Jos
