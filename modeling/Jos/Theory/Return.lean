import Jos.Theory.Lending

/-!
# Building an Address Space and Giving it Back

`env_setup_vm` makes an address space of three pages, and `page_insert` maps pages
into it: such as others use already, and new ones. `env_free` returns all of it
if nothing is mapped at the last slot of a page table and there is no page table
at the last slot of one of the first three directories; otherwise each page that
is mapped there keeps a reference that nothing will ever drop.

## Main definitions

* `Vm.NewTree`: A new address space.
* `Vm.Built`: How an address space comes about.
* `Vm.Returned`: What `env_free` is to do.

## Theorems

* `lent_setup`: A new address space has borrowed three pages.
* `Built.lent`: What is built has borrowed its pages.
* `Released.balance`: The free list after a tree has been built and freed.
* `envFree_returned_iff`: When `env_free` returns everything.
-/

namespace Jos

open Lib.Radix (node lookup entry OkPath setSlot)

namespace Vm

/-! ## New address spaces -/

/-- The part below `UTOP` of a new address space: a root, a page of directory
    pointers and the fourth directory. -/
structure NewTree (m : Vm) (root p2 p3 : Nat) : Prop where
  lt2 : p2 < 2 ^ 52
  lt3 : p3 < 2 ^ 52
  ne : root ≠ p2 ∧ root ≠ p3 ∧ p2 ≠ p3
  root : m.mem root 0 = page2pa p2 ||| 7
  pdp : ∀ i, m.mem p2 i = if i = 3 then page2pa p3 ||| 7 else 0
  dir : ∀ i < 380, m.mem p3 i = 0

namespace NewTree

variable {m : Vm} {root p2 p3 : Nat} {π : List Nat}

theorem lookup (h : m.NewTree root p2 p3) (hok : OkPath UserIdx π) (hlen : π.length ≤ 4) :
    Lib.Radix.lookup ppn m.mem root π = if π = [0] then page2pa p2 ||| 7 else
      if π = [3, 0] then page2pa p3 ||| 7 else 0 := by
  have hnode : node ppn m.mem root [0] = some p2 := by
    rw [node, node, Option.bind_some, h.root, if_neg (or_ne_zero _ (by decide)),
      ppn_mk h.lt2 (by decide)]
  have hdirs : ∀ i, node ppn m.mem root [i, 0] = if i = 3 then some p3 else none := by
    intro i
    rw [node, hnode, Option.bind_some, h.pdp]
    by_cases hi : i = 3
    · rw [if_pos hi, if_pos hi, if_neg (or_ne_zero _ (by decide)), ppn_mk h.lt3 (by decide)]
    · rw [if_neg hi, if_neg hi, if_pos rfl]
  have htables : ∀ d i, UserIdx [i, 0] d → Lib.Radix.lookup ppn m.mem root [d, i, 0] = 0 := by
    intro d i hd
    rw [Lib.Radix.lookup, hdirs]
    by_cases hi : i = 3
    · rw [if_pos hi, Option.map_some, Option.getD_some]
      exact h.dir d (hd.2 hi)
    · rw [if_neg hi]
      rfl
  rcases π with _ | ⟨t, _ | ⟨d, _ | ⟨i, _ | ⟨k, _ | ⟨_, _⟩⟩⟩⟩⟩
  · rfl
  · have hk : t = 0 := hok.2
    rw [hk, if_pos rfl, Lib.Radix.lookup, node, Option.map_some, Option.getD_some, h.root]
  · have hk : d = 0 := hok.1.2
    rw [hk, if_neg (by simp), Lib.Radix.lookup, hnode, Option.map_some, Option.getD_some, h.pdp]
    simp
  · have hk : i = 0 := hok.1.1.2
    subst hk
    rw [htables t d hok.2, if_neg (by simp), if_neg (by simp)]
  · have hk : k = 0 := hok.1.1.1.2
    subst hk
    rw [lookup_below t (htables d i hok.1.2), if_neg (by simp),
      if_neg (by simp)]
  · simp only [List.length_cons] at hlen
    omega

theorem flags (p : Nat) : hasFlags (page2pa p ||| 7) pteP = true := by
  rw [hasFlags, or_present _ (by decide)]
  exact beq_self_eq_true _

section

variable (h : m.NewTree root p2 p3)

include h

theorem present (π : List Nat) (hok : OkPath UserIdx π)
    (hlen : π.length ≤ 4) (hne : Lib.Radix.lookup ppn m.mem root π ≠ 0) :
    hasFlags (Lib.Radix.lookup ppn m.mem root π) pteP = true := by
  rw [h.lookup hok hlen] at hne ⊢
  split
  · exact flags p2
  · split
    · exact flags p3
    · rename_i h1 h2
      rw [if_neg h1, if_neg h2] at hne
      exact absurd rfl hne

/-- The entries are those above the three pages. -/
theorem refAt_iff (hπ : π ∈ treePaths) (p : Nat) :
    m.refAt root π = some p ↔
      (π = [] ∧ p = root) ∨ (π = [0] ∧ p = p2) ∨ (π = [3, 0] ∧ p = p3) := by
  rcases (mem_treePaths π).1 hπ with ⟨hok, hlen⟩
  rw [refAt]
  by_cases hnil : π = []
  · rw [if_pos hnil, Option.some.injEq, @eq_comm _ root]
    simp [hnil]
  · rw [if_neg hnil, h.lookup hok hlen]
    by_cases hone : π = [0]
    · rw [if_pos hone, target_of_present (flags p2), ppn_mk h.lt2 (by decide),
        Option.some.injEq, @eq_comm _ p2]
      simp [hone]
    · rw [if_neg hone]
      by_cases htwo : π = [3, 0]
      · rw [if_pos htwo, target_of_present (flags p3), ppn_mk h.lt3 (by decide),
          Option.some.injEq, @eq_comm _ p3]
        simp [htwo]
      · rw [if_neg htwo, target_zero]
        simp [hnil, hone, htwo]

/-- They point to different pages. -/
theorem refAt_inj (π π' : List Nat) (hπ : π ∈ treePaths) (hπ' : π' ∈ treePaths) (p : Nat)
    (hp : m.refAt root π = some p) (hp' : m.refAt root π' = some p) : π = π' := by
  rcases h.ne with ⟨h12, h13, h23⟩
  rw [h.refAt_iff hπ] at hp
  rw [h.refAt_iff hπ'] at hp'
  rcases hp with ⟨rfl, rfl⟩ | ⟨rfl, rfl⟩ | ⟨rfl, rfl⟩
  · rcases hp' with ⟨rfl, -⟩ | ⟨-, hc⟩ | ⟨-, hc⟩
    · rfl
    · exact absurd hc h12
    · exact absurd hc h13
  · rcases hp' with ⟨-, hc⟩ | ⟨rfl, -⟩ | ⟨-, hc⟩
    · exact absurd hc.symm h12
    · rfl
    · exact absurd hc h23
  · rcases hp' with ⟨-, hc⟩ | ⟨-, hc⟩ | ⟨rfl, -⟩
    · exact absurd hc.symm h13
    · exact absurd hc.symm h23
    · rfl

theorem distinct (π π' : List Nat) (p : Nat)
    (hp : m.TableAt root π p) (hp' : m.TableAt root π' p) : π = π' := by
  refine h.refAt_inj π π' ((mem_treePaths _).2 ⟨hp.1, hp.2.1.le⟩)
    ((mem_treePaths _).2 ⟨hp'.1, hp'.2.1.le⟩) p ?_ ?_
  · rw [m.refAt_eq_node h.present hp.1 hp.2.1.le, hp.2.2]
  · rw [m.refAt_eq_node h.present hp'.1 hp'.2.1.le, hp'.2.2]

theorem treeCount_eq (q : Nat) :
    m.treeCount root q = if q = root ∨ q = p2 ∨ q = p3 then 1 else 0 := by
  by_cases hq : q = root ∨ q = p2 ∨ q = p3
  · rw [if_pos hq]
    have hok0 : OkPath UserIdx [0] := ⟨trivial, rfl⟩
    have hok3 : OkPath UserIdx [3, 0] := ⟨hok0, by simp [UserIdx]⟩
    have hex : ∃ π ∈ treePaths, m.refAt root π = some q := by
      rcases hq with hq | hq | hq
      · have hπ := (mem_treePaths []).2 ⟨trivial, by simp⟩
        exact ⟨[], hπ, (h.refAt_iff hπ _).2 (.inl ⟨rfl, hq⟩)⟩
      · have hπ := (mem_treePaths [0]).2 ⟨hok0, by simp⟩
        exact ⟨[0], hπ, (h.refAt_iff hπ _).2 (.inr (.inl ⟨rfl, hq⟩))⟩
      · have hπ := (mem_treePaths [3, 0]).2 ⟨hok3, by simp⟩
        exact ⟨[3, 0], hπ, (h.refAt_iff hπ _).2 (.inr (.inr ⟨rfl, hq⟩))⟩
    rcases hex with ⟨π, hπ, href⟩
    have hpos := m.treeCount_pos q hπ href
    have hle : m.treeCount root q ≤ 1 := Lib.Refs.count_le_one
      fun π' hπ' href' => h.refAt_inj π' π hπ' hπ q href' href
    omega
  · rw [if_neg hq, treeCount, Lib.Refs.count_eq_zero]
    intro π hπ href
    rw [h.refAt_iff hπ] at href
    rcases href with ⟨-, hc⟩ | ⟨-, hc⟩ | ⟨-, hc⟩
    · exact hq (.inl hc)
    · exact hq (.inr (.inl hc))
    · exact hq (.inr (.inr hc))

end

end NewTree

variable {root boot : Nat} {m m0 m' : Vm} {l : Label}

/-- A new address space has borrowed three pages. -/
theorem lent_setup (h0 : m0.Idle) (hb : BootTables (fun p => p ∈ m0.pageFreeList) m0.mem boot)
    (hrun : m0.envSetupVm boot = some (some root, m)) :
    Lent m0 root none m := by
  rcases envSetupVm_new h0.nodup hb.root hb.pdp hb.dir hrun with
    ⟨p2, p3, hlist, hnpages, ⟨h12, h13, h23⟩, hrefs, hroot, hpdp, hdir, -⟩
  have hfree : ∀ q, q = root ∨ q = p2 ∨ q = p3 → q ∈ m0.pageFreeList := by
    intro q hq
    rw [hlist]
    simp only [List.mem_cons]
    omega
  have hnodup := h0.nodup
  rw [hlist] at hnodup
  simp only [List.nodup_cons, List.mem_cons, not_or] at hnodup
  rcases hnodup with ⟨⟨-, -, hf⟩, ⟨-, hf2⟩, hf3, hrest⟩
  have hb2 := (h0.free p2 (hfree p2 (by simp))).2.1
  have hb3 := (h0.free p3 (hfree p3 (by simp))).2.1
  have hnew : m.NewTree root p2 p3 :=
    ⟨hb2.trans_le h0.size, hb3.trans_le h0.size, ⟨h12, h13, h23⟩, hroot, hpdp,
      fun i hi => (hdir i (by omega)).trans (hb.low i hi)⟩
  -- each of the three pages is referred to once
  have hcount := hnew.treeCount_eq
  refine ⟨hnpages, hnew.distinct, hnew.present, ?_, ?_, hrest, ?_, ?_, ?_, by simp⟩
  · intro π hok hlen
    rw [hnew.lookup hok hlen, hnpages]
    split
    · rw [ppn_mk hnew.lt2 (by decide)]
      exact fun _ => hb2
    · split
      · rw [ppn_mk hnew.lt3 (by decide)]
        exact fun _ => hb3
      · exact fun hc => absurd rfl hc
  · rw [hroot]
    exact or_ne_zero _ (by decide)
  · intro q
    rw [hrefs, hcount]
    by_cases hq : q = root ∨ q = p2 ∨ q = p3
    · rw [if_pos hq, if_pos hq, (h0.free q (hfree q hq)).2.2]
      rfl
    · rw [if_neg hq, if_neg hq, Nat.add_zero]
  · intro q
    rw [hcount]
    by_cases hq : q = root ∨ q = p2 ∨ q = p3
    · rw [if_pos hq]
      refine iff_of_false ?_ fun hc => absurd hc.2.1 (by simp)
      rcases hq with rfl | rfl | rfl
      · exact hf
      · exact hf2
      · exact hf3
    · rw [if_neg hq, hlist]
      simp only [not_or] at hq
      simp [hq.1, hq.2.1, hq.2.2]
  · intro q hpos
    rw [hcount] at hpos
    by_cases hq : q = root ∨ q = p2 ∨ q = p3
    · exact .inl (hfree q hq)
    · rw [if_neg hq] at hpos
      exact absurd hpos (Nat.lt_irrefl 0)

/-! ## Building and freeing -/

/-- The address space at `root` is made by `env_setup_vm` and then gets pages: such
    as are in use already, and such as are free. -/
inductive Built (m0 : Vm) (boot root : Nat) : Vm → Prop
  | setup (m : Vm) (hrun : m0.envSetupVm boot = some (some root, m)) : Built m0 boot root m
  | share (m : Vm) (pp va : Nat) (perm : BitVec 32) (m' : Vm) (hm : Built m0 boot root m)
      (hpp : 0 < pp ∧ pp < m.npages) (hused : m.ppRef pp ≠ 0) (hmax : m.ppRef pp ≠ 65535)
      (hva : va < utop) (hperm : perm.toNat < 4096)
      (hrun : m.pageInsert root pp va perm = some (0, m')) : Built m0 boot root m'
  | fresh (m : Vm) (zero : Bool) (pp : Nat) (m1 : Vm) (va : Nat) (perm : BitVec 32) (m' : Vm)
      (hm : Built m0 boot root m) (halloc : m.pageAlloc zero = (some pp, m1)) (hva : va < utop)
      (hperm : perm.toNat < 4096) (hrun : m1.pageInsert root pp va perm = some (0, m')) :
      Built m0 boot root m'

/-- What is built has borrowed its pages. -/
theorem Built.lent (h : Built m0 boot root m) (h0 : m0.Idle)
    (hb : BootTables (fun p => p ∈ m0.pageFreeList) m0.mem boot) : Lent m0 root none m := by
  induction h with
  | setup m hrun => exact lent_setup h0 hb hrun
  | share m pp va perm m' _ hpp hused hmax hva hperm hrun ih =>
    exact ih.pageInsert h0 hpp.2 hpp.1.ne' (.inr ⟨rfl, hused⟩) hmax hva hperm hrun
  | fresh m zero pp m1 va perm m' _ halloc hva hperm hrun ih =>
    have hlent := ih.alloc h0 halloc
    rcases hlent.taken pp rfl with ⟨hpp0, hcount⟩
    rcases h0.free pp hpp0 with ⟨hpos, hlt, href⟩
    have hzero := (ref_eq_zero_iff (hlent.count pp)).2 ⟨href, hcount⟩
    exact hlent.pageInsert h0 (by rwa [hlent.npages]) hpos.ne'
      (.inl rfl) (by rw [hzero]; decide) hva hperm hrun

/-- Everything that the tree refers to has been returned: the counts have dropped
    by the number of its entries, and the pages without references are free. If
    the tree was built before, there are as many free pages as at first. -/
structure Returned (m : Vm) (root : Nat) (m' : Vm) : Prop where
  refs : ∀ p, (m.ppRef p).toNat = (m'.ppRef p).toNat + m.treeCount root p
  freed : ∀ p, 0 < m.treeCount root p → m'.ppRef p = 0 → p ∈ m'.pageFreeList
  balance : ∀ m0 boot, m0.Idle → BootTables (fun p => p ∈ m0.pageFreeList) m0.mem boot →
    Built m0 boot root m → m'.pageFreeList.length = m0.pageFreeList.length

/-- The counts drop by the number of entries if all entries are visited. -/
theorem Released.refs_iff (ht : m.EnvTree root) (h : Released m root l visited m') :
    (∀ p, (m.ppRef p).toNat = (m'.ppRef p).toNat + m.treeCount root p) ↔
      ∀ p, m.dropped root visited p = m.treeCount root p := by
  have hnat : ∀ p, (m'.ppRef p).toNat = (m.ppRef p).toNat - m.dropped root visited p := by
    intro p
    rw [h.refs p, toNat_sub_ofNat ((m.dropped_le root visited p).trans (ht.counts p))]
  refine forall_congr' fun p => ?_
  have hle := m.dropped_le root visited p
  have hcount := ht.counts p
  rw [hnat p]
  omega

/-- The free list after a tree has been built and freed. -/
theorem Released.balance (h : Released m root l visited m')
    (hall : ∀ p, m.dropped root visited p = m.treeCount root p) (h0 : m0.Idle)
    (hlent : Lent m0 root none m) : m'.pageFreeList.length = m0.pageFreeList.length := by
  have hrefs : ∀ p, m'.ppRef p = m0.ppRef p := by
    intro p
    apply BitVec.eq_of_toNat_eq
    have hcount := hlent.count p
    rw [h.refs p, hall p, toNat_sub_ofNat (by omega), hcount, Nat.add_sub_cancel]
  refine ((List.perm_ext_iff_of_nodup (h.nodup hlent.nodup) h0.nodup).2 ?_).length_eq
  intro p
  constructor
  · intro hp
    rcases h.only p hp with hfree | ⟨hpos, hz⟩
    · exact ((hlent.list p).1 hfree).1
    · rw [hall p] at hpos
      rw [hrefs p] at hz
      exact (hlent.source p hpos).resolve_right fun hne => hne hz
  · intro hp
    by_cases hcount : m.treeCount root p = 0
    · exact h.free p ((hlent.list p).2 ⟨hp, hcount, by simp⟩)
    · refine h.freed p ?_ ?_
      · rw [hall p]
        exact Nat.pos_of_ne_zero hcount
      · rw [hrefs p]
        exact (h0.free p hp).2.2

/-- `env_free` returns everything that the tree refers to if there is nothing in
    the last slot of a page table and of the first three directories, and only
    then. -/
theorem envFree_returned_iff (m : Vm) (root : Nat) (ht : m.EnvTree root) :
    (∃ m', m.envFree root root = some m' ∧ m.Returned root m') ↔
      m.TailFree (oneRoot root) 0 := by
  rcases envFree_released m ht with ⟨l, m', -, hrun, hrel⟩
  constructor
  · rintro ⟨m'', hrun', hret⟩
    rw [hrun] at hrun'
    cases hrun'
    exact (dropped_visited_iff m ht).1 ((hrel.refs_iff ht).1 hret.refs)
  · intro htail
    have hall := (dropped_visited_iff m ht).2 htail
    refine ⟨m', hrun, (hrel.refs_iff ht).2 hall, ?_, ?_⟩
    · intro p hpos
      rw [← hall p] at hpos
      exact hrel.freed p hpos
    · intro m0 boot h0 hb hbuilt
      exact hrel.balance hall h0 (hbuilt.lent h0 hb)

/-- Seven free pages, and kernel tables without entries. -/
def sevenFree : Vm := ⟨16, fun _ => 0, [2, 3, 4, 5, 6, 7, 8], fun _ _ => 0⟩

theorem sevenFree_idle : sevenFree.Idle := by
  refine ⟨by decide, by decide, ?_⟩
  intro p hp
  simp only [sevenFree, List.mem_cons, List.not_mem_nil, or_false] at hp
  refine ⟨by omega, ?_, rfl⟩
  have hn : sevenFree.npages = 16 := rfl
  omega

theorem sevenFree_boot :
    BootTables (fun p => p ∈ sevenFree.pageFreeList) sevenFree.mem 1 :=
  ⟨by decide, by decide, by decide, fun _ _ => rfl⟩

/-- An address space with two pages, which takes all seven, is returned. -/
theorem envFree_returned_two :
    ∃ m m', Built sevenFree 1 2 m ∧ m.pageFreeList = [] ∧ m.envFree 2 2 = some m' ∧
      m.Returned 2 m' := by
  have hbuilt : ∃ m, Built sevenFree 1 2 m ∧ m.pageFreeList = [] ∧
      (∀ i < 4, ∀ d < 512, lookup ppn m.mem 2 [511, d, i, 0] = 0) ∧
      ∀ i < 3, lookup ppn m.mem 2 [511, i, 0] = 0 :=
    ⟨_, .fresh _ true 8 _ 0x201000 7 _ (.fresh _ true 5 _ 0x200000 7 _ (.setup _ rfl) rfl
      (by decide) (by decide) rfl) rfl (by decide) (by decide) rfl, rfl, by decide +kernel,
      by decide +kernel⟩
  rcases hbuilt with ⟨m, hm, hfree, hpage, htable⟩
  rcases (envFree_returned_iff m 2 (hm.lent sevenFree_idle sevenFree_boot).envTree).2
    ⟨fun i d hi hd => hpage i hi d (userIdx_lt _ d hd), htable⟩ with ⟨m', hm', hret⟩
  exact ⟨m, m', hm, hfree, hm', hret⟩

/-- A page that is mapped at `0x1FF000`, in the last slot of a page table, is not
    returned. -/
theorem envFree_keeps_last :
    ∃ m, Built sevenFree 1 2 m ∧ m.EnvTree 2 ∧
      ¬ ∃ m', m.envFree 2 2 = some m' ∧ m.Returned 2 m' := by
  have hbuilt : ∃ m, Built sevenFree 1 2 m ∧ lookup ppn m.mem 2 [511, 0, 0, 0] ≠ 0 :=
    ⟨_, Built.fresh _ true 5 _ 0x1FF000 7 _ (Built.setup _ rfl) rfl (by decide) (by decide) rfl,
      by decide⟩
  rcases hbuilt with ⟨m, hm, hlast⟩
  have ht := (hm.lent sevenFree_idle sevenFree_boot).envTree
  refine ⟨m, hm, ht, ?_⟩
  rintro ⟨m', hrun, hret⟩
  rcases envFree_released m ht with ⟨l, m'', -, hrun', hrel⟩
  rw [hrun'] at hrun
  cases hrun
  have htail := (dropped_visited_iff m ht).1 ((hrel.refs_iff ht).1 hret.refs)
  exact hlast (htail.page 0 0 (by decide) (by simp [UserIdx]))

end Vm
end Jos
