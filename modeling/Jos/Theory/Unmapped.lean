import Jos.Theory.Memory
import Jos.Theory.UserCheck

/-!
# Addresses That Are Not Mapped

`page_lookup` asks whether there is a page table for an address and then takes
the page that the entry names, without a look at the entry. An address can be
unmapped at four levels, and at the last one `page_lookup` still returns a page:
page 0 for an entry of zeros. `page_remove`, `sys_page_unmap`, `sys_page_map` and
`sys_ipc_try_send` rely on its answer.

## Main definitions

* `Kernel.Recognised`: An address that is not mapped is treated as such.
* `Vm.NoTable`: The walk for an address ends at a missing table.

## Theorems

* `pageLookup_eq_none`: When `page_lookup` finds nothing.
* `recognised_iff`: When unmapped addresses are recognised.
-/

namespace Jos
variable {root va : Nat}

namespace Vm

/-- There is no page table for the address. -/
def NoTable (m : Vm) (root va : Nat) : Prop := m.pml4eWalk root va false = some (none, m)

/-- `page_lookup` returns a null pointer exactly if there is no page table. -/
theorem pageLookup_eq_none (m : Vm) (root va : Nat) :
    m.pageLookup root va = some none ↔ m.NoTable root va := by
  unfold NoTable pageLookup
  constructor
  · intro h
    rcases Option.bind_eq_some_iff.1 h with ⟨⟨o, m'⟩, hwalk, hrest⟩
    rcases m.pml4eWalk_keep hwalk with ⟨rfl, -⟩
    cases o with
    | none => exact hwalk
    | some pt =>
      rcases Option.map_eq_some_iff.1 hrest with ⟨p, -, hp⟩
      cases hp
  · intro h
    rw [h]
    rfl

/-- An address without a page table has no translation. -/
theorem translate_of_noTable (m : Vm) (h : m.NoTable root va) : m.translate root va = none := by
  cases htr : m.translate root va with
  | none => rfl
  | some t =>
    rcases t with ⟨w, b1, b2⟩
    rcases m.translate_node htr with ⟨pt, hnode, -⟩
    have hwalk := (m.pml4eWalk_keep h).2
    rw [hnode] at hwalk
    cases hwalk

theorem pageRemove_of_noTable (m : Vm) (h : m.NoTable root va) : m.pageRemove root va = some m := by
  rw [pageRemove, (m.pageLookup_eq_none root va).2 h]
  rfl

end Vm

namespace Kernel

/-- The answer of `page_lookup` for `va` in the address space of `e` is right, and
    the functions that rely on it leave an unmapped address alone. -/
structure Recognised (s : Kernel) (e root va : Nat) : Prop where
  lookup : s.vm.pageLookup root va = some none ↔ s.vm.translate root va = none
  remove : s.vm.translate root va = none → s.vm.pageRemove root va = some s.vm
  unmap : s.vm.translate root va = none → ∀ cur envid,
    s.envid2env cur envid true = some e → ∃ r, s.sysPageUnmap cur envid va = .ret r s
  map : s.vm.translate root va = none → ∀ cur srcenvid dstenvid dst dstva perm,
    s.envid2env cur srcenvid true = some e → s.envid2env cur dstenvid true = some dst →
    s.sysPageMap cur srcenvid va dstenvid dstva perm = .ret (-3) s
  send : s.vm.translate root va = none → va < utop → ∀ envid value perm dst,
    s.envid2env e envid false = some dst → (s.envs dst).envIpcRecving = true →
    ∃ s', s.sysIpcTrySend e envid value va perm = .ret (-3) s' ∧ s'.vm = s.vm

/-- The calls rely on `page_lookup` alone: without a page table they do nothing. -/
theorem recognised_of_noTable (s : Kernel) {e : Nat} (hroot : (s.envs e).envPml4e = some root)
    (h : s.vm.NoTable root va) : s.Recognised e root va := by
  have hlookup := (s.vm.pageLookup_eq_none root va).2 h
  have hremove := s.vm.pageRemove_of_noTable h
  have hon : (s.onPml4e e fun root => s.vm.pageLookup root va) = some none := by
    rw [onPml4e, hroot, Option.bind_some, hlookup]
  refine ⟨?_, fun _ => hremove, ?_, ?_, ?_⟩
  · exact iff_of_true hlookup (s.vm.translate_of_noTable h)
  · intro _ cur envid he
    by_cases hbad : badVa va = true
    · exact ⟨-3, by simp only [sysPageUnmap, he, if_pos hbad]⟩
    · refine ⟨0, ?_⟩
      simp only [sysPageUnmap, he, if_neg hbad, onPml4e, hroot, Option.bind_some, hremove]
  · intro _ cur srcenvid dstenvid dst dstva perm hsrc hdst
    simp only [sysPageMap, hsrc, hdst, hon, ite_self]
  · intro _ hva envid value perm dst hdst hrecv
    -- The fields of the receiver are written first; they are no part of a tree.
    have hrecv' : ¬ (s.envs dst).envIpcRecving = false := by
      rw [hrecv]
      exact Bool.noConfusion
    have hpml4e : ∀ f : Env → Env, (∀ x, (f x).envPml4e = x.envPml4e) →
        ((s.setEnv dst (f (s.envs dst))).envs e).envPml4e = some root := by
      intro f hf
      rw [← hroot]
      by_cases hed : e = dst
      · subst hed
        simp [setEnv, hf]
      · simp [setEnv, hed]
    refine ⟨s.setEnv dst { s.envs dst with
      envIpcRecving := false, envIpcFrom := (s.envs e).envId, envIpcValue := value }, ?_, rfl⟩
    simp only [sysIpcTrySend, hdst, if_neg hrecv', if_pos hva, onPml4e]
    rw [hpml4e (fun x => { x with
      envIpcRecving := false, envIpcFrom := (s.envs e).envId, envIpcValue := value }) fun _ => rfl,
      Option.bind_some, show (s.setEnv dst _).vm = s.vm from rfl, hlookup]

/-- Unmapped addresses are recognised exactly where no page table exists; where
    one does, the address has to be mapped. -/
theorem recognised_iff (s : Kernel) (e root va : Nat) (hroot : (s.envs e).envPml4e = some root) :
    s.Recognised e root va ↔
      (s.vm.translate root va).isSome ∨ s.vm.NoTable root va := by
  constructor
  · intro h
    cases htr : s.vm.translate root va with
    | none => exact .inr ((s.vm.pageLookup_eq_none root va).1 (h.lookup.2 htr))
    | some t => exact .inl rfl
  · rintro (hsome | hno)
    · -- A mapped address has a page table, and nothing is asked of the calls.
      have hne : s.vm.translate root va ≠ none := Option.isSome_iff_ne_none.1 hsome
      refine ⟨iff_of_false ?_ hne, fun h => absurd h hne, fun h => absurd h hne,
        fun h => absurd h hne, fun h => absurd h hne⟩
      intro hlookup
      exact hne (s.vm.translate_of_noTable ((s.vm.pageLookup_eq_none root va).1 hlookup))
    · exact s.recognised_of_noTable hroot hno

/-- One environment on page 1 as its root. -/
def single (m : Vm) : Kernel :=
  (envInit m 1).setEnv 0 { envId := 0x1000, envStatus := .running, envPml4e := some 1, envCr3 := 1 }

/-- Without any table the first address of a program is recognised as unmapped. -/
theorem recognised_blank : (single Vm.blank).Recognised 0 1 0x800000 :=
  (recognised_iff (single Vm.blank) 0 1 0x800000 rfl).2 (.inr rfl)

/-- With tables for it and an entry of zeros it is not: `page_lookup` finds
    page 0. -/
theorem not_recognised_tabled : ¬ (single Vm.tabled).Recognised 0 1 0x800000 := by
  intro h
  have htr : (single Vm.tabled).vm.translate 1 0x800000 = none := by decide
  have hlookup : (single Vm.tabled).vm.pageLookup 1 0x800000 = some (some (0, 4)) := by rfl
  have hnone := h.lookup.2 htr
  rw [hlookup] at hnone
  cases hnone

end Kernel
end Jos
