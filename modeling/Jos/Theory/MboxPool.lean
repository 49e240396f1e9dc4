import Jos.Core.SysArch
import Mathlib.Tactic.Common

/-!
# A New Mailbox

`sys_mbox_new` takes a mailbox and two semaphores from the pools of `sys_arch.c`. If it gets
no semaphore, it gives back what it has with `sys_mbox_free`, which is made for mailboxes with
both semaphores: it frees `SYS_SEM_NULL` as well, and that is the entry in front of the array.
Without any semaphore the entry is freed twice, and the assertion in `sys_sem_free` ends the
environment. With one it is freed once.

## Main definitions

* `Pools`: The pools and what is accessed of them.
* `sysMboxNew`, `sysMboxFree`, `sysSemNew`, `sysSemFree`: The functions of `sys_arch.c`.
* `Atomic`: A call that fails changes nothing.

## Theorems

* `sysMboxNew_one`: What happens with one semaphore.
* `sysMboxNew_atomic_iff`: When a call is atomic.
-/

namespace Jos.SysArch

open Function (update update_self update_of_ne)

/-- `struct sys_sem_entry`, with whether `freed` is not 0. -/
structure SemEntry extends Sem where
  freed : Bool

/-- `struct sys_mbox_entry`, without the messages. -/
structure MboxEntry where
  freed : Bool
  head : Int
  nextq : Int
  queuedMsg : Int
  freeMsg : Int

/-- The arrays, also outside of their bounds, the lists of free entries, and the indices that
    are accessed. A list operation accesses the next entry too. -/
structure Pools where
  sems : Int → SemEntry
  semFree : List Int
  mboxes : Int → MboxEntry
  mboxFree : List Int
  semAccesses : List Int := []
  mboxAccesses : List Int := []

namespace Pools

/-- `sys_sem_new`, or the failed assertion. -/
def sysSemNew (s : Pools) (count : BitVec 8) : Option (Int × Pools) :=
  match s.semFree with
  | [] => some (-1, s)
  | i :: rest =>
    if (s.sems i).freed = false then none
    else
      some (i, { s with
        sems := update s.sems i { SysArch.sysSemNew (s.sems i).toSem count with freed := false }
        semFree := rest
        semAccesses := s.semAccesses ++ i :: rest.take 1 })

/-- `sys_sem_free` -/
def sysSemFree (s : Pools) (sem : Int) : Option Pools :=
  if (s.sems sem).freed then none
  else
    some { s with
      sems := update s.sems sem
        { s.sems sem with freed := true, gen := (s.sems sem).gen + 1 }
      semFree := sem :: s.semFree
      semAccesses := s.semAccesses ++ sem :: s.semFree.take 1 }

/-- `sys_mbox_free` -/
def sysMboxFree (s : Pools) (mbox : Int) : Option Pools :=
  if (s.mboxes mbox).freed then none
  else
    (s.sysSemFree (s.mboxes mbox).queuedMsg).bind fun s =>
      (s.sysSemFree (s.mboxes mbox).freeMsg).map fun s =>
        { s with
          mboxes := update s.mboxes mbox { s.mboxes mbox with freed := true }
          mboxFree := mbox :: s.mboxFree
          mboxAccesses := s.mboxAccesses ++ mbox :: s.mboxFree.take 1 }

/-- `sys_mbox_new` -/
def sysMboxNew (s : Pools) (size : Int) : Option (Int × Pools) :=
  if mboxslots ≤ size then none
  else
    match s.mboxFree with
    | [] => some (-1, s)
    | i :: rest =>
      if (s.mboxes i).freed = false then none
      else
        let s := { s with mboxFree := rest, mboxAccesses := s.mboxAccesses ++ i :: rest.take 1 }
        (s.sysSemNew 0).bind fun (queued, s) =>
          (s.sysSemNew 32).bind fun (free, s) =>
            let s := { s with mboxes := update s.mboxes i ⟨false, -1, 0, queued, free⟩ }
            if queued = -1 ∨ free = -1 then (s.sysMboxFree i).map fun s => (-1, s)
            else some (i, s)

/-- The free entries are entries of the arrays and marked. -/
structure Ok (s : Pools) : Prop where
  sem : ∀ i ∈ s.semFree, 0 ≤ i ∧ i < 256 ∧ (s.sems i).freed = true
  mbox : ∀ i ∈ s.mboxFree, 0 ≤ i ∧ i < 128 ∧ (s.mboxes i).freed = true
  nodup : s.semFree.Nodup
  accesses : s.semAccesses = [] ∧ s.mboxAccesses = []

/-- If there is no mailbox in the end, the same entries are free as before, and the accesses
    are within the arrays. -/
def Atomic (s : Pools) (size : Int) : Prop :=
  ∀ s', s.sysMboxNew size = some (-1, s') →
    (∀ i, i ∈ s'.semFree ↔ i ∈ s.semFree) ∧ (∀ i, i ∈ s'.mboxFree ↔ i ∈ s.mboxFree) ∧
    (∀ i ∈ s'.semAccesses, 0 ≤ i ∧ i < 256) ∧ ∀ i ∈ s'.mboxAccesses, 0 ≤ i ∧ i < 128

variable {s s' : Pools} {size i j : Int} {rest : List Int}

/-- Without a semaphore the call does not return. -/
theorem sysMboxNew_none (hmbox : s.mboxFree = i :: rest) (hsem : s.semFree = []) :
    s.sysMboxNew size = none := by
  unfold sysMboxNew
  simp only [hmbox, sysSemNew, hsem, Option.bind_some, sysMboxFree, sysSemFree, update_self]
  split_ifs with _ _ _ _ hpre <;> simp_all [update_self]

/-- With one semaphore it does if the entry in front of the array is not marked, and that
    entry becomes free. -/
theorem sysMboxNew_one (hsize : ¬mboxslots ≤ size) (hmbox : s.mboxFree = i :: rest)
    (hi : (s.mboxes i).freed = true) (hsem : s.semFree = [j]) (hj : (s.sems j).freed = true)
    (hj0 : j ≠ -1) (hpre : (s.sems (-1)).freed = false) :
    ∃ s', s.sysMboxNew size = some (-1, s') ∧ -1 ∈ s'.semFree := by
  unfold sysMboxNew
  simp [hsize, hmbox, hi, sysSemNew, hsem, hj, sysMboxFree, sysSemFree, update_self,
    update_of_ne hj0.symm, hpre]

theorem sysMboxNew_marked (hmbox : s.mboxFree = i :: rest) (hsem : s.semFree = [j])
    (hj0 : j ≠ -1) (hpre : (s.sems (-1)).freed = true) : s.sysMboxNew size = none := by
  unfold sysMboxNew
  simp only [hmbox, sysSemNew, hsem]
  split_ifs <;> simp_all [sysMboxFree, sysSemFree, update_self, update_of_ne hj0.symm]

/-- With two semaphores there is a mailbox. -/
theorem sysMboxNew_two (h : s.Ok) (hmbox : s.mboxFree = i :: rest) (hsem : 2 ≤ s.semFree.length) :
    s.sysMboxNew size ≠ some (-1, s') := by
  match hl : s.semFree with
  | [] | [_] => simp [hl] at hsem
  | j :: k :: l =>
    have hj := h.sem j (by simp [hl])
    have hk := h.sem k (by simp [hl])
    have hi := h.mbox i (by simp [hmbox])
    have hnodup := h.nodup
    rw [hl] at hnodup
    have hkj : k ≠ j := by
      rintro rfl
      simp at hnodup
    have hnull : ¬(j = -1 ∨ k = -1) := by omega
    unfold sysMboxNew
    by_cases hsize : mboxslots ≤ size
    · simp [hsize]
    · have hi0 : i ≠ -1 := by omega
      simp [hsize, hmbox, hi.2.2, sysSemNew, hl, hj.2.2, update_of_ne hkj, hk.2.2, hnull, hi0]

/-- A call is atomic exactly if it fails the first assertion, there is no mailbox, not just
    one semaphore is left, or the entry in front of the array is marked, which ends the
    environment. -/
theorem sysMboxNew_atomic_iff (h : s.Ok) : s.Atomic size ↔
    mboxslots ≤ size ∨ s.mboxFree = [] ∨ s.semFree.length ≠ 1 ∨ (s.sems (-1)).freed = true := by
  by_cases hsize : mboxslots ≤ size
  · have hnone : s.sysMboxNew size = none := by rw [sysMboxNew, if_pos hsize]
    simp [Atomic, hnone, hsize]
  · cases hmbox : s.mboxFree with
    | nil =>
      have hsame : s.sysMboxNew size = some (-1, s) := by simp [sysMboxNew, hsize, hmbox]
      refine ⟨fun _ => .inr (.inl rfl), fun _ s' hs' => ?_⟩
      rw [hsame, Option.some.injEq, Prod.mk.injEq] at hs'
      rw [← hs'.2, h.accesses.1, h.accesses.2]
      simp
    | cons i rest =>
      match hsem : s.semFree with
      | [] => simp [Atomic, sysMboxNew_none hmbox hsem]
      | [j] =>
        have hj := h.sem j (by simp [hsem])
        have hj0 : j ≠ -1 := by omega
        cases hpre : (s.sems (-1)).freed with
        | false =>
          have hi := (h.mbox i (by simp [hmbox])).2.2
          rcases sysMboxNew_one hsize hmbox hi hsem hj.2.2 hj0 hpre with ⟨s', hs', hmem⟩
          refine ⟨fun hatomic => ?_, fun hor => absurd hor (by simp [hsize])⟩
          have hin := ((hatomic s' hs').1 (-1)).1 hmem
          rw [hsem, List.mem_singleton] at hin
          exact absurd hin.symm hj0
        | true => simp [Atomic, sysMboxNew_marked hmbox hsem hj0 hpre]
      | j :: k :: l =>
        refine ⟨fun _ => .inr (.inr (.inl (by simp))), fun _ s' hs' => ?_⟩
        exact absurd hs' (sysMboxNew_two h hmbox (by simp [hsem]))

/-- All semaphores but the last are taken. -/
def last (front : Bool) : Pools where
  sems := fun i => ⟨⟨0, 0, 0⟩, i = 0 || front⟩
  semFree := [0]
  mboxes := fun _ => ⟨true, 0, 0, 0, 0⟩
  mboxFree := [0]

theorem last_ok (front : Bool) : (last front).Ok := by
  constructor <;> simp [last]

theorem sysMboxNew_atomic_marked : (last true).Atomic 8 :=
  (sysMboxNew_atomic_iff (last_ok true)).2 (by simp [last])

theorem sysMboxNew_not_atomic : ¬ (last false).Atomic 8 := by
  intro h
  rcases sysMboxNew_one (s := last false) (show ¬mboxslots ≤ (8 : Int) by decide) rfl rfl rfl rfl
    (by decide) rfl with ⟨s', hs', hmem⟩
  exact absurd (((h s' hs').1 (-1)).1 hmem) (by decide)

end Pools
end Jos.SysArch
