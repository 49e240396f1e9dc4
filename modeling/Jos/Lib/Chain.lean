import Mathlib.Data.List.Range
import Mathlib.Logic.Function.Basic

/-!
# Chains of Links

A singly linked list kept in an array of records: each record has a link, which is the
index of the next record or nothing, and a head leads to the first. `Chain` says which
records one meets from the head on. Pushing a record that is not in the chain and taking
off the first are the two operations, and neither needs to look at the rest.

## Main definitions

* `Chain`: The records from a head on.

## Theorems

* `Chain.push`, `Chain.pop`: The two operations.
* `Chain.nodup`, `exists_chain`: The lists that can be chained.
* `chain_range`: An array chained in order.
-/

namespace Lib

/-- From the head the links lead through the records of the list and then to nothing. -/
inductive Chain (link : Nat → Option Nat) : Option Nat → List Nat → Prop
  | nil : Chain link none []
  | cons (e : Nat) (es : List Nat) (rest : Chain link (link e) es) : Chain link (some e) (e :: es)

namespace Chain

/-- Links of records that are not in the chain do not matter. -/
theorem congr {link link' : Nat → Option Nat} {h : Option Nat} {l : List Nat}
    (hl : Chain link h l) (hsame : ∀ e ∈ l, link' e = link e) : Chain link' h l := by
  induction hl with
  | nil => exact Chain.nil
  | cons e es _ ih =>
    refine Chain.cons e es ?_
    rw [hsame e List.mem_cons_self]
    exact ih fun e' he' => hsame e' (List.mem_cons_of_mem e he')

variable {link : Nat → Option Nat} {h : Option Nat} {l : List Nat} {e : Nat}

/-- A record that is not in the chain is put in front. -/
theorem push (hl : Chain link h l) (he : e ∉ l) :
    Chain (Function.update link e h) (some e) (e :: l) := by
  refine Chain.cons e l ?_
  rw [Function.update_self]
  refine hl.congr fun e' he' => ?_
  have hne : e' ≠ e := by
    intro hc
    rw [hc] at he'
    exact he he'
  rw [Function.update_of_ne hne]

/-- The first record is taken off. -/
theorem pop (hl : Chain link h (e :: l)) : h = some e ∧ Chain link (link e) l := by
  cases hl with
  | cons _ _ rest => exact ⟨rfl, rest⟩

/-- A head determines the chain. -/
theorem unique (hl : Chain link h l) : ∀ {l' : List Nat}, Chain link h l' → l = l' := by
  induction hl with
  | nil =>
    intro l' hl'
    cases hl' with
    | nil => rfl
  | cons e es _ ih =>
    intro l' hl'
    cases hl' with
    | cons _ es' rest' => rw [ih rest']

theorem suffix {as bs : List Nat} (hl : Chain link h (as ++ bs)) : ∃ h', Chain link h' bs := by
  induction as generalizing h with
  | nil => exact ⟨h, hl⟩
  | cons a as ih => exact ih hl.pop.2

/-- A chain ends, so it meets no record twice. -/
theorem nodup (hl : Chain link h l) : l.Nodup := by
  induction hl with
  | nil => exact List.nodup_nil
  | cons e es rest ih =>
    refine List.nodup_cons.2 ⟨fun he => ?_, ih⟩
    -- from the second occurrence on it would be the whole chain again
    rcases List.append_of_mem he with ⟨as, bs, hes⟩
    rcases (hes ▸ rest).suffix with ⟨h', htail⟩
    have hsame := (Chain.cons e es rest).unique (htail.pop.1 ▸ htail)
    have hlen := congrArg List.length (List.cons.inj hsame).2
    rw [hes, List.length_append, List.length_cons] at hlen
    omega

end Chain

/-- A list without repetition can be chained. -/
theorem exists_chain {l : List Nat} (hl : l.Nodup) : ∃ link head, Chain link head l := by
  induction l with
  | nil => exact ⟨fun _ => none, none, .nil⟩
  | cons e es ih =>
    rw [List.nodup_cons] at hl
    rcases ih hl.2 with ⟨link, head, hes⟩
    exact ⟨_, _, hes.push hl.1⟩

/-- An array whose records link to the next, up to the last. -/
theorem chain_range (n : Nat) : ∀ lo, Chain (fun i => if i + 1 < lo + n then some (i + 1) else none)
    (if n = 0 then none else some lo) (List.range' lo n) := by
  -- by induction on the records that are left
  induction n with
  | zero =>
    intro lo
    rw [if_pos rfl]
    exact Chain.nil
  | succ n ih =>
    intro lo
    have hrest := ih (lo + 1)
    rw [List.range'_succ, if_neg (Nat.succ_ne_zero n)]
    refine Chain.cons lo _ ?_
    rw [show lo + 1 + n = lo + (n + 1) by omega] at hrest
    by_cases hn : n = 0
    · rw [if_pos hn] at hrest
      rwa [if_neg (by omega)]
    · rw [if_neg hn] at hrest
      rwa [if_pos (by omega)]

end Lib
