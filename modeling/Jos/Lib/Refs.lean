import Mathlib.Data.Finset.Card
import Mathlib.Data.Finset.Union
import Jos.Lib.Radix

/-!
# Counting References

A reference count is the number of places that refer to a target. The places
form a finite set and each place refers to at most one target, so the count is
the size of a filtered set; `count_update` is the only rule needed for it,
since every operation changes one place at a time.

The places of a radix tree are its paths, which `okPaths` enumerates.

## Main definitions

* `count`: The number of places that refer to a target.
* `okPaths`: The paths of one length through the tree's slots.

## Theorems

* `count_update`: The effect of changing what one place refers to.
* `count_eq_zero`, `count_le_one`: Counts of targets with no or one place.
* `count_filter_add`, `count_without`: The places in two parts.
* `mem_okPaths`: The enumeration is exact.
-/

namespace Lib
namespace Refs

variable {α β : Type} [DecidableEq β] {S : Finset α} {f g : α → Option β}

/-- The number of places of `S` that refer to `b`. -/
def count (S : Finset α) (f : α → Option β) (b : β) : Nat :=
  (S.filter fun a => f a = some b).card

theorem count_congr (b : β) (h : ∀ a ∈ S, g a = f a) : count S g b = count S f b := by
  unfold count
  congr 1
  refine Finset.filter_congr ?_
  intro a ha
  rw [h a ha]

/-- Changing what the place `a` refers to takes one from the count of its old
    target and adds one to the count of its new target. -/
theorem count_update [DecidableEq α] (f g : α → Option β) {a : α} (ha : a ∈ S)
    (h : ∀ x ∈ S, x ≠ a → g x = f x) (b : β) :
    count S g b + (if f a = some b then 1 else 0) =
      count S f b + (if g a = some b then 1 else 0) := by
  have hsplit : ∀ k : α → Option β, count S k b =
      count (S.erase a) k b + (if k a = some b then 1 else 0) := by
    intro k
    unfold count
    conv_lhs => rw [← Finset.insert_erase ha]
    rw [Finset.filter_insert]
    by_cases hk : k a = some b
    · rw [if_pos hk, if_pos hk, Finset.card_insert_of_notMem (by simp)]
    · rw [if_neg hk, if_neg hk, Nat.add_zero]
  have hrest : count (S.erase a) g b = count (S.erase a) f b := by
    refine count_congr _ ?_
    intro x hx
    exact h x (Finset.mem_of_mem_erase hx) (Finset.ne_of_mem_erase hx)
  rw [hsplit g, hsplit f, hrest]
  omega

theorem count_eq_zero (S : Finset α) (f : α → Option β) (b : β) :
    count S f b = 0 ↔ ∀ a ∈ S, f a ≠ some b := by
  unfold count
  rw [Finset.card_eq_zero, Finset.filter_eq_empty_iff]

/-- The places may be counted in two parts. -/
theorem count_filter_add (S : Finset α) (P : α → Prop) [DecidablePred P] (f : α → Option β)
    (b : β) :
    count (S.filter P) f b + count (S.filter fun a => ¬P a) f b = count S f b := by
  unfold count
  rw [Finset.filter_comm, Finset.filter_comm (fun a => ¬P a)]
  exact Finset.card_filter_add_card_filter_not P

/-- Some places refer to nothing any more. -/
theorem count_without {P : α → Prop} [DecidablePred P]
    (h : ∀ a ∈ S, g a = if P a then none else f a) (b : β) :
    count S g b + count (S.filter P) f b = count S f b := by
  have hrest : count S g b = count (S.filter fun a => ¬P a) f b := by
    unfold count
    rw [Finset.filter_filter]
    congr 1
    refine Finset.filter_congr ?_
    intro a ha
    rw [h a ha]
    by_cases hP : P a <;> simp [hP]
  rw [hrest, Nat.add_comm, count_filter_add]

/-- A target that only one place can refer to has a count of at most one. -/
theorem count_le_one {b : β} {a0 : α} (h : ∀ a ∈ S, f a = some b → a = a0) : count S f b ≤ 1 := by
  unfold count
  rw [Finset.card_le_one]
  intro x hx y hy
  rw [Finset.mem_filter] at hx hy
  rw [h x hx.1 hx.2, h y hy.1 hy.2]

end Refs

namespace Radix

/-- The paths of length `n` through slots below `bound`. -/
def okPaths (ok : List Nat → Nat → Prop) [∀ π, DecidablePred (ok π)] (bound : Nat) :
    Nat → Finset (List Nat)
  | 0 => {[]}
  | n + 1 => (okPaths ok bound n).biUnion fun π =>
    ((Finset.range bound).filter (ok π)).image (· :: π)

theorem mem_okPaths (ok : List Nat → Nat → Prop) [∀ π, DecidablePred (ok π)] (bound : Nat)
    (hb : ∀ π k, ok π k → k < bound) (n : Nat) :
    ∀ π, π ∈ okPaths ok bound n ↔ π.length = n ∧ OkPath ok π := by
  induction n with
  | zero =>
    intro π
    simp only [okPaths, Finset.mem_singleton, List.length_eq_zero_iff]
    constructor
    · rintro rfl
      exact ⟨rfl, trivial⟩
    · exact fun h => h.1
  | succ n ih =>
    intro π
    simp only [okPaths, Finset.mem_biUnion, Finset.mem_image, Finset.mem_filter,
      Finset.mem_range]
    constructor
    · rintro ⟨π', hπ', k, ⟨_, hk⟩, rfl⟩
      rcases (ih π').1 hπ' with ⟨hlen, hok⟩
      exact ⟨by rw [List.length_cons, hlen], hok, hk⟩
    · rintro ⟨hlen, hok⟩
      cases π with
      | nil => cases hlen
      | cons k π =>
        rw [List.length_cons, Nat.add_right_cancel_iff] at hlen
        exact ⟨π, (ih π).2 ⟨hlen, hok.1⟩, k, ⟨hb π k hok.2, hok.2⟩, rfl⟩

end Radix
end Lib
