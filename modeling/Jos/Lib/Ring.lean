import Mathlib.Algebra.Ring.Nat
import Mathlib.Logic.Function.Basic
import Mathlib.Tactic.Common

/-!
# Rings of Slots

A queue in an array that is used round and round. The values in the queue are a
window onto the slots: so many of them, from a first position on, with the
positions taken modulo the number of slots. Positions need not be reduced, so
that a reader and a writer may count on forever.

## Main definitions

* `window`: The values in the queue, in order.
* `Carries`: What went in is what came out and the queue.

## Theorems

* `window_succ`, `window_snoc`: The first value and the last one.
* `window_update`: A slot outside of the window.
* `Carries.scribble`, `Carries.publish`: Putting a value in, in two steps.
* `Carries.push`, `Carries.pop`: One value more, one value less.
-/

namespace Lib.Ring

variable {α : Type}

/-- The `k` values from position `r` on, in a ring of `n` slots. -/
def window (slots : Nat → α) (n r k : Nat) : List α :=
  (List.range k).map fun i => slots ((r + i) % n)

variable (slots : Nat → α)

@[simp] theorem length_window (n r k : Nat) :
    (window slots n r k).length = k := by
  unfold window
  rw [List.length_map, List.length_range]

@[simp] theorem window_zero (n r : Nat) : window slots n r 0 = [] := rfl

/-- The first position may be reduced. -/
theorem window_mod (n r k : Nat) :
    window slots n (r % n) k = window slots n r k := by
  unfold window
  refine List.map_congr_left fun i _ => ?_
  rw [Nat.mod_add_mod]

/-- The first value and the rest. -/
theorem window_succ (n r k : Nat) :
    window slots n r (k + 1) = slots (r % n) :: window slots n (r + 1) k := by
  unfold window
  rw [List.range_succ_eq_map, List.map_cons, List.map_map, Nat.add_zero]
  refine congrArg _ (List.map_congr_left fun i _ => ?_)
  rw [Function.comp_apply, Nat.succ_eq_add_one, Nat.add_right_comm, Nat.add_assoc]

/-- Positions less than one round apart have different slots. -/
theorem mod_ne (n r i j : Nat) (hi : i < j) (hj : j < i + n) : (r + i) % n ≠ (r + j) % n := by
  intro h
  have hdiff : (r + j - (r + i)) % n = 0 := Nat.sub_mod_eq_zero_of_mod_eq h.symm
  rw [Nat.add_sub_add_left, Nat.mod_eq_of_lt (by omega)] at hdiff
  omega

/-- A slot behind the window can be written. -/
theorem window_update {n k j : Nat} (r : Nat) (a : α) (hk : k ≤ j) (hj : j < n) :
    window (Function.update slots ((r + j) % n) a) n r k = window slots n r k := by
  unfold window
  refine List.map_congr_left fun i hi => ?_
  rw [List.mem_range] at hi
  exact Function.update_of_ne (mod_ne n r i j (by omega) (by omega)) _ _

/-- The window takes in the next slot. -/
theorem window_snoc (n r k : Nat) :
    window slots n r (k + 1) = window slots n r k ++ [slots ((r + k) % n)] := by
  unfold window
  rw [List.range_succ, List.map_append, List.map_singleton]

/-- Of what was sent, `received` came out and the rest is in the ring, which has
    room for it. -/
structure Carries (slots : Nat → α) (n r k : Nat) (sent received : List α) : Prop where
  fits : k ≤ n
  carried : sent = received ++ window slots n r k

namespace Carries

variable {slots : Nat → α} {n r k : Nat} {sent received : List α}

section

variable (h : Carries slots n r k sent received)

include h

/-- What came out is the beginning of what went in. -/
theorem isPrefix : received <+: sent :=
  ⟨_, h.carried.symm⟩

theorem length : sent.length = received.length + k := by
  rw [h.carried, List.length_append, length_window]

/-- A slot that is not in use is written. -/
theorem scribble {j : Nat} (a : α) (hk : k ≤ j)
    (hj : j < n) : Carries (Function.update slots ((r + j) % n) a) n r k sent received :=
  ⟨h.fits, window_update slots r a hk hj ▸ h.carried⟩

/-- The value in the first free slot becomes part of the queue. -/
theorem publish (hk : k < n) :
    Carries slots n r (k + 1) (sent ++ [slots ((r + k) % n)]) received :=
  ⟨hk, by rw [window_snoc, ← List.append_assoc, ← h.carried]⟩

/-- A value goes in, if there is room. -/
theorem push (a : α) (hk : k < n) :
    Carries (Function.update slots ((r + k) % n) a) n r (k + 1) (sent ++ [a]) received := by
  have hput := (h.scribble a le_rfl hk).publish hk
  rwa [Function.update_self] at hput

end

/-- The first value comes out. -/
theorem pop (h : Carries slots n r (k + 1) sent received) :
    Carries slots n (r + 1) k sent (received ++ [slots (r % n)]) :=
  ⟨Nat.le_of_succ_le h.fits, by rw [h.carried, window_succ, List.append_assoc]; rfl⟩

theorem mod (h : Carries slots n r k sent received) : Carries slots n (r % n) k sent received :=
  ⟨h.fits, by rw [window_mod]; exact h.carried⟩

end Carries

end Lib.Ring
