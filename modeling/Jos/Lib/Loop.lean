import Mathlib.Tactic.Common

/-!
# Counted Loops

The loop `for (i = 0; i < n; i++) body` over a state, where the body may give
up. An invariant of the loop speaks about the counter and the state.

## Main definitions

* `forUpto`: Run the body for the counters below `n`, in order.

## Theorems

* `forUpto_inv`: The invariant rule.
* `forUpto_total`: The same for a body that does not give up.
* `forUpto_map`: A loop over part of the state.
-/

namespace Lib

/-- `for (i = 0; i < n; i++) body i`, where `none` stops the program. -/
def forUpto {σ : Type} (body : Nat → σ → Option σ) : Nat → σ → Option σ
  | 0, s => some s
  | n + 1, s => (forUpto body n s).bind (body n)

variable {σ : Type} {body : Nat → σ → Option σ}

/-- What holds before the first round and is kept by each round holds at the
    end, with the counter at the bound. -/
theorem forUpto_inv (inv : Nat → σ → Prop) {n : Nat}
    (hstep : ∀ i s s', i < n → inv i s → body i s = some s' → inv (i + 1) s') :
    ∀ s s', inv 0 s → forUpto body n s = some s' → inv n s' := by
  induction n with
  | zero =>
    intro s s' h hrun
    rw [forUpto] at hrun
    cases hrun
    exact h
  | succ n ih =>
    intro s s' h hrun
    rcases Option.bind_eq_some_iff.1 hrun with ⟨t, ht, hbody⟩
    refine hstep n t s' (by omega) ?_ hbody
    exact ih (fun i a b hi => hstep i a b (by omega)) s t h ht

/-- If the body does not give up while the invariant holds, the loop ends. -/
theorem forUpto_total (body : Nat → σ → Option σ) (inv : Nat → σ → Prop) (n : Nat)
    (hstep : ∀ i s, i < n → inv i s → ∃ s', body i s = some s' ∧ inv (i + 1) s') :
    ∀ s, inv 0 s → ∃ s', forUpto body n s = some s' ∧ inv n s' := by
  induction n with
  | zero => intro s h; exact ⟨s, rfl, h⟩
  | succ n ih =>
    intro s h
    rcases ih (fun i t hi => hstep i t (by omega)) s h with ⟨t, ht, hinv⟩
    rcases hstep n t (by omega) hinv with ⟨s', hs', hinv'⟩
    refine ⟨s', ?_, hinv'⟩
    rw [forUpto, ht, Option.bind_some, hs']

/-- If each round does to a part of the state what another body does to it, so
    does the loop. -/
theorem forUpto_map {τ : Type} {g : σ → τ} (body' : Nat → τ → Option τ)
    (h : ∀ i s, (body i s).map g = body' i (g s)) (n : Nat) (s : σ) :
    (forUpto body n s).map g = forUpto body' n (g s) := by
  induction n with
  | zero => rfl
  | succ n ih =>
    rw [forUpto, forUpto, ← ih]
    cases forUpto body n s with
    | none => rfl
    | some t => exact h n t

end Lib
