import Mathlib.Tactic.Common

/-!
# Routines with Error Codes

A routine over a state that returns a value or an error code, or stops the
program. Most callers hand an error on, which is what `andThen` does.

## Main definitions

* `Outcome`, `Outcome.andThen`: Outcomes and their sequencing.
* `Outcome.Sat`: Postconditions for values, for errors and for stopping.

## Theorems

* `Sat.andThen`, `Sat.mono`, `Sat.and`: The rules.
* `Sat.ends`: A routine that does not stop returns a value or an error.
-/

namespace Lib

variable {σ ε α β : Type}

/-- A value or an error code with the state after it; `none` if the program
    stops. -/
abbrev Outcome (σ ε α : Type) := Option (Except ε α × σ)

namespace Outcome

/-- Go on with the value, or hand the error on. -/
def andThen (x : Outcome σ ε α) (k : α → σ → Outcome σ ε β) : Outcome σ ε β :=
  match x with
  | none => none
  | some (.error e, s) => some (.error e, s)
  | some (.ok a, s) => k a s

/-- `R` holds of a value, `E` of an error, and `S` if the program stops. -/
def Sat (x : Outcome σ ε α) (R : α → σ → Prop) (E : ε → σ → Prop) (S : Prop) : Prop :=
  match x with
  | none => S
  | some (.error e, s) => E e s
  | some (.ok a, s) => R a s

variable {x : Outcome σ ε α} {R R' : α → σ → Prop} {E E' : ε → σ → Prop} {S S' : Prop}

theorem Sat.mono (h : Sat x R E S) (hR : ∀ a s, R a s → R' a s) (hE : ∀ e s, E e s → E' e s)
    (hS : S → S') : Sat x R' E' S' := by
  rcases x with _ | ⟨e | a, s⟩
  · exact hS h
  · exact hE e s h
  · exact hR a s h

/-- What two specifications say holds together. -/
theorem Sat.and (h : Sat x R E S) (h' : Sat x R' E' S') :
    Sat x (fun a s => R a s ∧ R' a s) (fun e s => E e s ∧ E' e s) S := by
  rcases x with _ | ⟨e | a, s⟩
  · exact h
  · exact ⟨h, h'⟩
  · exact ⟨h, h'⟩

theorem Sat.andThen {k : α → σ → Outcome σ ε β} {R' : β → σ → Prop} (h : Sat x R E S)
    (hk : ∀ a s, R a s → Sat (k a s) R' E S) : Sat (x.andThen k) R' E S := by
  rcases x with _ | ⟨e | a, s⟩
  · exact h
  · exact h
  · exact hk a s h

/-- A routine that does not stop the program returns a value or an error. -/
theorem Sat.ends (h : Sat x R E False) :
    (∃ e s, x = some (.error e, s) ∧ E e s) ∨ ∃ a s, x = some (.ok a, s) ∧ R a s := by
  rcases x with _ | ⟨e | a, s⟩
  · exact h.elim
  · exact .inl ⟨e, s, rfl, h⟩
  · exact .inr ⟨a, s, rfl, h⟩

end Outcome
end Lib
