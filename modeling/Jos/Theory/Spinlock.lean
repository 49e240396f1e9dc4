import Jos.Lib.Flow
import Mathlib.Logic.Function.Basic

/-!
# The Big Kernel Lock

`spin_lock` and `spin_unlock` of `kern/spinlock.c` with `DEBUG_SPINLOCK`, on any number of CPUs.
Each load, store and `xchg` is a step of its own, and the steps of the CPUs come in any order.
The field `cpu` is set behind the `xchg` that takes the lock and cleared before the one that
gives it back, so that no other CPU ever finds itself there.

## Main definitions

* `Pc`, `State`, `step`: The CPUs and the lock.
* `Pc.owns`, `Pc.recorded`: The CPU has the lock, and the lock says so.

## Theorems

* `inv_step`: One step.
* `spinlock_safe`: Mutual exclusion, and who panics.
-/

namespace Jos.Spinlock

/-- Where a CPU is: outside or inside, at a load of `holding`, at the `xchg` or the store of
    `spin_lock`, at the store or the `xchg` of `spin_unlock`, or in a panic. The call is one of
    `spin_lock` if `acquire`, and was made with the lock in hand if `held`. -/
inductive Pc
  | outside
  | inside
  | holdingLocked (acquire held : Bool)
  | holdingCpu (acquire held : Bool)
  | spin (held : Bool)
  | record
  | clear (held : Bool)
  | release
  | panic (acquire held : Bool)

/-- `struct spinlock`, and where the CPUs are. -/
structure State where
  locked : Bool
  cpu : Option Nat
  pc : Nat → Pc

/-- A CPU calls `spin_lock` or `spin_unlock`, or goes on with its call. -/
inductive Event
  | call (acquire : Bool) (c : Nat)
  | next (c : Nat)

/-- The CPU goes on at `p`. -/
def State.goto (s : State) (c : Nat) (p : Pc) : State := { s with pc := Function.update s.pc c p }

/-- What follows on the result of `holding`. -/
def Pc.tested (holding acquire held : Bool) : Pc :=
  if holding = acquire then .panic acquire held
  else if acquire then .spin held
  else .clear held

def step (s : State) : Event → Option State
  | .call acquire c =>
    match s.pc c with
    | .outside => some (s.goto c (.holdingLocked acquire false))
    | .inside => some (s.goto c (.holdingLocked acquire true))
    | _ => none
  | .next c =>
    match s.pc c with
    | .holdingLocked acquire held =>
      some (s.goto c (if s.locked then .holdingCpu acquire held else .tested false acquire held))
    | .holdingCpu acquire held => some (s.goto c (.tested (s.cpu = some c) acquire held))
    | .spin held =>
      some ({ s with locked := true }.goto c (if s.locked then .spin held else .record))
    | .record => some ({ s with cpu := some c }.goto c .inside)
    | .clear _ => some ({ s with cpu := none }.goto c .release)
    | .release => some ({ s with locked := false }.goto c .outside)
    | _ => none

/-- `__spin_initlock` -/
def start : State := ⟨false, none, fun _ => .outside⟩

/-- The CPU is between the `xchg` that took the lock and the one that gives it back. -/
def Pc.owns : Pc → Bool
  | .outside => false
  | .inside | .record | .release => true
  | .holdingLocked _ held | .holdingCpu _ held | .spin held | .clear held | .panic _ held => held

/-- The field `cpu` names the CPU. -/
def Pc.recorded : Pc → Bool
  | .record | .release => false
  | p => p.owns

/-- Who has the lock does not wait for it, who has not does not give it back, and a panic is
    only for those who try. -/
def Pc.Fair : Pc → Prop
  | .spin held => held = false
  | .clear held => held = true
  | .panic acquire held => held = acquire
  | _ => True

structure Inv (s : State) : Prop where
  locked : ∀ c, (s.pc c).owns = true → s.locked = true
  alone : ∀ c c', (s.pc c).owns = true → (s.pc c').owns = true → c = c'
  cpu : ∀ c, s.cpu = some c ↔ (s.pc c).recorded = true
  fair : ∀ c, (s.pc c).Fair

@[grind =] theorem goto_pc (s : State) (c c' : Nat) (p : Pc) :
    (s.goto c p).pc c' = if c' = c then p else s.pc c' := Function.update_apply _ _ _ _

@[grind =] theorem goto_locked (s : State) (c : Nat) (p : Pc) : (s.goto c p).locked = s.locked :=
  rfl

@[grind =] theorem goto_cpu (s : State) (c : Nat) (p : Pc) : (s.goto c p).cpu = s.cpu := rfl

@[grind →] theorem Pc.owns_of_recorded {p : Pc} (h : p.recorded = true) : p.owns = true := by
  cases p <;> first | exact h | cases h

/-- Only the `xchg` on a free lock makes a CPU an owner, and then no other CPU is one, since an
    owner has locked it. -/
theorem inv_step {s s' : State} {ev : Event} (h : Inv s) (hs : step s ev = some s') : Inv s' := by
  rcases h with ⟨hlocked, halone, hcpu, hfair⟩
  cases ev with
  | call _ c | next c =>
    have hc := hfair c
    simp only [step] at hs
    -- one case for each place where the CPU can be
    split at hs <;> simp only [Option.some.injEq, reduceCtorEq] at hs <;> subst hs <;>
      constructor <;> grind [Pc.owns, Pc.recorded, Pc.Fair, Pc.tested]

/-- At most one CPU has the lock. A CPU that has it does not wait for it, and one that has not
    does not give it back: such calls panic, and no others do. -/
theorem spinlock_safe {s : State} (hrun : Lib.Run step (fun _ _ => True) start s) :
    (∀ c c', (s.pc c).owns = true → (s.pc c').owns = true → c = c') ∧ ∀ c, (s.pc c).Fair := by
  have hstart : Inv start := by constructor <;> simp [start, Pc.owns, Pc.recorded, Pc.Fair]
  have hinv := Lib.Run.invariant Inv (fun _ _ _ h _ hs => inv_step h hs) hrun hstart
  exact ⟨hinv.alone, hinv.fair⟩

/-- CPU 0 has the lock while CPU 1 spins. -/
theorem spinlock_safe_two : ∃ s, Lib.Run step (fun _ _ => True) start s ∧ s.cpu = some 0 ∧
    s.pc 1 = .spin false ∧ ∀ c, (s.pc c).owns = true → c = 0 := by
  have hrun : Lib.Run step (fun _ _ => True) start _ := .of_runEvents [.call true 0, .next 0,
    .call true 1, .next 0, .next 1, .next 1, .next 0, .next 1] _ rfl
  exact ⟨_, hrun, rfl, rfl, fun c hc => (spinlock_safe hrun).1 c 0 hc rfl⟩

end Jos.Spinlock
