import Jos.Lib.Flow
import Mathlib.Algebra.BigOperators.Fin
import Mathlib.Algebra.Order.BigOperators.Group.Multiset
import Mathlib.Data.BitVec

/-!
# The Clock

`kern/time.c` counts timer interrupts in an `unsigned int`, and every CPU has a timer. The
handler in `trap_dispatch` calls `time_tick` on whichever CPU it runs, so that the count is
that of all CPUs together.

## Main definitions

* `timeTick`, `timeMsec`: The functions of `kern/time.c`.
* `step`: A timer interrupt.

## Theorems

* `timeTick_eq`: The first overflow is noticed.
* `ticks_eq`: The count after any interrupts.
* `timeMsec_iff`: When the clock is right.
-/

namespace Jos.Time

open BitVec (ofNat toNat_ofNat)

/-- `time_tick`: the new value of `ticks`, or the panic. -/
def timeTick (ticks : BitVec 32) : Option (BitVec 32) :=
  let ticks := ticks + 1
  if ticks * 10 < ticks then none else some ticks

/-- `time_msec` -/
def timeMsec (ticks : BitVec 32) : BitVec 32 := ticks * 10

/-- `trap_dispatch` of a timer interrupt on a CPU; with `time_init` the count starts at 0. -/
def step {ncpu : Nat} (ticks : BitVec 32) (_cpu : Fin ncpu) : Option (BitVec 32) := timeTick ticks

theorem toNat_timeMsec {k : Nat} (hk : k < 2 ^ 32) :
    (timeMsec (ofNat 32 k)).toNat = k * 10 % 2 ^ 32 := by
  rw [timeMsec, BitVec.toNat_mul, toNat_ofNat, Nat.mod_eq_of_lt hk]
  rfl

/-- The product wraps to a number below 10 when it does for the first time. -/
theorem timeTick_eq {k : Nat} (hk : 10 * k < 2 ^ 32) : timeTick (ofNat 32 k) =
    if 10 * (k + 1) < 2 ^ 32 then some (ofNat 32 (k + 1)) else none := by
  have hnext : ofNat 32 k + 1 = ofNat 32 (k + 1) := (BitVec.ofNat_add k 1).symm
  have hlt : ofNat 32 (k + 1) * 10 < ofNat 32 (k + 1) ↔
      (k + 1) * 10 % 2 ^ 32 < k + 1 := by
    rw [← timeMsec, BitVec.lt_def, toNat_timeMsec (by omega), toNat_ofNat,
      Nat.mod_eq_of_lt (show k + 1 < 2 ^ 32 by omega)]
  rw [timeTick, hnext]
  by_cases h : 10 * (k + 1) < 2 ^ 32
  · rw [if_pos h]
    refine if_neg fun hc => ?_
    rw [hlt, Nat.mod_eq_of_lt (by omega)] at hc
    omega
  · rw [if_neg h]
    exact if_pos (hlt.2 (by omega))

theorem ticks_eq {ncpu : Nat} (cpus : List (Fin ncpu)) : ∀ k, 10 * k < 2 ^ 32 →
    Lib.runEvents step (ofNat 32 k) cpus =
      if 10 * (k + cpus.length) < 2 ^ 32 then some (ofNat 32 (k + cpus.length))
      else none := by
  induction cpus with
  | nil =>
    intro k hk
    rw [List.length_nil, Nat.add_zero, if_pos hk, Lib.runEvents]
  | cons c cpus ih =>
    intro k hk
    rw [Lib.runEvents, step, timeTick_eq hk, List.length_cons]
    by_cases h : 10 * (k + 1) < 2 ^ 32
    · rw [if_pos h, Option.bind_some, ih (k + 1) h, Nat.add_right_comm, Nat.add_assoc]
    · rw [if_neg h, if_neg (by omega), Option.bind_none]

/-- After `n` interrupts on each CPU the clock shows `n` steps exactly if there is one CPU or
    none has had an interrupt, unless the panic has come. -/
theorem timeMsec_iff {ncpu n : Nat} {cpus : List (Fin ncpu)} (hcpu : 0 < ncpu)
    (hn : ∀ c, cpus.count c = n) :
    (Lib.runEvents step 0 cpus = none ∨
      ∃ ticks, Lib.runEvents step 0 cpus = some ticks ∧ (timeMsec ticks).toNat = 10 * n) ↔
    ncpu = 1 ∨ n = 0 ∨ 2 ^ 32 ≤ 10 * (ncpu * n) := by
  have hlen : cpus.length = ncpu * n := by
    have hsum := Multiset.sum_count_eq_card (s := Finset.univ) (m := (cpus : Multiset (Fin ncpu)))
      fun c _ => Finset.mem_univ c
    simpa [hn] using hsum.symm
  have hrun := ticks_eq cpus 0 (by decide)
  rw [Nat.zero_add, hlen] at hrun
  rw [show (0 : BitVec 32) = ofNat 32 0 from rfl, hrun]
  by_cases hover : 10 * (ncpu * n) < 2 ^ 32
  · have hmsec : (timeMsec (ofNat 32 (ncpu * n))).toNat = 10 * (ncpu * n) := by
      rw [toNat_timeMsec (by omega)]
      omega
    rw [if_pos hover]
    constructor
    · rintro (h | ⟨ticks, h, htime⟩)
      · cases h
      · rw [← Option.some.inj h, hmsec] at htime
        have hone : ncpu * n = 1 * n := by omega
        rcases Nat.eq_zero_or_pos n with h0 | hpos
        · exact .inr (.inl h0)
        · exact .inl (Nat.eq_of_mul_eq_mul_right hpos hone)
    · intro h
      refine .inr ⟨_, rfl, ?_⟩
      rw [hmsec]
      rcases h with rfl | rfl | h
      · rw [Nat.one_mul]
      · rw [Nat.mul_zero]
      · omega
  · rw [if_neg hover]
    exact ⟨fun _ => .inr (.inr (Nat.not_lt.1 hover)), fun _ => .inl rfl⟩

/-- Two interrupts of a single CPU. -/
theorem timeMsec_iff_single : Lib.runEvents step 0 [(0 : Fin 1), 0] = none ∨ ∃ ticks,
    Lib.runEvents step 0 [(0 : Fin 1), 0] = some ticks ∧ (timeMsec ticks).toNat = 10 * 2 :=
  (timeMsec_iff (n := 2) (by decide) (by decide)).2 (.inl rfl)

/-- With two CPUs the clock is 20 ms ahead after one period. -/
theorem timeMsec_double : ¬ (Lib.runEvents step 0 [(0 : Fin 2), 1] = none ∨
    ∃ ticks, Lib.runEvents step 0 [(0 : Fin 2), 1] = some ticks ∧
      (timeMsec ticks).toNat = 10 * 1) := by
  have hrun : Lib.runEvents step 0 [(0 : Fin 2), 1] = some 2 := by decide
  rw [hrun]
  rintro (h | ⟨ticks, h, hmsec⟩)
  · cases h
  · rw [← Option.some.inj h] at hmsec
    cases hmsec

end Jos.Time
