import Jos.Theory.EnvTable

/-!
# The Names of a Slot

`env_alloc` adds to the generation in the name that the slot had before. The generations go
from 1 up to `2 ^ 19 - 1` and then start again with 1, since the next one has the sign bit.

## Main definitions

* `envIdAt`: The names of a slot, one after the other.
* `Table.Counted`: The table with the number of allocations of each slot.

## Theorems

* `toNat_envIdAt`: The generation and the index of a name.
* `Table.envId_eq`: The names in every run.
* `envIds_distinct`: Names are not used again early, and are not accepted until then.
-/

namespace Jos

open Function (update update_self update_of_ne)

/-- The name of the slot `e` after `k` allocations; `env_init` makes it 0. -/
def envIdAt (e : Nat) : Nat → BitVec 32
  | 0 => 0
  | k + 1 => Kernel.nextEnvId (envIdAt e k) e

variable {e : Nat}

/-- The name after one with the generation `m`. -/
theorem toNat_nextEnvId {old : BitVec 32} {m r : Nat} (hm : m < 524288) (hr : r < nenv)
    (hold : old.toNat = 4096 * m + r) (he : e < nenv) :
    (Kernel.nextEnvId old e).toNat = 4096 * (m % 524287 + 1) + e := by
  have hgen := and_not_index (old + 4096)
  rw [BitVec.toNat_add, hold, show (4096 : BitVec 32).toNat = 4096 from rfl] at hgen
  unfold Kernel.nextEnvId
  dsimp only
  generalize (old + 4096) &&& ~~~1023 = gen at hgen
  have hint := BitVec.toInt_eq_toNat_cond gen
  unfold nenv at hr
  by_cases hneg : gen.toInt ≤ 0
  · rw [if_pos hneg, or_index (by decide) he, show (4096 : BitVec 32).toNat = 4096 from rfl]
    omega
  · rw [if_neg hneg, or_index (by omega) he]
    omega

theorem toNat_envIdAt (he : e < nenv) (k : Nat) :
    (envIdAt e (k + 1)).toNat = 4096 * (k % 524287 + 1) + e := by
  induction k with
  | zero => exact toNat_nextEnvId (m := 0) (r := 0) (by decide) (by decide) rfl he
  | succ k ih =>
    rw [envIdAt, toNat_nextEnvId (by omega) he ih he]
    omega

/-- Two names of a slot are the same exactly if they are a multiple of the period apart. -/
theorem envIdAt_eq_iff (he : e < nenv) (j k : Nat) :
    envIdAt e (j + 1) = envIdAt e (k + 1) ↔ j % 524287 = k % 524287 := by
  constructor
  · intro h
    have hnat := congrArg BitVec.toNat h
    rw [toNat_envIdAt he, toNat_envIdAt he] at hnat
    omega
  · intro h
    apply BitVec.eq_of_toNat_eq
    rw [toNat_envIdAt he, toNat_envIdAt he, h]

namespace Table

/-- The slot that an event allocates. -/
def allocated (t : Table) : TableEvent → Option Nat
  | .alloc parentId =>
    match t.kernel.envAlloc parentId with
    | some (.ok e, _) => some e
    | _ => none
  | .free _ _ | .status _ _ => none

/-- The table with the number of allocations of each slot. -/
structure Counted where
  table : Table
  allocs : Nat → Nat

def Counted.step (c : Counted) (ev : TableEvent) : Option Counted :=
  (c.table.step ev).map fun t =>
    ⟨t, fun e => if c.table.allocated ev = some e then c.allocs e + 1 else c.allocs e⟩

/-- A step gives the slot that it allocates its next name, and leaves the others. -/
theorem step_envId {t t' : Table} {ev : TableEvent} (hstep : t.step ev = some t') (e : Nat) :
    (t'.kernel.envs e).envId = if t.allocated ev = some e
      then Kernel.nextEnvId (t.kernel.envs e).envId e else (t.kernel.envs e).envId := by
  cases ev with
  | alloc parentId =>
    rcases Option.map_eq_some_iff.1 hstep with ⟨⟨r, s⟩, halloc, ht'⟩
    rw [allocated, halloc]
    rcases envAlloc_cases halloc with ⟨henvs, -, err, rfl⟩ | ⟨i, rest, root, -, -, rfl, henvs⟩
    · rw [← ht', if_neg (by simp), henvs]
    · rw [← ht']
      dsimp only
      rw [henvs]
      by_cases hi : e = i
      · rw [hi, update_self, if_pos rfl, Kernel.newEnv]
      · rw [update_of_ne hi, if_neg (fun hc => hi (Option.some.inj hc).symm)]
  | free c i =>
    rcases step_free hstep with ⟨-, s, rfl, -, henvs⟩
    rw [allocated, if_neg (by simp), henvs]
    by_cases hi : e = i
    · rw [hi, update_self]
    · rw [update_of_ne hi]
  | status i st =>
    rw [Table.step] at hstep
    rcases Option.ite_none_right_eq_some.1 hstep with ⟨-, hstep⟩
    rw [← Option.some.inj hstep, allocated, if_neg (by simp), Kernel.setStatus,
      Kernel.setEnv_envs]
    by_cases hi : e = i
    · rw [hi, update_self]
    · rw [update_of_ne hi]

theorem Counted.step_named {c c' : Counted} {ev : TableEvent} (hstep : c.step ev = some c')
    (h : (c.table.kernel.envs e).envId = envIdAt e (c.allocs e)) :
    (c'.table.kernel.envs e).envId = envIdAt e (c'.allocs e) := by
  rcases Option.map_eq_some_iff.1 hstep with ⟨t, ht, rfl⟩
  rw [step_envId ht e, h]
  dsimp only
  by_cases hev : c.table.allocated ev = some e
  · rw [if_pos hev, if_pos hev, envIdAt]
  · rw [if_neg hev, if_neg hev]

/-- The name of a slot is the one for the number of its allocations. -/
theorem envId_eq {m : Vm} {bootPml4e : Nat} {c : Counted}
    (hrun : Lib.Run Counted.step (fun _ _ => True) ⟨envInit m bootPml4e, fun _ => 0⟩ c) (e : Nat) :
    (c.table.kernel.envs e).envId = envIdAt e (c.allocs e) :=
  hrun.invariant (fun c => (c.table.kernel.envs e).envId = envIdAt e (c.allocs e))
    (fun _ _ _ h _ hs => Counted.step_named hs h) rfl

/-- The names of a slot are positive, have its index, and repeat with the period `2 ^ 19 - 1`.
    The name that it has in a state of a run is refused while the slot is free, and when it has
    been allocated again, but less than that many times. -/
theorem envIds_distinct (m : Vm) (bootPml4e e : Nat) (he : e < nenv) :
    (∀ k, 0 < (envIdAt e (k + 1)).toInt ∧ (envIdAt e (k + 1)).toNat % nenv = e) ∧
    (∀ j k, envIdAt e (j + 1) = envIdAt e (k + 1) ↔ j % 524287 = k % 524287) ∧
    ∀ c, Lib.Run Counted.step (fun _ _ => True) ⟨envInit m bootPml4e, fun _ => 0⟩ c →
      (c.table.kernel.envs e).envId = envIdAt e (c.allocs e) ∧
      ∀ c', Lib.Run Counted.step (fun _ _ => True) c c' → 0 < c.allocs e →
        (c'.table.kernel.envs e).envStatus = .free ∨
          c.allocs e < c'.allocs e ∧ c'.allocs e < c.allocs e + 524287 →
        ∀ cur checkperm,
          c'.table.kernel.envid2env cur (c.table.kernel.envs e).envId checkperm = none := by
  refine ⟨fun k => ⟨nextEnvId_pos _ he, (nextEnvId_toNat _ he).2.2⟩, envIdAt_eq_iff he,
    fun c hc => ⟨envId_eq hc e, fun c' hc' hpos hgone cur checkperm => ?_⟩⟩
  rw [envId_eq hc e]
  have hnow := envId_eq (hc.trans hc') e
  obtain ⟨j, hj⟩ : ∃ j, c.allocs e = j + 1 := ⟨_, (Nat.sub_add_cancel hpos).symm⟩
  rw [hj] at hgone ⊢
  -- The name in a slot that was allocated again is another one.
  have hne : j + 1 < c'.allocs e ∧ c'.allocs e < j + 1 + 524287 →
      (c'.table.kernel.envs e).envId ≠ envIdAt e (j + 1) := by
    intro hagain
    obtain ⟨k, hk⟩ : ∃ k, c'.allocs e = k + 1 := ⟨_, (Nat.sub_add_cancel (by omega)).symm⟩
    rw [hnow, hk]
    intro heq
    have hmod := (envIdAt_eq_iff he k j).1 heq
    omega
  have hzero : envIdAt e (j + 1) ≠ 0 := by
    intro hz
    have hnat := toNat_envIdAt he j
    rw [hz] at hnat
    exact absurd hnat (by rw [show (0 : BitVec 32).toNat = 0 from rfl]; omega)
  have hidx : (envIdAt e (j + 1)).toNat % nenv = e := (nextEnvId_toNat _ he).2.2
  rw [Kernel.envid2env, if_neg hzero]
  dsimp only
  rw [hidx, if_pos (hgone.imp_right hne)]

/-- The first two names of the first slot. -/
theorem envIds_distinct_first : envIdAt 0 1 ≠ envIdAt 0 2 := by
  intro h
  have hids := (envIds_distinct ⟨16, fun _ => 0, [2, 3, 4], fun _ _ => 0⟩ 1 0 (by decide)).2.1 0 1
  exact absurd (hids.1 h) (by decide)

end Table
end Jos
