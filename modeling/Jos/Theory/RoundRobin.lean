import Jos.Theory.Calls
import Jos.Theory.Sched

/-!
# Round Robin

Which environment `sched_yield` picks, and which slots of `envs` it looks at. The search
starts one past the slot of the environment that the CPU was running. The counter goes
back to 0 when an increment makes it `NENV`, and the first slot is looked at before any
increment: from the last slot, the search starts at `NENV` and never comes back.

## Main definitions

* `Ready`: What the search looks for.
* `dist`: How far a slot is behind another one, round the array.
* `schedIndices`: The slots that `sched_yield` looks at.
* `RoundRobin`: What round robin means for a CPU.

## Theorems

* `schedScan_spec`: The search from a slot of the array.
* `roundRobin_iff`: Every slot but the last one is a good one to start from.
* `roundRobin_last`: From the last slot, an environment is left out.
-/

namespace Jos

variable {e c : Nat} {s : Kernel}

/-- An environment that can be switched to. -/
def Ready (v : Env) : Prop := v.envStatus = .runnable ∧ v.envType ≠ .idle

instance (v : Env) : Decidable (Ready v) :=
  inferInstanceAs (Decidable (v.envStatus = .runnable ∧ v.envType ≠ .idle))

/-- The number of steps from slot `e` to slot `j`, round the array. -/
def dist (e j : Nat) : Nat := (j + nenv - e) % nenv

namespace Kernel

/-! ## The slots that are looked at -/

/-- The slots that the search looks at, up to the one it finds. -/
def scanned (envs : Nat → Env) : Nat → Nat → List Nat
  | 0, _ => []
  | n + 1, k =>
    k :: if Ready (envs k) then [] else scanned envs n (if k + 1 = nenv then 0 else k + 1)

/-- An environment that is not idle and has something to do. -/
def Busy (v : Env) : Prop :=
  v.envType ≠ .idle ∧ (v.envStatus = .runnable ∨ v.envStatus = .running)

instance (v : Env) : Decidable (Busy v) :=
  inferInstanceAs
    (Decidable (v.envType ≠ .idle ∧ (v.envStatus = .runnable ∨ v.envStatus = .running)))

/-- The slots that the end of `sched_yield` looks at: all of them up to a busy one, and then
    that of the idle environment. -/
def idleIndices (s : Kernel) (c : Nat) : List Nat :=
  (List.range nenv).takeWhile (fun i => ¬Busy (s.envs i)) ++
    match (List.range nenv).find? fun i => Busy (s.envs i) with
    | some i => [i, c]
    | none => []

/-- All slots that `sched_yield` looks at. -/
def schedIndices (s : Kernel) (c : Nat) : List Nat :=
  let i := (s.cpuEnv c).getD 1
  scanned s.envs (nenv - 1) (i + 1) ++
    if (schedScan s.envs (nenv - 1) (i + 1)).isSome then []
    else (s.cpuEnv c).toList ++
      if (s.cpuEnv c).any fun e => (s.envs e).envStatus = .running then [] else s.idleIndices c

variable {envs : Nat → Env} {j : Nat}

theorem scanned_lt {n : Nat} : ∀ k, k < nenv →
    ∀ j ∈ scanned envs n k, j < nenv := by
  induction n with
  | zero =>
    intro k _ j hj
    exact absurd hj List.not_mem_nil
  | succ n ih =>
    intro k hk j hj
    rw [scanned, List.mem_cons] at hj
    rcases hj with hj | hj
    · rwa [hj]
    · by_cases hr : Ready (envs k)
      · rw [if_pos hr] at hj
        exact absurd hj List.not_mem_nil
      · rw [if_neg hr] at hj
        refine ih _ ?_ j hj
        by_cases hw : k + 1 = nenv
        · rw [if_pos hw]
          exact Nat.zero_lt_of_lt hk
        · rw [if_neg hw]
          omega

theorem idleIndices_lt (s : Kernel) (hc : c < nenv) : ∀ j ∈ s.idleIndices c, j < nenv := by
  intro j hj
  rw [idleIndices, List.mem_append] at hj
  rcases hj with hj | hj
  · exact List.mem_range.1 (List.takeWhile_subset _ hj)
  · cases hfind : (List.range nenv).find? fun i => Busy (s.envs i) with
    | none =>
      rw [hfind] at hj
      exact absurd hj List.not_mem_nil
    | some i =>
      rw [hfind] at hj
      rcases List.mem_cons.1 hj with hj | hj
      · rw [hj]
        exact List.mem_range.1 (List.mem_of_find?_eq_some hfind)
      · rwa [List.mem_singleton.1 hj]

/-! ## The search -/

theorem schedScan_succ (envs : Nat → Env) (n k : Nat) : schedScan envs (n + 1) k =
    if Ready (envs k) then some k else schedScan envs n (if k + 1 = nenv then 0 else k + 1) := rfl

/-- The search from a slot of the array: the first environment round it, if there is one in
    so many slots. -/
theorem schedScan_spec (envs : Nat → Env) (n : Nat) : ∀ k, k < nenv →
    (∀ j, schedScan envs n k = some j → ∃ t < n, j = (k + t) % nenv ∧ Ready (envs j) ∧
      ∀ t' < t, ¬Ready (envs ((k + t') % nenv))) ∧
    (schedScan envs n k = none → ∀ t < n, ¬Ready (envs ((k + t) % nenv))) := by
  induction n with
  | zero =>
    intro k _
    exact ⟨fun j hj => absurd hj (by simp [schedScan]), fun _ t ht => absurd ht (Nat.not_lt_zero t)⟩
  | succ n ih =>
    intro k hk
    have hfirst : (k + 0) % nenv = k := Nat.mod_eq_of_lt hk
    -- the counter as it goes on, and the slots behind it
    obtain ⟨k', hk'⟩ : ∃ k', k' = if k + 1 = nenv then 0 else k + 1 := ⟨_, rfl⟩
    have hlt : k' < nenv ∧ ∀ t, (k' + t) % nenv = (k + (t + 1)) % nenv := by
      by_cases hw : k + 1 = nenv
      · rw [if_pos hw] at hk'
        simp only [nenv] at hw ⊢
        exact ⟨by omega, fun t => by omega⟩
      · rw [if_neg hw] at hk'
        exact ⟨by omega, fun t => by rw [hk', Nat.add_right_comm, Nat.add_assoc]⟩
    rcases ih k' hlt.1 with ⟨hsome, hnone⟩
    rw [schedScan_succ, ← hk']
    by_cases hr : Ready (envs k)
    · rw [if_pos hr]
      refine ⟨?_, fun hc => by cases hc⟩
      intro j hj
      rw [Option.some.injEq] at hj
      refine ⟨0, Nat.succ_pos n, ?_, hj ▸ hr, fun t' ht' => absurd ht' (Nat.not_lt_zero t')⟩
      rw [hfirst, hj]
    · rw [if_neg hr]
      -- slot `k` itself is not ready, the others are one step further
      have hshift : ∀ t, (∀ t' < t, ¬Ready (envs ((k' + t') % nenv))) →
          ∀ t' < t + 1, ¬Ready (envs ((k + t') % nenv)) := by
        intro t hall t' ht'
        cases t' with
        | zero =>
          rwa [hfirst]
        | succ t' =>
          rw [← hlt.2 t']
          exact hall t' (by omega)
      refine ⟨?_, fun hc => hshift n (hnone hc)⟩
      intro j hj
      rcases hsome j hj with ⟨t, ht, hjt, hready, hall⟩
      exact ⟨t + 1, by omega, hjt.trans (hlt.2 t), hready, hshift t hall⟩

/-- The slots behind `e` are all the others, by their distance. -/
theorem dist_spec (he : e < nenv) (hj : j < nenv) (hne : j ≠ e) :
    0 < dist e j ∧ dist e j < nenv ∧ (e + 1 + (dist e j - 1)) % nenv = j := by
  simp only [dist, nenv] at he hj ⊢
  omega

theorem dist_pos {t : Nat} (he : e < nenv) (ht : t < nenv - 1) :
    (e + 1 + t) % nenv < nenv ∧ (e + 1 + t) % nenv ≠ e ∧ dist e ((e + 1 + t) % nenv) = t + 1 := by
  simp only [dist, nenv] at he ht ⊢
  omega

/-! ## Round robin -/

/-- Slot `j` is the first one behind `e` with an environment that is ready. -/
structure Nearest (s : Kernel) (e j : Nat) : Prop where
  lt : j < nenv
  ne : j ≠ e
  ready : Ready (s.envs j)
  least : ∀ j' < nenv, j' ≠ e → Ready (s.envs j') → dist e j ≤ dist e j'

/-- Round robin on CPU `c`, which was running `e`. -/
structure RoundRobin (s : Kernel) (c e : Nat) : Prop where
  next : (∃ j < nenv, j ≠ e ∧ Ready (s.envs j)) →
    ∃ j, s.Nearest e j ∧ (s.schedYield c : Flow Unit) = .user (s.envRun c j)
  again : (∀ j < nenv, j ≠ e → ¬Ready (s.envs j)) → (s.envs e).envStatus = .running →
    (s.schedYield c : Flow Unit) = .user (s.envRun c e)
  inside : ∀ k ∈ s.schedIndices c, k < nenv

theorem schedYield_some (hcur : s.cpuEnv c = some e)
    (hscan : schedScan s.envs (nenv - 1) (e + 1) = some j) :
    (s.schedYield c : Flow Unit) = .user (s.envRun c j) := by
  unfold schedYield
  simp only [hcur, Option.getD_some, hscan]

theorem schedYield_again (hcur : s.cpuEnv c = some e)
    (hscan : schedScan s.envs (nenv - 1) (e + 1) = none) (hrun : (s.envs e).envStatus = .running) :
    (s.schedYield c : Flow Unit) = .user (s.envRun c e) := by
  unfold schedYield
  simp only [hcur, Option.getD_some, hscan, hrun, if_true]

/-- The search from any slot but the last. -/
theorem roundRobin_of_lt (hc : c < ncpu) (hcur : s.cpuEnv c = some e) (he : e + 1 < nenv) :
    s.RoundRobin c e := by
  have he' : e < nenv := Nat.lt_of_succ_lt he
  have hcn : c < nenv := Nat.lt_of_lt_of_le hc (by decide)
  rcases schedScan_spec s.envs (nenv - 1) (e + 1) he with ⟨hsome, hnone⟩
  refine ⟨?_, ?_, ?_⟩
  · rintro ⟨j, hj, hne, hready⟩
    cases hscan : schedScan s.envs (nenv - 1) (e + 1) with
    | none =>
      -- the search has seen every other slot
      rcases dist_spec he' hj hne with ⟨hpos, hlt, hslot⟩
      have hmiss := hnone hscan (dist e j - 1) (by omega)
      rw [hslot] at hmiss
      exact absurd hready hmiss
    | some j0 =>
      rcases hsome j0 hscan with ⟨t, ht, hjt, hr0, hall⟩
      rcases dist_pos he' ht with ⟨hlt, hne0, hdist⟩
      refine ⟨j0, ⟨hjt ▸ hlt, hjt ▸ hne0, hr0, ?_⟩, schedYield_some hcur hscan⟩
      intro j' hj' hne' hready'
      rcases dist_spec he' hj' hne' with ⟨hpos, _, hslot⟩
      rw [hjt, hdist]
      by_contra hcloser
      refine hall (dist e j' - 1) (by omega) ?_
      rwa [hslot]
  · intro hnobody hrun
    refine schedYield_again hcur ?_ hrun
    cases hscan : schedScan s.envs (nenv - 1) (e + 1) with
    | none => rfl
    | some j0 =>
      rcases hsome j0 hscan with ⟨t, ht, hjt, hr0, _⟩
      rcases dist_pos he' ht with ⟨hlt, hne0, _⟩
      exact absurd hr0 (hnobody j0 (hjt ▸ hlt) (hjt ▸ hne0))
  · intro k hk
    rw [schedIndices, hcur, Option.getD_some, List.mem_append] at hk
    rcases hk with hk | hk
    · exact scanned_lt (e + 1) he k hk
    · split at hk
      · exact absurd hk List.not_mem_nil
      · rcases List.mem_append.1 hk with hk | hk
        · rw [Option.toList_some, List.mem_singleton] at hk
          rwa [hk]
        · split at hk
          · exact absurd hk List.not_mem_nil
          · exact s.idleIndices_lt hcn k hk

/-- From the last slot the search looks behind the array at once. -/
theorem last_outside (hcur : s.cpuEnv c = some e) (he : e + 1 = nenv) :
    nenv ∈ s.schedIndices c := by
  have hfuel : nenv - 1 = 1022 + 1 := rfl
  rw [schedIndices, hcur, Option.getD_some, List.mem_append, he, hfuel, scanned]
  exact .inl List.mem_cons_self

/-- `sched_yield` goes round the environments, and stays in the array, on every CPU that was
    not running the last one. -/
theorem roundRobin_iff (s : Kernel) (c e : Nat) (hc : c < ncpu) (hcur : s.cpuEnv c = some e)
    (he : e < nenv) : s.RoundRobin c e ↔ e ≠ nenv - 1 := by
  constructor
  · intro h hlast
    have hend : e + 1 = nenv := by
      rw [hlast]
      rfl
    exact absurd (h.inside nenv (last_outside hcur hend)) (Nat.lt_irrefl _)
  · intro hne
    exact roundRobin_of_lt hc hcur (by omega)

/-- CPU 0 was running environment `e`, and environment 5 is ready. -/
def oneReady (e : Nat) : Kernel :=
  { Kernel.envInit ⟨0, fun _ => 0, [], fun _ _ => 0⟩ 0 with
    envs := fun i =>
      if i = e then { envStatus := .running } else if i = 5 then { envStatus := .runnable } else {}
    cpuEnv := fun c => if c = 0 then some e else none }

theorem roundRobin_eight : (oneReady 8).cpuEnv 0 = some 8 ∧ (oneReady 8).RoundRobin 0 8 :=
  ⟨rfl, (roundRobin_iff (oneReady 8) 0 8 (by decide) rfl (by decide)).2 (by decide)⟩

/-- Behind the array the search finds nothing if nothing is there. -/
theorem schedScan_beyond (hnone : ∀ i, nenv ≤ i → ¬Ready (envs i)) (n : Nat) :
    ∀ k, nenv ≤ k → schedScan envs n k = none := by
  induction n with
  | zero =>
    intro k _
    rfl
  | succ n ih =>
    intro k hk
    have hne : k + 1 ≠ nenv := by omega
    rw [schedScan_succ, if_neg (hnone k hk), if_neg hne]
    exact ih (k + 1) (by omega)

/-- From the last slot, environment 5 is not found: the CPU goes on with its own. -/
theorem roundRobin_last : (oneReady 1023).cpuEnv 0 = some 1023 ∧ Ready ((oneReady 1023).envs 5) ∧
    ((oneReady 1023).schedYield 0 : Flow Unit) = .user ((oneReady 1023).envRun 0 1023) ∧
    nenv ∈ (oneReady 1023).schedIndices 0 ∧ ¬(oneReady 1023).RoundRobin 0 1023 := by
  have hbeyond : ∀ i, nenv ≤ i → ¬Ready ((oneReady 1023).envs i) := by
    intro i hi hr
    have h1 : i ≠ 1023 := by simp only [nenv] at hi; omega
    have h5 : i ≠ 5 := by simp only [nenv] at hi; omega
    have hfree : (oneReady 1023).envs i = {} := by simp only [oneReady, if_neg h1, if_neg h5]
    rw [hfree] at hr
    exact absurd hr (by decide)
  have hout := last_outside (s := oneReady 1023) (c := 0) (e := 1023) rfl rfl
  refine ⟨rfl, by decide, ?_, hout, fun h => absurd (h.inside nenv hout) (Nat.lt_irrefl _)⟩
  exact schedYield_again rfl (schedScan_beyond hbeyond _ _ le_rfl) rfl

end Kernel

end Jos
