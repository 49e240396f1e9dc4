import Jos.Lib.Chain
import Jos.Theory.Calls

/-!
# The Environment Table

The free slots of `envs` are chained through the records themselves, and a slot that is
used again gets a name with a new generation above its index. `Table` has the links next
to the kernel, and follows `env_init`, `env_alloc` and `env_free` on them. The list the
rest of the development works with is what one meets from `env_free_list` on.

The generation is counted in an `int32_t`. When it would become negative it starts again,
so that names are positive, and since it stays above the index bits a name leads back to
its slot.

## Main definitions

* `Table`, `Table.step`: The kernel with the links of the free list.
* `Table.Ok`: The free list holds the free slots, and names lead to their slots.

## Theorems

* `nextEnvId_toNat`: The parts of a new name.
* `Table.Ok.lookup`: What `envid2env` finds.
* `table_ok`: The table in every run.
-/

namespace Jos

open Function (update update_self update_of_ne)

/-! ## Names -/

/-- Clearing the bits of the index. -/
theorem and_not_index (w : BitVec 32) : (w &&& ~~~1023).toNat = w.toNat / 1024 * 1024 := by
  have hmask : ∀ i : Fin 32, (~~~(1023 : BitVec 32)).getLsbD i = decide (10 ≤ i.val) := by decide
  have hshift : w &&& ~~~(1023 : BitVec 32) = w >>> 10 <<< 10 := by
    ext i hi
    have hm := hmask ⟨i, hi⟩
    simp only at hm
    rw [BitVec.getElem_and, BitVec.getElem_shiftLeft, ← BitVec.getLsbD_eq_getElem hi,
      ← BitVec.getLsbD_eq_getElem hi, hm]
    by_cases h : i < 10
    · simp [h, Nat.not_le.2 h]
    · simp [h, Nat.not_lt.1 h]
  have hlt := w.isLt
  rw [hshift, BitVec.toNat_shiftLeft, BitVec.toNat_ushiftRight, Nat.shiftLeft_eq,
    Nat.shiftRight_eq_div_pow]
  omega

variable {e : Nat}

/-- An index below a generation. -/
theorem or_index {w : BitVec 32} (hw : w.toNat % 1024 = 0) (he : e < nenv) :
    (w ||| BitVec.ofNat 32 e).toNat = w.toNat + e := by
  have he' : e < 2 ^ 10 := he
  have hsplit : w.toNat = (w.toNat / 1024) <<< 10 := by
    rw [Nat.shiftLeft_eq]
    omega
  rw [BitVec.toNat_or, BitVec.toNat_ofNat, Nat.mod_eq_of_lt (by omega), hsplit,
    ← Nat.shiftLeft_add_eq_or_of_lt he']

/-- A new name is positive and has the index of its slot. -/
theorem nextEnvId_toNat (old : BitVec 32) (he : e < nenv) :
    0 < (Kernel.nextEnvId old e).toNat ∧ (Kernel.nextEnvId old e).toNat < 2 ^ 31 ∧
      (Kernel.nextEnvId old e).toNat % nenv = e := by
  have he' : e < 1024 := he
  unfold Kernel.nextEnvId
  dsimp only
  have hgen := and_not_index (old + 4096)
  generalize (old + 4096) &&& ~~~1023 = gen at hgen
  have hint := BitVec.toInt_eq_toNat_cond gen
  by_cases hneg : gen.toInt ≤ 0
  · rw [if_pos hneg, or_index (by decide) he, show (4096 : BitVec 32).toNat = 4096 by rfl]
    simp only [nenv]
    omega
  · rw [if_neg hneg, or_index (by omega) he]
    simp only [nenv]
    split at hint
    · omega
    · omega

theorem nextEnvId_pos (old : BitVec 32) (he : e < nenv) : 0 < (Kernel.nextEnvId old e).toInt := by
  rcases nextEnvId_toNat old he with ⟨hpos, hlt, -⟩
  have hint := BitVec.toInt_eq_toNat_of_lt (show 2 * (Kernel.nextEnvId old e).toNat < 2 ^ 32 by
    omega)
  omega

/-! ## The table with its links -/

/-- The kernel with the variable `env_free_list` and the fields `env_link`. -/
structure Table where
  kernel : Kernel
  envFreeList : Option Nat
  envLink : Nat → Option Nat

/-- What is done to the table. -/
inductive TableEvent
  | alloc (parentId : BitVec 32)
  | free (c e : Nat)
  | status (e : Nat) (st : EnvStatus)

namespace Table

/-- `env_init` -/
def envInit (m : Vm) (bootPml4e : Nat) : Table where
  kernel := Kernel.envInit m bootPml4e
  envFreeList := some 0
  envLink := fun i => if i = nenv - 1 then none else some (i + 1)

/-- `env_alloc` takes the slot that `env_free_list` points to, and commits by moving the
    pointer on. `env_free` of a slot in use, on any CPU, puts it in front. Other code changes
    the status of slots that are in use, but not to or from `ENV_FREE`. -/
def step (t : Table) : TableEvent → Option Table
  | .alloc parentId =>
    (t.kernel.envAlloc parentId).map fun r =>
      match r with
      | (.error _, s) => { t with kernel := s }
      | (.ok _, s) => { t with kernel := s, envFreeList := t.envFreeList.bind t.envLink }
  | .free c e =>
    if e < nenv ∧ (t.kernel.envs e).envStatus ≠ .free then
      match t.kernel.envFree c e with
      | .ret _ s =>
        some ⟨s, some e, update t.envLink e t.envFreeList⟩
      | _ => none
    else none
  | .status e st =>
    if e < nenv ∧ (t.kernel.envs e).envStatus ≠ .free ∧ st ≠ .free then
      some { t with kernel := t.kernel.setStatus e st }
    else none

/-- The links from `env_free_list` on lead through the free slots and no others, once
    through each. The slots in use have positive names with their own index. -/
structure Ok (t : Table) : Prop where
  chain : Lib.Chain t.envLink t.envFreeList t.kernel.envFreeList
  nodup : t.kernel.envFreeList.Nodup
  free : ∀ e, e ∈ t.kernel.envFreeList ↔ e < nenv ∧ (t.kernel.envs e).envStatus = .free
  names : ∀ e, e < nenv → (t.kernel.envs e).envStatus ≠ .free →
    0 < (t.kernel.envs e).envId.toInt ∧ (t.kernel.envs e).envId.toNat % nenv = e

/-- An array chained as `env_init` does it. -/
theorem chain_slots {n : Nat} (hn : 0 < n) :
    Lib.Chain (fun i => if i = n - 1 then none else some (i + 1)) (some 0) (List.range n) := by
  have hchain := Lib.chain_range n 0
  rw [if_neg (by omega), ← List.range_eq_range'] at hchain
  refine hchain.congr fun e he => ?_
  have hlt := List.mem_range.1 he
  by_cases hlast : e = n - 1
  · rw [if_pos hlast, if_neg (by omega)]
  · rw [if_neg hlast, if_pos (by omega)]

theorem ok_envInit (m : Vm) (bootPml4e : Nat) : (envInit m bootPml4e).Ok := by
  have hlist : (envInit m bootPml4e).kernel.envFreeList = List.range nenv := by
    rw [envInit, Kernel.envInit]
  have hst : ∀ e, ((envInit m bootPml4e).kernel.envs e).envStatus = .free := by
    intro e
    rw [envInit, Kernel.envInit]
  have hhead : (envInit m bootPml4e).envFreeList = some 0 := rfl
  have hlink : (envInit m bootPml4e).envLink =
      fun i => if i = nenv - 1 then none else some (i + 1) := rfl
  refine ⟨?_, ?_, ?_, ?_⟩
  · rw [hlist, hhead, hlink]
    exact chain_slots (by decide)
  · rw [hlist]
    exact List.nodup_range
  · intro e
    rw [hlist, List.mem_range]
    exact ⟨fun he => ⟨he, hst e⟩, fun he => he.1⟩
  · intro e _ hne
    exact absurd (hst e) hne

variable {s s' : Kernel} {t : Table} {env : Env}

/-- `env_alloc` on the table: nothing, or the first free slot is filled. -/
theorem envAlloc_cases {parentId : BitVec 32} {r : Except Int Nat}
    (hrun : s.envAlloc parentId = some (r, s')) :
    (s'.envs = s.envs ∧ s'.envFreeList = s.envFreeList ∧ ∃ err, r = .error err) ∨
      ∃ e rest root, s.envFreeList = e :: rest ∧ s'.envFreeList = rest ∧ r = .ok e ∧
        s'.envs = update s.envs e (Kernel.newEnv (s.envs e) e root parentId) := by
  rcases Kernel.envAlloc_cases hrun with
    ⟨herr, rfl | ⟨_, _, m, -, -, rfl⟩⟩ | ⟨e, rest, p, m, rfl, hlist, -, rfl⟩
  · exact .inl ⟨rfl, rfl, herr⟩
  · exact .inl ⟨rfl, rfl, herr⟩
  · exact .inr ⟨e, rest, p, hlist, rfl, rfl, rfl⟩

/-- `env_free` of a slot in use. -/
theorem step_free {c : Nat} {t' : Table} (hstep : t.step (.free c e) = some t') :
    (e < nenv ∧ (t.kernel.envs e).envStatus ≠ .free) ∧
      ∃ s, t' = ⟨s, some e, update t.envLink e t.envFreeList⟩ ∧
        s.envFreeList = e :: t.kernel.envFreeList ∧ s.envs = update t.kernel.envs e
          { t.kernel.envs e with envPml4e := none, envCr3 := 0, envStatus := .free } := by
  rw [Table.step] at hstep
  rcases Option.ite_none_right_eq_some.1 hstep with ⟨hg, hstep⟩
  split at hstep
  · next u s hfree =>
    cases hstep
    unfold Kernel.envFree at hfree
    dsimp only at hfree
    split at hfree
    · cases hfree
    · cases hfree
      exact ⟨hg, _, rfl, rfl, rfl⟩
  · cases hstep

/-- A slot becomes free. -/
theorem Ok.release (h : t.Ok) (he : e < nenv) (hst : (t.kernel.envs e).envStatus ≠ .free)
    (henv : env.envStatus = .free) (hlist : s.envFreeList = e :: t.kernel.envFreeList)
    (henvs : s.envs = update t.kernel.envs e env) :
    Ok ⟨s, some e, update t.envLink e t.envFreeList⟩ := by
  have hnot : e ∉ t.kernel.envFreeList := fun hc => hst ((h.free e).1 hc).2
  refine ⟨?_, ?_, ?_, ?_⟩
  · dsimp only
    rw [hlist]
    exact h.chain.push hnot
  · dsimp only
    rw [hlist]
    exact List.nodup_cons.2 ⟨hnot, h.nodup⟩
  · intro i
    dsimp only
    rw [hlist, henvs, List.mem_cons]
    by_cases hi : i = e
    · rw [hi, update_self]
      exact ⟨fun _ => ⟨he, henv⟩, fun _ => .inl rfl⟩
    · rw [update_of_ne hi, ← h.free i]
      exact ⟨fun hor => hor.resolve_left hi, .inr⟩
  · intro i hi hsti
    dsimp only at hsti ⊢
    rw [henvs] at hsti ⊢
    by_cases hie : i = e
    · rw [hie, update_self] at hsti
      exact absurd henv hsti
    · rw [update_of_ne hie] at hsti ⊢
      exact h.names i hi hsti

/-- The first free slot is taken. -/
theorem Ok.take (h : t.Ok) {rest : List Nat} (hlist : t.kernel.envFreeList = e :: rest)
    (hrest : s.envFreeList = rest) (hst : env.envStatus ≠ .free)
    (hname : e < nenv → 0 < env.envId.toInt ∧ env.envId.toNat % nenv = e)
    (henvs : s.envs = update t.kernel.envs e env) :
    Ok { t with kernel := s, envFreeList := t.envFreeList.bind t.envLink } := by
  have hchain := h.chain
  have hnodup := h.nodup
  rw [hlist] at hchain hnodup
  rw [List.nodup_cons] at hnodup
  have he : e < nenv := ((h.free e).1 (hlist ▸ List.mem_cons_self)).1
  refine ⟨?_, ?_, ?_, ?_⟩
  · dsimp only
    rw [hrest, hchain.pop.1, Option.bind_some]
    exact hchain.pop.2
  · dsimp only
    rw [hrest]
    exact hnodup.2
  · intro i
    dsimp only
    rw [hrest, henvs]
    by_cases hi : i = e
    · rw [hi, update_self]
      exact ⟨fun hc => absurd hc hnodup.1, fun hc => absurd hc.2 hst⟩
    · rw [update_of_ne hi, ← h.free i, hlist, List.mem_cons]
      exact ⟨.inr, fun hor => hor.resolve_left hi⟩
  · intro i hi hsti
    dsimp only at hsti ⊢
    rw [henvs] at hsti ⊢
    by_cases hie : i = e
    · rw [hie, update_self]
      exact hname he
    · rw [update_of_ne hie] at hsti ⊢
      exact h.names i hi hsti

/-- Names and free slots stay. -/
theorem Ok.congr (h : t.Ok) (hlist : s.envFreeList = t.kernel.envFreeList)
    (hsame : ∀ i, (s.envs i).envId = (t.kernel.envs i).envId ∧
      ((s.envs i).envStatus = .free ↔ (t.kernel.envs i).envStatus = .free)) :
    Ok { t with kernel := s } := by
  refine ⟨hlist ▸ h.chain, hlist ▸ h.nodup, ?_, ?_⟩
  · intro i
    dsimp only
    rw [hlist, (hsame i).2]
    exact h.free i
  · intro i hi hst
    dsimp only at hst ⊢
    rw [(hsame i).1]
    exact h.names i hi (fun hc => hst ((hsame i).2.2 hc))

/-- One step keeps the table in order. -/
theorem Ok.step {t : Table} (h : t.Ok) {ev : TableEvent} {t' : Table}
    (hstep : t.step ev = some t') : t'.Ok := by
  cases ev with
  | alloc parentId =>
    rcases Option.map_eq_some_iff.1 hstep with ⟨⟨r, s⟩, halloc, ht'⟩
    rcases envAlloc_cases halloc with
      ⟨henvs, hlist, err, hr⟩ | ⟨e, rest, root, hlist, hrest, hr, henvs⟩
    · rw [hr] at ht'
      rw [← ht']
      exact h.congr hlist fun i => henvs ▸ ⟨rfl, Iff.rfl⟩
    · rw [hr] at ht'
      rw [← ht']
      refine h.take hlist hrest (by simp [Kernel.newEnv]) ?_ henvs
      intro he
      exact ⟨nextEnvId_pos _ he, (nextEnvId_toNat _ he).2.2⟩
  | free c e =>
    rcases step_free hstep with ⟨⟨he, hst⟩, s, rfl, hlist, henvs⟩
    exact h.release he hst rfl hlist henvs
  | status e st =>
    rw [Table.step] at hstep
    rcases Option.ite_none_right_eq_some.1 hstep with ⟨hg, hstep⟩
    rw [← Option.some.inj hstep]
    -- no status is set to or from free
    refine h.congr rfl fun i => ?_
    unfold Kernel.setStatus
    rw [Kernel.setEnv_envs]
    by_cases hi : i = e
    · rw [hi, update_self]
      exact ⟨rfl, fun hc => absurd hc hg.2.2, fun hc => absurd hc hg.2.1⟩
    · rw [update_of_ne hi]
      exact ⟨rfl, Iff.rfl⟩

/-- Two slots in use have different names. -/
theorem Ok.names_inj (h : t.Ok) (e e' : Nat) (he : e < nenv) (he' : e' < nenv)
    (hst : (t.kernel.envs e).envStatus ≠ .free) (hst' : (t.kernel.envs e').envStatus ≠ .free)
    (hid : (t.kernel.envs e).envId = (t.kernel.envs e').envId) : e = e' := by
  rw [← (h.names e he hst).2, ← (h.names e' he' hst').2, hid]

/-- `envid2env` without the check of permissions finds the slot with the name. -/
theorem Ok.lookup (h : t.Ok) (cur : Nat) (envid : BitVec 32) (hid : envid ≠ 0) (e : Nat) :
    t.kernel.envid2env cur envid false = some e ↔
      e < nenv ∧ (t.kernel.envs e).envStatus ≠ .free ∧ (t.kernel.envs e).envId = envid := by
  unfold Kernel.envid2env
  rw [if_neg hid]
  dsimp only
  have hlt : envid.toNat % nenv < nenv := Nat.mod_lt _ (by decide)
  by_cases hbad : (t.kernel.envs (envid.toNat % nenv)).envStatus = .free ∨
      (t.kernel.envs (envid.toNat % nenv)).envId ≠ envid
  · rw [if_pos hbad]
    refine ⟨fun hc => absurd hc (by simp), fun ⟨he, hst, hname⟩ => ?_⟩
    -- a slot with this name is the one at the index
    have hidx := (h.names e he hst).2
    rw [hname] at hidx
    rw [hidx] at hbad
    rcases hbad with hbad | hbad
    · exact absurd hbad hst
    · exact absurd hname hbad
  · rw [if_neg hbad, if_neg (by simp), Option.some.injEq]
    rw [not_or, not_not] at hbad
    refine ⟨fun he => ?_, fun ⟨he, hst, hname⟩ => ?_⟩
    · rw [← he]
      exact ⟨hlt, hbad.1, hbad.2⟩
    · rw [← hname]
      exact (h.names e he hst).2

/-- The free list, the names and `envid2env` in every state that `env_init`, `env_alloc`,
    `env_free` and changes of status lead to. -/
theorem table_ok (m : Vm) (bootPml4e : Nat) (t : Table)
    (hrun : Lib.Run step (fun _ _ => True) (envInit m bootPml4e) t) :
    (∃ l, Lib.Chain t.envLink t.envFreeList l ∧ l.Nodup ∧
      ∀ e, e ∈ l ↔ e < nenv ∧ (t.kernel.envs e).envStatus = .free) ∧
    (∀ e, e < nenv → (t.kernel.envs e).envStatus ≠ .free →
      0 < (t.kernel.envs e).envId.toInt ∧ (t.kernel.envs e).envId.toNat % nenv = e) ∧
    (∀ e e', e < nenv → e' < nenv → (t.kernel.envs e).envStatus ≠ .free →
      (t.kernel.envs e').envStatus ≠ .free →
      (t.kernel.envs e).envId = (t.kernel.envs e').envId → e = e') ∧
    ∀ cur envid, envid ≠ 0 → ∀ e, t.kernel.envid2env cur envid false = some e ↔
      e < nenv ∧ (t.kernel.envs e).envStatus ≠ .free ∧ (t.kernel.envs e).envId = envid := by
  have h : t.Ok := hrun.invariant Table.Ok (fun t ev t' ht _ hs => ht.step hs)
    (ok_envInit m bootPml4e)
  exact ⟨⟨_, h.chain, h.nodup, h.free⟩, h.names, h.names_inj, h.lookup⟩

/-- One environment is made and runs, and there is no memory for a second. -/
theorem table_ok_one : ∃ t : Table, (t.kernel.envs 0).envStatus = .running ∧
    t.kernel.envid2env 0 4096 false = some 0 := by
  have hrun : ((Lib.runEvents step (envInit ⟨16, fun _ => 0, [2, 3, 4], fun _ _ => 0⟩ 1)
      [.alloc 0, .status 0 .running, .alloc 4096]).map fun t =>
        ((t.kernel.envs 0).envStatus, (t.kernel.envs 0).envId)) = some (.running, 4096) := by
    decide +kernel
  rcases Option.map_eq_some_iff.1 hrun with ⟨t, hrun, hv⟩
  rw [Prod.mk.injEq] at hv
  have hok := table_ok _ _ t (Lib.Run.of_runEvents _ t hrun)
  refine ⟨t, hv.1, (hok.2.2.2 0 4096 (by decide) 0).2 ⟨by decide, ?_, hv.2⟩⟩
  rw [hv.1]
  decide

end Table
end Jos
