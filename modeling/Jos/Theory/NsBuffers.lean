import Jos.Core.Ns
import Jos.Lib.Flow
import Mathlib.Data.List.Perm.Basic

/-!
# The Buffers of the Network Server

A slot of the pool is marked as used exactly while a request is in it, or while `serve`
waits for one to come. Every way out of the loop of `serve` has to keep that up, and two do
not: a message without a page keeps its slot for good, and so does one for which no
thread can be made.

## Main definitions

* `State.held`: The pages in use.
* `State.Conserved`: The marks are right.
* `Carried`: A message that `serve` answers or hands to a thread.

## Theorems

* `Slots.take`, `Slots.put`: The pool.
* `Inv.step`: One step.
* `buffers_conserved`: Every run, and what one message more does.
* `buffers_leak`: Twenty messages without a page.
-/

namespace Jos.Ns

/-- The page that `serve` has taken for itself. -/
def Pc.reserved : Pc → Option Nat
  | .recv va => some va
  | .timer va => some va
  | _ => none

/-- The pages of the requests in service. -/
def State.inService (s : State) : List Nat := s.threads.map StArgs.req

/-- All pages in use. -/
def State.held (s : State) : List Nat := s.pc.reserved.toList ++ s.inService

/-- A slot is marked if and only if its page is in use. -/
def State.Conserved (s : State) : Prop :=
  ∀ i, i < queueSize → (s.buse i = true ↔ slotVa i ∈ s.inService ∨ s.pc.reserved = some (slotVa i))

/-- The message is from the timer, or it has a page and gets its thread. -/
def Carried : Event → Prop
  | .message reqno _ perm mem => reqno = nsreqTimer ∨ (perm &&& 1 ≠ 0 ∧ mem ≠ .noThread)
  | _ => True

theorem slot_slotVa (i : Nat) : (slotVa i - reqva) / pgsize = i := by
  unfold slotVa
  rw [Nat.add_sub_cancel_left]
  exact Nat.mul_div_cancel i (by decide)

variable {i va : Nat} {buse : Nat → Bool} {reqno whom : BitVec 32} {mem : Memory}

theorem slotVa_injective {j : Nat} (h : slotVa i = slotVa j) : i = j := by
  rw [← slot_slotVa i, ← slot_slotVa j, h]

/-- The marks belong to these pages, which are all different. -/
structure Slots (buse : Nat → Bool) (held : List Nat) : Prop where
  valid : ∀ va ∈ held, ∃ i, i < queueSize ∧ va = slotVa i
  nodup : held.Nodup
  marks : ∀ i, i < queueSize → (buse i = true ↔ slotVa i ∈ held)

namespace Slots

variable {buse : Nat → Bool} {held held' : List Nat}

theorem perm (h : Slots buse held) (hp : held.Perm held') : Slots buse held' := by
  refine ⟨?_, hp.nodup_iff.1 h.nodup, ?_⟩
  · intro va hva
    exact h.valid va (hp.mem_iff.2 hva)
  · intro i hi
    rw [h.marks i hi, hp.mem_iff]

/-- A free slot is taken. -/
theorem take (h : Slots buse held) (hi : i < queueSize) (hfree : buse i = false) :
    Slots (Function.update buse i true) (slotVa i :: held) := by
  have hnot : slotVa i ∉ held := by
    rw [← h.marks i hi, hfree]
    decide
  refine ⟨?_, List.nodup_cons.2 ⟨hnot, h.nodup⟩, ?_⟩
  · intro va hva
    rcases List.mem_cons.1 hva with rfl | hold
    · exact ⟨i, hi, rfl⟩
    · exact h.valid va hold
  · intro j hj
    rw [List.mem_cons]
    by_cases hji : j = i
    · rw [hji, Function.update_self]
      exact iff_of_true rfl (.inl rfl)
    · rw [Function.update_of_ne hji, h.marks j hj]
      refine (or_iff_right ?_).symm
      intro he
      exact hji (slotVa_injective he)

/-- A page is given back. -/
theorem put (h : Slots buse (va :: held)) : Slots (putBuffer buse va) held := by
  rcases List.nodup_cons.1 h.nodup with ⟨hnot, hnodup⟩
  rcases h.valid va List.mem_cons_self with ⟨i, -, rfl⟩
  unfold putBuffer
  rw [slot_slotVa]
  refine ⟨fun va' hva' => h.valid va' (List.mem_cons_of_mem _ hva'), hnodup, ?_⟩
  intro j hj
  by_cases hji : j = i
  · rw [hji, Function.update_self]
    exact iff_of_false (by decide) hnot
  · rw [Function.update_of_ne hji, h.marks j hj, List.mem_cons]
    refine or_iff_right ?_
    intro he
    exact hji (slotVa_injective he)

/-- When all slots are marked, there are as many pages as slots. -/
theorem full (h : Slots buse held) (hfull : ∀ i, i < queueSize → buse i = true) :
    held.length = queueSize := by
  have hall : held.Perm ((List.range queueSize).map slotVa) := by
    refine (List.perm_ext_iff_of_nodup h.nodup ?_).2 ?_
    · exact List.nodup_range.map (fun i j => slotVa_injective)
    · intro va
      rw [List.mem_map]
      constructor
      · intro hva
        rcases h.valid va hva with ⟨i, hi, rfl⟩
        exact ⟨i, List.mem_range.2 hi, rfl⟩
      · rintro ⟨i, hi, rfl⟩
        exact (h.marks i (List.mem_range.1 hi)).1 (hfull i (List.mem_range.1 hi))
  rw [hall.length_eq, List.length_map, List.length_range]

end Slots

/-- What `get_buffer` finds. -/
theorem getBuffer_eq_some {buse' : Nat → Bool} (h : getBuffer buse = some (va, buse')) :
    ∃ i, i < queueSize ∧ buse i = false ∧ va = slotVa i ∧ buse' = Function.update buse i true := by
  rcases Option.map_eq_some_iff.1 h with ⟨i, hi, heq⟩
  rw [Prod.mk.injEq] at heq
  have hfree := List.find?_some hi
  rw [Bool.not_eq_true'] at hfree
  exact ⟨i, List.mem_range.1 (List.mem_of_find?_eq_some hi), hfree, heq.1.symm, heq.2.symm⟩

theorem getBuffer_eq_none (h : getBuffer buse = none) : ∀ i, i < queueSize → buse i = true := by
  intro i hi
  have hnone := List.find?_eq_none.1 (Option.map_eq_none_iff.1 h) i (List.mem_range.2 hi)
  simpa using hnone

/-- `serve` has ended. -/
def Pc.isPanicked : Pc → Bool
  | .panicked _ => true
  | _ => false

/-- While `serve` goes on the marks are right, and `get_buffer` gives up only when all
    pages are in service. -/
structure Inv (s : State) : Prop where
  slots : s.pc.isPanicked = false → Slots s.buse s.held
  overflow : s.pc = .panicked "NS: buffer overflow" → s.inService.length = queueSize

variable {s s' : State}

/-- `serve` takes a message only while it waits for one. -/
theorem step_message {perm : BitVec 32} (hs : step s (.message reqno whom perm mem) = some s') :
    ∃ va, s.pc = .recv va ∧ s' = received s va reqno whom perm mem := by
  rw [step] at hs
  split at hs
  · next va hpc => exact ⟨va, hpc, (Option.some.inj hs).symm⟩
  · cases hs

namespace Inv

/-- A state that goes on. -/
theorem of_slots (hgo : s.pc.isPanicked = false) (h : Slots s.buse s.held) : Inv s := by
  refine ⟨fun _ => h, ?_⟩
  intro hpc
  rw [hpc] at hgo
  cases hgo

variable (h : Inv s)
include h

theorem conserved (hgo : s.pc.isPanicked = false) : s.Conserved := by
  intro i hi
  rw [(h.slots hgo).marks i hi, State.held, List.mem_append, Option.mem_toList, or_comm]

theorem getBuffer (hs : step s .getBuffer = some s') : Inv s' := by
  unfold step at hs
  cases hpc : s.pc with
  | recv va => simp only [hpc, reduceCtorEq] at hs
  | timer va => simp only [hpc, reduceCtorEq] at hs
  | panicked msg => simp only [hpc, reduceCtorEq] at hs
  | top =>
    have hslots := h.slots (by rw [hpc]; rfl)
    have hheld : s.held = s.inService := by
      rw [State.held, hpc]
      rfl
    rw [hheld] at hslots
    simp only [hpc] at hs
    cases hget : Ns.getBuffer s.buse with
    | none =>
      simp only [hget] at hs
      cases hs
      exact ⟨(fun hgo => by cases hgo), fun _ => hslots.full (getBuffer_eq_none hget)⟩
    | some r =>
      rcases r with ⟨va, buse⟩
      simp only [hget, Option.some.injEq] at hs
      rcases getBuffer_eq_some hget with ⟨i, hi, hfree, rfl, rfl⟩
      rw [← hs]
      exact of_slots rfl (hslots.take hi hfree)

/-- A message for which nothing is left marked. -/
theorem message (hpc : s.pc = .recv va) {perm : BitVec 32}
    (hc : Carried (.message reqno whom perm mem)) : Inv (received s va reqno whom perm mem) := by
  have hslots := h.slots (by rw [hpc]; rfl)
  have hheld : s.held = va :: s.inService := by
    rw [State.held, hpc]
    rfl
  rw [hheld] at hslots
  unfold received
  by_cases htimer : reqno = nsreqTimer
  · rw [if_pos htimer]
    by_cases hwhom : whom = s.timerEnvid
    · rw [if_pos hwhom]
      exact of_slots rfl hslots
    · rw [if_neg hwhom]
      exact of_slots rfl hslots.put
  · rcases hc.resolve_left htimer with ⟨hperm, hmem⟩
    rw [if_neg htimer, if_neg hperm]
    cases mem with
    | noThread => exact absurd rfl hmem
    | noArgs =>
      refine ⟨(fun hgo => by cases hgo), fun hmsg => ?_⟩
      change Pc.panicked "could not allocate thread args structure" = _ at hmsg
      exact absurd hmsg (by decide)
    | ok =>
      -- the page goes from `serve` to the thread
      refine of_slots rfl (hslots.perm ?_)
      change (va :: s.inService).Perm (List.map StArgs.req (s.threads ++ [⟨reqno, whom, va⟩]))
      rw [List.map_append]
      exact (List.perm_append_singleton va s.inService).symm

/-- A thread gives its page back; what `serve` holds is not concerned. -/
theorem complete {a : StArgs} (ha : s.threads[i]? = some a) (hgo : s.pc.isPanicked = false) :
    Inv { s with buse := putBuffer s.buse a.req, threads := s.threads.eraseIdx i } := by
  rcases List.getElem?_eq_some_iff.1 ha with ⟨hi, hget⟩
  have hperm : s.inService.Perm (a.req :: (s.threads.eraseIdx i).map StArgs.req) := by
    have hthreads := (List.getElem_cons_eraseIdx_perm hi).symm.map StArgs.req
    rwa [hget] at hthreads
  refine of_slots hgo ?_
  have hheld : s.held.Perm
      (a.req :: (s.pc.reserved.toList ++ (s.threads.eraseIdx i).map StArgs.req)) :=
    (hperm.append_left _).trans List.perm_middle
  exact ((h.slots hgo).perm hheld).put

theorem step {ev : Event} (hc : Carried ev) (hs : Ns.step s ev = some s') : Inv s' := by
  cases ev with
  | getBuffer => exact h.getBuffer hs
  | message reqno whom perm mem =>
    rcases step_message hs with ⟨va, hpc, rfl⟩
    exact h.message hpc hc
  | timerDone =>
    rw [Ns.step] at hs
    split at hs
    · next va hpc =>
      -- the buffer that the timer had is free again
      have hslots := h.slots (by rw [hpc]; rfl)
      rw [State.held, hpc] at hslots
      rw [← Option.some.inj hs]
      exact of_slots rfl hslots.put
    · cases hs
  | complete i =>
    unfold Ns.step at hs
    dsimp only at hs
    cases ha : s.threads[i]? with
    | none => cases hpc : s.pc <;> simp only [hpc, ha, reduceCtorEq] at hs
    | some a =>
      cases hpc : s.pc with
      | recv va => simp only [hpc, ha, reduceCtorEq] at hs
      | panicked msg => simp only [hpc, ha, reduceCtorEq] at hs
      | top =>
        simp only [hpc, ha] at hs
        cases hs
        have hinv := h.complete ha (by rw [hpc]; rfl)
        rwa [hpc] at hinv
      | timer va =>
        simp only [hpc, ha] at hs
        cases hs
        have hinv := h.complete ha (by rw [hpc]; rfl)
        rwa [hpc] at hinv

end Inv

theorem inv_start (timerEnvid : BitVec 32) : Inv (start timerEnvid) := by
  refine Inv.of_slots rfl ⟨fun va hva => absurd hva List.not_mem_nil, List.nodup_nil, ?_⟩
  intro i _
  exact iff_of_false Bool.false_ne_true List.not_mem_nil

/-- A message that is not carried leaves its slot marked. -/
theorem not_conserved {s : State} (h : Inv s) (hpc : s.pc = .recv va) {perm : BitVec 32}
    (hnot : ¬Carried (.message reqno whom perm mem)) :
    ¬(received s va reqno whom perm mem).Conserved := by
  have hslots := h.slots (by rw [hpc]; rfl)
  rw [State.held, hpc] at hslots
  rcases hslots.valid va List.mem_cons_self with ⟨i, hi, rfl⟩
  rcases not_or.1 hnot with ⟨htimer, hrest⟩
  have hdropped : received s (slotVa i) reqno whom perm mem = { s with pc := .top } := by
    unfold received
    rw [if_neg htimer]
    by_cases hperm : perm &&& 1 = 0
    · rw [if_pos hperm]
    · rw [if_neg hperm]
      cases mem with
      | noThread => rfl
      | noArgs => exact absurd ⟨hperm, by decide⟩ hrest
      | ok => exact absurd ⟨hperm, by decide⟩ hrest
  rw [hdropped]
  intro hcons
  -- the mark is still there, and the page is nobody's
  have hmark : s.buse i = true := (hslots.marks i hi).2 List.mem_cons_self
  rcases (hcons i hi).1 hmark with hin | hres
  · exact (List.nodup_cons.1 hslots.nodup).1 hin
  · cases hres

/-- If every message comes from the timer or has a page and gets its thread, a slot is
    marked exactly while its page is in service or reserved, and `get_buffer` panics only with
    `QUEUE_SIZE` requests in service. In every state so reached, it is this condition
    that decides whether the marks are right after one message more. -/
theorem buffers_conserved (timerEnvid : BitVec 32) (s : State)
    (hrun : Lib.Run step (fun _ ev => Carried ev) (start timerEnvid) s) :
    (s.pc.isPanicked = false → s.Conserved) ∧
    (s.pc = .panicked "NS: buffer overflow" → s.threads.length = queueSize) ∧
    ∀ reqno whom perm mem s', step s (.message reqno whom perm mem) = some s' →
      s'.pc.isPanicked = false → (s'.Conserved ↔ Carried (.message reqno whom perm mem)) := by
  have hinv : Inv s := by
    refine Lib.Run.invariant Inv ?_ hrun (inv_start timerEnvid)
    intro t ev t' ht hc hstep
    exact ht.step hc hstep
  refine ⟨hinv.conserved, ?_, ?_⟩
  · intro hpc
    rw [← hinv.overflow hpc, State.inService, List.length_map]
  · intro reqno whom perm mem s' hs hgo
    constructor
    · intro hcons
      by_contra hnot
      rcases step_message hs with ⟨va, hpc, rfl⟩
      exact not_conserved hinv hpc hnot hcons
    · intro hc
      exact (hinv.step hc hs).conserved hgo

/-- One request with a page. -/
theorem buffers_conserved_one : ∃ s, Lib.Run step (fun _ ev => Carried ev) (start 7) s ∧
    s.threads.length = 1 ∧ s.pc.isPanicked = false ∧ s.Conserved := by
  have heval : ((Lib.runEvents step (start 7) [.getBuffer, .message 8 1 7 .ok]).map fun s =>
      (s.threads.length, s.pc.isPanicked)) = some (1, false) := by decide
  rcases Option.map_eq_some_iff.1 heval with ⟨s, hs, hfacts⟩
  rw [Prod.mk.injEq] at hfacts
  have hrun : Lib.Run step (fun _ ev => Carried ev) (start 7) s := by
    refine Lib.Run.of_forall _ _ ?_ hs
    intro ev hev _
    rcases List.mem_pair.1 hev with rfl | rfl
    · trivial
    · exact .inr ⟨by decide, by decide⟩
  exact ⟨s, hrun, hfacts.1, hfacts.2, (buffers_conserved 7 s hrun).1 hfacts.2⟩

/-- Twenty messages without a page, and `get_buffer` panics with no request in
    service. -/
theorem buffers_leak : ∃ s, Lib.Run step (fun _ _ => True) (start 7) s ∧
    s.pc = .panicked "NS: buffer overflow" ∧ s.threads.length = 0 := by
  have heval : ((Lib.runEvents step (start 7)
      ((List.replicate 20 [.getBuffer, .message 8 1 0 .ok]).flatten ++ [.getBuffer])).map fun s =>
      (s.pc, s.threads.length)) = some (.panicked "NS: buffer overflow", 0) := by decide
  rcases Option.map_eq_some_iff.1 heval with ⟨s, hs, hfacts⟩
  rw [Prod.mk.injEq] at hfacts
  exact ⟨s, Lib.Run.of_runEvents _ _ hs, hfacts.1, hfacts.2⟩

end Jos.Ns
