import Jos.Theory.Pointers
import Jos.Theory.Upcall

/-!
# Faults in the Page-Fault Handler

A handler that faults gets another frame pushed below its stack pointer, and so on. The
kernel knows that a fault is nested by its stack pointer, which is on the exception
stack then. A handler whose stack pointer has left the page of the exception stack is
not recognised: its frame is pushed at the top, over that of the first fault.

A run is the frames of the faults whose handlers have not returned, the newest first. At
each fault the kernel may be in any state in which the environment runs and its stack
pointer is at the newest frame or below it.

## Main definitions

* `Nesting.step`: A fault, or the return of the newest handler.
* `Nesting.Apart`: Each frame is below the older ones, its scratch word included.
* `Nesting.OnStack`: A nested fault has its stack pointer on the exception stack.

## Theorems

* `Kernel.envQuit_frees`: What is left of an environment that quits.
* `Nesting.pageFaultHandler_outcome`: A frame is pushed, or the environment destroyed.
* `Nesting.nested_frames`: Runs on the exception stack, and what one fault more does.
* `Nesting.nested_overwrites`: A fault below the exception stack.
-/

namespace Jos

variable {cur c : Nat}

namespace Kernel

/-- An environment that quits is gone, whoever runs next. -/
theorem envQuit_frees (s : Kernel) (c cur : Nat) (R : Unit → Kernel → Prop) :
    (s.envQuit c cur).Sat R (fun s' => (s'.envs cur).envStatus = .free) (fun _ => True) := by
  refine Lib.Flow.Sat.bind (envFree_cases s c cur trivial) ?_
  intro _ s' hs'
  -- the scheduler runs somebody else, since this environment is not runnable
  have hother : ∀ j, (((s'.setCpuEnv c none).envs j).envStatus = .runnable ∨
      ((s'.setCpuEnv c none).envs j).envStatus = .running) →
      ((((s'.setCpuEnv c none).envRun c j)).envs cur).envStatus = .free := by
    intro j hj
    have hne : cur ≠ j := by
      intro he
      rw [← he] at hj
      change (s'.envs cur).envStatus = .runnable ∨ (s'.envs cur).envStatus = .running at hj
      rw [hs'.status] at hj
      exact absurd hj (by decide)
    rw [envRun_envs]
    dsimp only
    rw [if_neg hne, if_neg]
    · exact hs'.status
    · intro hc
      exact absurd (hs'.status.symm.trans hc.2) (by decide)
  exact schedYield_rule _ (fun j hj _ _ => hother j (.inl hj))
    (fun e _ he => hother e (.inr he)) (fun hc => hother c hc) trivial

end Kernel

namespace Nesting

open Upcall (utf utf_cases utf_bounds utf_toNat)

/-- The environment has a frame and runs its upcall, or it is gone. -/
def Outcome (s : Kernel) (cur : Nat) (s' : Kernel) : Prop :=
  (s'.envs cur).envStatus = .free ∨
  ((s'.envs cur).envStatus = .running ∧
    (s'.envs cur).envTf.rsp.toNat = utf (s.envs cur).envTf.rsp.toNat)

variable {s : Kernel} {frames' : List Nat}

theorem pageFaultHandler_outcome (cr2 : BitVec 64) (hon : s.cpuEnv c = some cur) :
    (s.pageFaultHandler c cur cr2).Sat (fun _ _ => False) (Outcome s cur) (fun _ => True) := by
  refine Kernel.pageFaultHandler_rule cr2 hon trivial ?_ ?_
  · exact fun _ R => (s.envQuit_frees c cur R).mono (fun _ _ hr => hr) (fun _ hs => .inl hs)
      (fun _ ht => ht)
  · intro _ m _
    refine .inr ?_
    rw [Kernel.envRun_envs]
    dsimp only
    rw [if_pos rfl, Kernel.setEnv_envs, Function.update_self]
    exact ⟨rfl, utf_toNat _⟩

/-- A fault of the environment, with the kernel in a state and on a CPU, or the return of
    the newest handler. -/
inductive Event
  | fault (s : Kernel) (c : Nat) (cr2 : BitVec 64)
  | finish

/-- The stack pointer at a fault. -/
def rspOf (s : Kernel) (cur : Nat) : Nat := (s.envs cur).envTf.rsp.toNat

/-- The frames of the unfinished faults of `cur`. A run ends with the environment. -/
def step (cur : Nat) (frames : List Nat) : Event → Option (List Nat)
  | .fault s c cr2 =>
    if s.cpuEnv c = some cur ∧ ∀ v ∈ frames, rspOf s cur ≤ v then
      match s.pageFaultHandler c cur cr2 with
      | .user s' =>
        if (s'.envs cur).envStatus = .running then some (rspOf s' cur :: frames) else none
      | _ => none
    else none
  | .finish =>
    match frames with
    | [] => none
    | _ :: frames => some frames

/-- Each frame, with the scratch word above it, is below all older ones. -/
def Apart (frames : List Nat) : Prop := frames.Pairwise fun newer older => newer + 168 ≤ older

/-- The stack pointer of a nested fault is on the exception stack. -/
def OnStack (cur : Nat) (frames : List Nat) : Event → Prop
  | .fault s _ _ => frames ≠ [] → uxstacktop - pgSize ≤ rspOf s cur
  | .finish => True

/-- The frames are apart, and on the exception stack. -/
structure Inv (frames : List Nat) : Prop where
  apart : Apart frames
  below : ∀ v ∈ frames, v + 160 ≤ uxstacktop

/-- What a fault pushes. -/
theorem step_fault {frames : List Nat} {cr2 : BitVec 64}
    (hs : step cur frames (.fault s c cr2) = some frames') :
    (∀ v ∈ frames, rspOf s cur ≤ v) ∧ frames' = utf (rspOf s cur) :: frames := by
  simp only [step] at hs
  rcases Option.ite_none_right_eq_some.1 hs with ⟨hpre, hs⟩
  have hout := pageFaultHandler_outcome cr2 hpre.1
  refine ⟨hpre.2, ?_⟩
  cases hrun : s.pageFaultHandler c cur cr2 with
  | ret a s' =>
    simp only [hrun, reduceCtorEq] at hs
  | halt s' =>
    simp only [hrun, reduceCtorEq] at hs
  | user s' =>
    rw [hrun] at hout
    simp only [hrun] at hs
    by_cases hst : (s'.envs cur).envStatus = .running
    · rw [if_pos hst, Option.some.injEq] at hs
      rcases hout with hfree | hpushed
      · exact absurd (hfree.symm.trans hst) (by decide)
      · rw [← hs, rspOf, hpushed.2]
        rfl
    · rw [if_neg hst] at hs
      cases hs

namespace Inv

variable {frames : List Nat}

/-- On the exception stack the frame goes below the stack pointer. -/
theorem push (h : Inv frames) {rsp : Nat} (hrsp : ∀ v ∈ frames, rsp ≤ v)
    (hon : frames ≠ [] → uxstacktop - pgSize ≤ rsp) : Inv (utf rsp :: frames) := by
  refine ⟨List.pairwise_cons.2 ⟨?_, h.apart⟩, ?_⟩
  · intro v hv
    have hlow := hon (List.ne_nil_of_mem hv)
    have hle := hrsp v hv
    have htop := h.below v hv
    have hcases := utf_cases rsp
    omega
  · intro v hv
    rcases List.mem_cons.1 hv with hnew | hold
    · rw [hnew]
      exact (utf_bounds rsp).2
    · exact h.below v hold

theorem step (h : Inv frames) {ev : Event} (hon : OnStack cur frames ev)
    (hs : Nesting.step cur frames ev = some frames') : Inv frames' := by
  cases ev with
  | fault s c cr2 =>
    rcases step_fault hs with ⟨hrsp, rfl⟩
    exact h.push hrsp hon
  | finish =>
    cases frames with
    | nil => cases hs
    | cons u rest =>
      rw [← Option.some.inj hs]
      refine ⟨(List.pairwise_cons.1 h.apart).2, ?_⟩
      intro v hv
      exact h.below v (List.mem_cons_of_mem u hv)

end Inv

/-- As long as every nested fault has its stack pointer on the exception stack, each
    frame with its scratch word is below the frames of all unfinished faults. In every
    state so reached this holds for one fault more, unless it destroys the environment,
    and where a frame is pushed it is this condition that decides. -/
theorem nested_frames (cur : Nat) (frames : List Nat)
    (hrun : Lib.Run (step cur) (OnStack cur) [] frames) :
    Apart frames ∧
    ∀ s c cr2, s.cpuEnv c = some cur → (∀ v ∈ frames, rspOf s cur ≤ v) →
      (OnStack cur frames (.fault s c cr2) →
        (s.pageFaultHandler c cur cr2).Sat (fun _ _ => False)
          (fun s' => (s'.envs cur).envStatus = .free ∨ ∀ v ∈ frames, rspOf s' cur + 168 ≤ v)
          (fun _ => True)) ∧
      ∀ frames', step cur frames (.fault s c cr2) = some frames' →
        (Apart frames' ↔ OnStack cur frames (.fault s c cr2)) := by
  have hinv : Inv frames := by
    refine Lib.Run.invariant Inv ?_ hrun ⟨List.Pairwise.nil, fun _ hv => absurd hv List.not_mem_nil⟩
    intro t ev t' ht hon hstep
    exact ht.step hon hstep
  refine ⟨hinv.apart, ?_⟩
  intro s c cr2 hcur hrsp
  refine ⟨?_, ?_⟩
  · intro hon
    refine (pageFaultHandler_outcome cr2 hcur).mono (fun _ _ hf => hf) ?_ (fun _ ht => ht)
    rintro s' (hfree | ⟨_, hpushed⟩)
    · exact .inl hfree
    · refine .inr ?_
      rw [rspOf, hpushed]
      exact (List.pairwise_cons.1 (hinv.push hrsp hon).apart).1
  · intro frames' hs
    rcases step_fault hs with ⟨_, rfl⟩
    constructor
    · intro hapart hne
      by_contra hoff
      -- the frame is at the top, and none of the others is above it
      rcases List.exists_mem_of_ne_nil frames hne with ⟨v, hv⟩
      have hle := (List.pairwise_cons.1 hapart).1 v hv
      have htop := hinv.below v hv
      have hcases := utf_cases (rspOf s cur)
      omega
    · intro hon
      exact (hinv.push hrsp hon).apart

/-- A kernel in which `set_pgfault_handler` has mapped the two pages below `UXSTACKTOP`, and
    the environment runs with the given stack pointer. -/
def nesting (rsp : BitVec 64) : Kernel :=
  let s := Upcall.faulting rsp
  let m := s.vm.setEntry 4 (ptx (uxstacktop - pgSize - 1)) (page2pa 6 ||| 7)
  { s with vm := m }.setCpuEnv 0 (some 0)

/-- A fault on the user stack. -/
theorem step_user :
    step 0 [] (.fault (nesting 0xef7fdf00) 0 0x1000) = some [uxstacktop - 160] := by
  decide +kernel

/-- Then one in its handler. -/
theorem run_two : Lib.Run (step 0) (OnStack 0) [] [uxstacktop - 336, uxstacktop - 160] := by
  refine Relation.ReflTransGen.tail (Relation.ReflTransGen.single
    ⟨.fault (nesting 0xef7fdf00) 0 0x1000, fun hne => absurd rfl hne, step_user⟩)
    ⟨.fault (nesting 0xef7fff58) 0 0x1000, fun _ => by decide, ?_⟩
  decide +kernel

theorem nested_frames_two :
    Lib.Run (step 0) (OnStack 0) [] [uxstacktop - 336, uxstacktop - 160] ∧
    Apart [uxstacktop - 336, uxstacktop - 160] :=
  ⟨run_two, (nested_frames 0 _ run_two).1⟩

/-- The handler of the first fault has a stack of more than a page and faults: the second
    frame is where the first is. -/
theorem nested_overwrites :
    ∃ frames, Lib.Run (step 0) (fun _ _ => True) [] frames ∧ ¬Apart frames := by
  refine ⟨[uxstacktop - 160, uxstacktop - 160], ?_, by unfold Apart; decide⟩
  refine Relation.ReflTransGen.tail (Relation.ReflTransGen.single
    ⟨.fault (nesting 0xef7fdf00) 0 0x1000, trivial, step_user⟩)
    ⟨.fault (nesting 0xef7fef00) 0 0x1000, trivial, ?_⟩
  decide +kernel

end Nesting

end Jos
