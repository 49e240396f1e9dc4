import Jos.Core.Printfmt
import Jos.Core.Syscall

/-!
# Strings with a Precision

`sys_cputs` prints with the conversion `%.*s`: the `.` makes the width 0, so that
the `*` is the precision. The loop that prints the string loads a character
first and looks at the precision only afterwards.

The loop is followed for any pointer. `upto` is what it puts out and `touched`
what it loads; the latter has one byte more than the former, unless a NUL comes
first.

## Main definitions

* `Steps`: Finite runs with their events.
* `upto`, `touched`: What the loop for a string puts out and loads.
* `Bounded`: The output and the reads that the comment of `sys_cputs` asks for.
* `Terminated`: The arguments for which a call is bounded.

## Theorems

* `run_of_steps`, `run_unique`: Runs and their fuel.
* `string_steps`: The loop that prints a string.
* `printBounded_iff`: When a call is bounded.
-/

namespace Jos
namespace Printfmt

variable {events : List Event} {n : Nat}

section Runs

variable (mem : BitVec 64 → BitVec 8) (fmt : Int → BitVec 8) (args : Nat → BitVec 64) {c : Config}

/-- Some steps, with all their events. -/
inductive Steps : Config → List Event → Config → Prop
  | refl (c : Config) : Steps c [] c
  | head (c c1 c' : Config) (out events : List Event)
      (hstep : step mem fmt args c = some (c1, out)) (hrest : Steps c1 events c') :
      Steps c (out ++ events) c'

variable {mem fmt args}

theorem Steps.trans {c1 c2 : Config} {e1 e2 : List Event} (h1 : Steps mem fmt args c e1 c1)
    (h2 : Steps mem fmt args c1 e2 c2) : Steps mem fmt args c (e1 ++ e2) c2 := by
  induction h1 with
  | refl c => exact h2
  | head c c1 c' out events hstep _ ih =>
    rw [List.append_assoc]
    exact Steps.head c c1 _ out _ hstep (ih h2)

/-- Steps to the end are a call that returns. -/
theorem run_of_steps {c' : Config} (h : Steps mem fmt args c events c') (hdone : c'.mode = .done) :
    ∃ fuel, run mem fmt args fuel c = some events := by
  induction h with
  | refl c => exact ⟨0, by rw [run, if_pos hdone]⟩
  | head c c1 c' out events hstep _ ih =>
    rcases ih hdone with ⟨fuel, hfuel⟩
    have hmode : c.mode ≠ .done := by
      intro hm
      rw [step, hm] at hstep
      cases hstep
    refine ⟨fuel + 1, ?_⟩
    rw [run, if_neg hmode, hstep, Option.bind_some, hfuel, Option.map_some]

/-- More fuel does not change what a call does. -/
theorem run_add {fuel : Nat} (k : Nat) : ∀ (c : Config) (events : List Event),
    run mem fmt args fuel c = some events → run mem fmt args (fuel + k) c = some events := by
  induction fuel with
  | zero =>
    intro c events h
    rw [run] at h
    rcases Option.ite_none_right_eq_some.1 h with ⟨hm, h⟩
    cases k with
    | zero => rw [run, if_pos hm, h]
    | succ k => rw [Nat.zero_add, run, if_pos hm, h]
  | succ fuel ih =>
    intro c events h
    rw [run] at h
    rw [Nat.add_right_comm, run]
    by_cases hm : c.mode = .done
    · rwa [if_pos hm] at h ⊢
    · rw [if_neg hm] at h ⊢
      rcases Option.bind_eq_some_iff.1 h with ⟨r, hr, hrest⟩
      rcases Option.map_eq_some_iff.1 hrest with ⟨rest, hrun, hevents⟩
      rw [hr, Option.bind_some, ih r.1 rest hrun, Option.map_some, hevents]

theorem run_unique {n' : Nat} {events' : List Event} (h : run mem fmt args n c = some events)
    (h' : run mem fmt args n' c = some events') : events = events' := by
  have hn := run_add n' c events h
  have hn' := run_add n c events' h'
  rwa [Nat.add_comm n' n, hn, Option.some.injEq] at hn'

end Runs

/-! ## The loop that prints a string -/

section Strings

variable (mem : BitVec 64 → BitVec 8) {len : BitVec 64}

/-- The characters at a pointer up to the first NUL, at most `n` of them. -/
def upto : Nat → Ptr → List (BitVec 8)
  | 0, _ => []
  | n + 1, p => if p.load mem = 0 then [] else p.load mem :: upto n p.next

/-- The loads of the loop with the precision `n`. -/
def touched : Nat → Ptr → List Event
  | 0, p => p.reads
  | n + 1, p => p.reads ++ if p.load mem = 0 then [] else touched n p.next

/-- The characters that are put out, as bytes. -/
def output (events : List Event) : List (BitVec 8) :=
  events.filterMap fun e =>
    match e with
    | .put ch => some (ch.setWidth 8)
    | _ => none

/-- The reads through an argument. -/
def argReads (events : List Event) : List (BitVec 64) :=
  events.filterMap fun e =>
    match e with
    | .read a => some a
    | _ => none

theorem output_append (e1 e2 : List Event) : output (e1 ++ e2) = output e1 ++ output e2 :=
  List.filterMap_append

theorem argReads_append (e1 e2 : List Event) :
    argReads (e1 ++ e2) = argReads e1 ++ argReads e2 :=
  List.filterMap_append

theorem output_reads (p : Ptr) : output p.reads = [] := by
  cases p <;> rfl

theorem output_putChar (c : BitVec 8) : output [putChar c] = [c] := by
  have hc : (c.signExtend 32).setWidth 8 = c := by
    apply BitVec.eq_of_getLsbD_eq
    intro i hi
    rw [BitVec.getLsbD_setWidth, BitVec.getLsbD_signExtend]
    simp [hi, show i < 32 by omega]
  simp [output, putChar, hc]

theorem argReads_putChar (c : BitVec 8) : argReads [putChar c] = [] := rfl

/-- The last round of the loop: there is a NUL, or the precision is used up. -/
theorem string_stop (fmt : Int → BitVec 8) (args : Nat → BitVec 64) (pos : Int) (arg : Nat)
    {p : Ptr} {s : Spec} (hwidth : s.width.toInt ≤ 0)
    (hstop : ¬ (p.load mem ≠ 0 ∧ (s.precision.toInt < 0 ∨ 0 ≤ (s.precision - 1).toInt))) :
    Steps mem fmt args ⟨.string p s, pos, arg⟩ (p.reads ++ []) ⟨.text, pos, arg⟩ := by
  have hpad : pad (chr ' ') s.width.toInt = [] := by
    rw [pad, Int.toNat_of_nonpos hwidth, List.replicate_zero]
  refine Steps.head _ _ _ _ _ ?_ (Steps.refl _)
  rw [step]
  dsimp only
  rw [stringRound, if_neg hstop, hpad, List.append_nil]

/-- The loop that prints a string without `#`, for a precision of `n`. The width
    is not positive, so that there is no padding; it does not get below
    `INT_MIN` either. -/
theorem string_steps (fmt : Int → BitVec 8) (args : Nat → BitVec 64) (pos : Int) (arg : Nat)
    {n : Nat} : ∀ (p : Ptr) (s : Spec), s.altflag = false → s.precision.toInt = n →
      s.width.toInt ≤ 0 → -2 ^ 31 ≤ s.width.toInt - n →
      ∃ events, Steps mem fmt args ⟨.string p s, pos, arg⟩ events ⟨.text, pos, arg⟩ ∧
        output events = upto mem n p ∧ argReads events = argReads (touched mem n p) := by
  induction n with
  | zero =>
    intro p s _ hprec hwidth _
    -- The precision becomes -1 after the load.
    have hstop : ¬ (p.load mem ≠ 0 ∧
        (s.precision.toInt < 0 ∨ 0 ≤ (s.precision - 1).toInt)) := by
      rintro ⟨-, h | h⟩
      · omega
      · have h0 : s.precision = 0 := BitVec.eq_of_toInt_eq (by rw [hprec]; rfl)
        rw [h0] at h
        cases h
    refine ⟨_, string_stop mem fmt args pos arg hwidth hstop, ?_, ?_⟩
    · rw [List.append_nil, output_reads, upto]
    · rw [List.append_nil, touched]
  | succ n ih =>
    intro p s halt hprec hwidth hlow
    by_cases hz : p.load mem = 0
    · have hstop : ¬ (p.load mem ≠ 0 ∧
          (s.precision.toInt < 0 ∨ 0 ≤ (s.precision - 1).toInt)) := fun h => h.1 hz
      refine ⟨_, string_stop mem fmt args pos arg hwidth hstop, ?_, ?_⟩
      · rw [List.append_nil, output_reads, upto, if_pos hz]
      · rw [touched, if_pos hz]
    · have hnext : (s.precision - 1).toInt = n := by
        rw [BitVec.toInt_sub, hprec]
        have h1 : (1 : BitVec 32).toInt = 1 := by decide
        have hlt := s.precision.toInt_lt
        rw [h1, Int.bmod_def]
        rw [hprec] at hlt
        omega
      have hw : (s.width - 1).toInt = s.width.toInt - 1 := by
        rw [BitVec.toInt_sub]
        have h1 : (1 : BitVec 32).toInt = 1 := by decide
        rw [h1, Int.bmod_def]
        omega
      have hgo : p.load mem ≠ 0 ∧ (s.precision.toInt < 0 ∨ 0 ≤ (s.precision - 1).toInt) :=
        ⟨hz, .inr (by omega)⟩
      rcases ih p.next { s with width := s.width - 1, precision := s.precision - 1 } halt hnext
        (by rw [hw]; omega) (by rw [hw]; omega) with ⟨events, hsteps, hout, hreads⟩
      refine ⟨(p.reads ++ [putChar (p.load mem)]) ++ events, Steps.head _ _ _ _ _ ?_ hsteps,
        ?_, ?_⟩
      · rw [step]
        dsimp only
        rw [stringRound, if_pos hgo]
        dsimp only
        rw [if_neg (by omega : ¬ s.precision.toInt < 0), halt,
          if_neg (by simp : ¬ (false = true ∧ _))]
      · rw [output_append, output_append, output_reads, output_putChar, hout, upto, if_neg hz]
        rfl
      · rw [argReads_append, argReads_append, argReads_putChar, hreads, touched, if_neg hz,
          argReads_append, List.append_nil]

/-! ## Loads through an argument -/

theorem succ_add_ofNat (s : BitVec 64) (j : Nat) :
    s + 1 + BitVec.ofNat 64 j = s + BitVec.ofNat 64 (j + 1) := by
  rw [BitVec.add_assoc, BitVec.add_comm 1]
  congr 1
  exact (BitVec.ofNat_add j 1).symm

/-- The loads end with the first NUL. -/
theorem touched_arg_of_nul {k : Nat} : ∀ (n : Nat) (s : BitVec 64), k < n →
    mem (s + BitVec.ofNat 64 k) = 0 →
    ∀ a ∈ argReads (touched mem n (.arg s)), ∃ j ≤ k, a = s + BitVec.ofNat 64 j := by
  induction k with
  | zero =>
    intro n s hk hz a ha
    cases n with
    | zero => omega
    | succ n =>
      have hz' : (Ptr.arg s).load mem = 0 := by simpa [Ptr.load] using hz
      rw [touched, if_pos hz', List.append_nil] at ha
      have ha' : a = s := by simpa [argReads, Ptr.reads] using ha
      exact ⟨0, le_rfl, by simp [ha']⟩
  | succ k ih =>
    intro n s hk hz a ha
    cases n with
    | zero => omega
    | succ n =>
      rw [touched, argReads_append, List.mem_append] at ha
      rcases ha with ha | ha
      · have ha' : a = s := by simpa [argReads, Ptr.reads] using ha
        exact ⟨0, Nat.zero_le _, by simp [ha']⟩
      · by_cases hz' : (Ptr.arg s).load mem = 0
        · rw [if_pos hz'] at ha
          exact absurd ha (by simp [argReads])
        · rw [if_neg hz'] at ha
          rcases ih n (s + 1) (by omega) (by rwa [succ_add_ofNat]) a ha
            with ⟨j, hj, rfl⟩
          exact ⟨j + 1, by omega, succ_add_ofNat s j⟩

/-- Without a NUL the byte behind the last one is loaded. -/
theorem touched_arg_of_no_nul : ∀ s : BitVec 64,
    (∀ k < n, mem (s + BitVec.ofNat 64 k) ≠ 0) →
    s + BitVec.ofNat 64 n ∈ argReads (touched mem n (.arg s)) := by
  induction n with
  | zero =>
    intro s _
    simp [touched, argReads, Ptr.reads]
  | succ n ih =>
    intro s hno
    have hz : ¬ (Ptr.arg s).load mem = 0 := by
      have h0 := hno 0 (Nat.succ_pos n)
      simpa [Ptr.load] using h0
    rw [touched, if_neg hz, argReads_append, List.mem_append]
    refine .inr ?_
    have hrest := ih (s + 1) fun k hk => by rw [succ_add_ofNat]; exact hno (k + 1) (by omega)
    rwa [succ_add_ofNat] at hrest

/-! ## The whole call -/

/-- The reads stay within `len` bytes, and what is put out are the bytes up to
    the first NUL, at most `len` of them. -/
structure Bounded (s len : BitVec 64) (events : List Event) : Prop where
  reads : ∀ a ∈ argReads events, ∃ k < len.toNat, a = s + BitVec.ofNat 64 k
  output : output events = upto mem len.toNat (.arg s)

/-- There is a NUL among the first `len` bytes. For the null pointer, which
    prints `(null)`, the bytes there are those of that text. -/
def Terminated (s len : BitVec 64) : Prop :=
  if s = 0 then upto mem len.toNat (.arg 0) = (text "(null)").take len.toNat
  else ∃ k < len.toNat, mem (s + BitVec.ofNat 64 k) = 0

/-- A string constant is printed up to the precision. -/
theorem upto_const (n : Nat) : ∀ t : List (BitVec 8), 0 ∉ t → upto mem n (.const t) = t.take n := by
  induction n with
  | zero => intro t _; rfl
  | succ n ih =>
    intro t ht
    cases t with
    | nil => rfl
    | cons b t =>
      rw [List.mem_cons, not_or] at ht
      rw [upto, if_neg (show ¬ (Ptr.const (b :: t)).load mem = 0 from fun h => ht.1 h.symm),
        List.take_succ_cons]
      exact congrArg (b :: ·) (ih t ht.2)

theorem touched_const (n : Nat) : ∀ t : List (BitVec 8), touched mem n (.const t) = [] := by
  induction n with
  | zero => intro t; rfl
  | succ n ih =>
    intro t
    rw [touched, show (Ptr.const t).next = .const t.tail from rfl, ih t.tail, ite_self]
    rfl

/-- A call returns, and what it puts out and reads is what the loop does with the
    pointer. -/
theorem printBounded_run (s : BitVec 64) (hlen : len.toNat < 2 ^ 31) :
    ∃ fuel events, printBounded mem s len fuel = some events ∧
      output events = upto mem len.toNat (if s = 0 then .const (text "(null)") else .arg s) ∧
      argReads events =
        argReads (touched mem len.toNat (if s = 0 then .const (text "(null)") else .arg s)) := by
  have hprec : (len.setWidth 32).toInt = len.toNat := by
    have hn : (len.setWidth 32).toNat = len.toNat := by
      rw [BitVec.toNat_setWidth]
      omega
    rw [BitVec.toInt_eq_toNat_of_lt (by omega), hn]
  have hzero : (0 : BitVec 32).toInt = 0 := by decide
  -- The format up to the `s`, and the NUL behind it.
  have hfront : Steps mem (formatOf "%.*s") (fun i => if i = 0 then len else s) ⟨.text, 0, 0⟩
      ([.format 0] ++ ([.format 1] ++ ([.format 2] ++ ([.format 3] ++ []))))
      ⟨.string (if s = 0 then .const (text "(null)") else .arg s)
        { width := 0, precision := len.setWidth 32 }, 4, 2⟩ :=
    .head _ ⟨.reswitch {}, 1, 0⟩ _ _ _ (by rfl)
      (.head _ ⟨.reswitch { width := 0 }, 2, 0⟩ _ _ _ (by rfl)
        (.head _ ⟨.reswitch { width := 0, precision := len.setWidth 32 }, 3, 1⟩ _ _ _ (by rfl)
          (.head _ _ _ _ _ (by rfl) (.refl _))))
  have hback : Steps mem (formatOf "%.*s") (fun i => if i = 0 then len else s) ⟨.text, 4, 2⟩
      ([.format 4] ++ []) ⟨.done, 5, 2⟩ := .head _ _ _ _ _ (by rfl) (.refl _)
  rcases string_steps mem (formatOf "%.*s") (fun i => if i = 0 then len else s) 4 2
    (if s = 0 then .const (text "(null)") else .arg s)
    { width := 0, precision := len.setWidth 32 } rfl hprec (le_of_eq hzero)
    (by dsimp only; omega) with ⟨events, hloop, hout, hreads⟩
  rcases run_of_steps (hfront.trans (hloop.trans hback)) rfl with ⟨fuel, hrun⟩
  refine ⟨fuel, _, hrun, ?_, ?_⟩
  · rw [output_append _ (events ++ _), output_append events, hout]
    exact List.append_nil _
  · rw [argReads_append _ (events ++ _), argReads_append events, hreads]
    exact List.append_nil _

/-- What is read and put out is bounded exactly for strings with a NUL. -/
theorem bounded_iff {s : BitVec 64} (hlen : len.toNat < 2 ^ 31) (hout : output events =
      upto mem len.toNat (if s = 0 then .const (text "(null)") else .arg s))
    (hreads : argReads events =
      argReads (touched mem len.toNat (if s = 0 then .const (text "(null)") else .arg s))) :
    Bounded mem s len events ↔ Terminated mem s len := by
  unfold Terminated
  by_cases hs : s = 0
  · rw [if_pos hs] at hout hreads
    rw [upto_const mem _ _ (by decide)] at hout
    rw [touched_const] at hreads
    rw [if_pos hs, hs]
    constructor
    · intro h
      rw [← h.output, hout]
    · intro h
      refine ⟨fun a ha => ?_, by rw [hout, h]⟩
      rw [hreads] at ha
      exact absurd ha (by simp [argReads])
  · rw [if_neg hs] at hout hreads ⊢
    constructor
    · intro h
      by_contra hno
      push Not at hno
      -- The byte at `len` is read, and it is none of the first `len`.
      have hmem := touched_arg_of_no_nul mem s hno
      rw [← hreads] at hmem
      rcases h.reads _ hmem with ⟨k, hk, heq⟩
      have hnat := congrArg BitVec.toNat ((BitVec.add_right_inj s).1 heq)
      rw [BitVec.toNat_ofNat, BitVec.toNat_ofNat, Nat.mod_eq_of_lt (by omega),
        Nat.mod_eq_of_lt (by omega)] at hnat
      omega
    · rintro ⟨k, hk, hz⟩
      refine ⟨fun a ha => ?_, hout⟩
      rw [hreads] at ha
      rcases touched_arg_of_nul mem len.toNat s hk hz a ha with ⟨j, hj, hja⟩
      exact ⟨j, by omega, hja⟩

end Strings

/-- Printing `len` bytes of a string returns with bounded reads and the right
    output exactly if the string ends within them. -/
theorem printBounded_iff (mem : BitVec 64 → BitVec 8) (s len : BitVec 64)
    (hlen : len.toNat < 2 ^ 31) :
    (∃ fuel events, printBounded mem s len fuel = some events ∧ Bounded mem s len events) ↔
      Terminated mem s len := by
  rcases printBounded_run mem s hlen with ⟨fuel, events, hrun, hout, hreads⟩
  rw [← bounded_iff mem hlen hout hreads]
  constructor
  · rintro ⟨fuel', events', hrun', hbounded⟩
    rwa [run_unique hrun hrun']
  · intro hbounded
    exact ⟨fuel, events, hrun, hbounded⟩

/-- One letter at the end of a page, with a NUL behind it. -/
theorem printBounded_two :
    ∃ fuel events,
      printBounded (fun a => if a = 0x800ffe then 65 else 0) 0x800ffe 2 fuel = some events ∧
        Bounded (fun a => if a = 0x800ffe then 65 else 0) 0x800ffe 2 events := by
  refine (printBounded_iff _ 0x800ffe 2 (by decide)).2 ?_
  rw [Terminated, if_neg (by decide)]
  exact ⟨1, by decide, by decide⟩

/-- One letter is to be printed from the end of a page: the first byte of the
    next page is read. -/
theorem printBounded_reads_behind :
    ¬ ∃ fuel events, printBounded (fun _ => 65) 0x800fff 1 fuel = some events ∧
      Bounded (fun _ => 65) 0x800fff 1 events := by
  rintro ⟨fuel, events, hrun, hbounded⟩
  have hten : printBounded (fun _ => 65) 0x800fff 1 10 = some
      [.format 0, .format 1, .format 2, .format 3, .read 0x800fff, .put 65, .read 0x801000,
        .format 4] := by decide
  rw [← run_unique hten hrun] at hbounded
  rcases hbounded.reads 0x801000 (by decide) with ⟨k, hk, heq⟩
  have hk0 : k = 0 := by
    have h1 : (1 : BitVec 64).toNat = 1 := by decide
    omega
  rw [hk0] at heq
  cases heq

end Printfmt
end Jos
