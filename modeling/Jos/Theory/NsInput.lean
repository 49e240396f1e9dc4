import Jos.Core.NsInput
import Jos.Lib.Flow
import Jos.Theory.NsRequests
import Mathlib.Data.List.GetD

/-!
# Packets on Their Way to the Network Server

A packet reaches the network server unchanged if the input environment leaves the page
alone until the server has read it. Nothing in `input` sees to that: it sleeps, and
then receives the next packet into the same page.

## Main definitions

* `Settled`: The driver is asked for a packet only when all messages are handled.
* `Shows`: The page has this packet.
* `State.Waiting`: The last packet is on its way.

## Theorems

* `lowLevelInput_bytes`: What the copies of `low_level_input` add up to.
* `Inv.input`, `Inv.serve`: One step.
* `packets_unchanged`: Runs in which the page is left alone.
* `packet_overwritten`: A second packet before the first is read.
-/

namespace Jos.NsInput

open Ns (copyLoop lowLevelInput)

/-- The driver is asked for a packet only when the server is done with the page. -/
def Settled (s : State) : Event → Prop
  | .input => s.input = .receive → s.wire ≠ [] → s.handled.length = s.messages
  | _ => True

/-- The bytes of several copies. -/
def bytesOf (data : Nat → BitVec 8) (chunks : List (Int × Int)) : List (BitVec 8) :=
  chunks.flatMap fun x => (List.range x.2.toNat).map fun j => data (x.1.toNat + j)

/-- The copies to a chain of buffers take the bytes of the packet one after the other. -/
theorem bytesOf_copyLoop (data : Nat → BitVec 8) (len : Int) (qs : List Nat) : ∀ copied : Nat,
    (qs.sum : Int) = len - copied →
    bytesOf data (copyLoop len copied qs) = (List.range qs.sum).map fun j => data (copied + j) := by
  induction qs with
  | nil =>
    intro copied _
    rfl
  | cons q qs ih =>
    intro copied hsum
    rw [Ns.copyLoop_cons hsum, bytesOf, List.flatMap_cons, ← bytesOf]
    rw [List.sum_cons, Nat.cast_add] at hsum
    have hrest := ih (copied + q) (by omega)
    rw [Nat.cast_add] at hrest
    rw [hrest, List.sum_cons, List.range_add, List.map_append, List.map_map]
    dsimp only
    rw [Int.toNat_natCast, Int.toNat_natCast]
    simp only [Function.comp_def, Nat.add_assoc]

/-- A page with this length and this data has this packet. -/
structure Shows (jpLen : BitVec 32) (jpData : Nat → BitVec 8) (pkt : List (BitVec 8)) : Prop where
  len : jpLen = BitVec.ofNat 32 pkt.length
  small : pkt.length ≤ 2048
  data : (List.range pkt.length).map jpData = pkt

variable {pool : Nat}

/-- `low_level_input` reads the packet that the page has. -/
theorem lowLevelInput_bytes {jpLen : BitVec 32} {jpData : Nat → BitVec 8} {pkt : List (BitVec 8)}
    (h : Shows jpLen jpData pkt) {chunks : List (Int × Int)}
    (hin : lowLevelInput pool jpLen = some chunks) :
    (∀ x ∈ chunks, 0 ≤ x.2) ∧ bytesOf jpData chunks = pkt := by
  have hsmall := h.small
  rcases Option.map_eq_some_iff.1 hin with ⟨qs, hqs, rfl⟩
  have hnat : (jpLen.truncate 16).toNat = pkt.length := by
    rw [h.len, BitVec.truncate_eq_setWidth, BitVec.toNat_setWidth, BitVec.toNat_ofNat]
    omega
  have hint : (jpLen.truncate 16).toInt = pkt.length := by
    rw [BitVec.toInt_eq_toNat_of_lt (by omega), hnat]
  have hsum := (Ns.sum_pbufAlloc hqs).2
  rw [hnat] at hsum
  rw [hint]
  refine ⟨fun x hx => (Ns.copyLoop_inside 0 (by omega) x hx).2.1, ?_⟩
  have hbytes := bytesOf_copyLoop jpData pkt.length qs 0 (by omega)
  rw [Nat.cast_zero, hsum] at hbytes
  rw [hbytes]
  simp only [Nat.zero_add]
  exact h.data

/-- The server has nothing to do. -/
def State.Quiet (s : State) : Prop := s.server = .idle ∧ s.handled.length = s.messages

/-- What the server has read and what it has still to read make the packet. -/
def State.Reading (s : State) (pkt : List (BitVec 8)) : Prop :=
  match s.server with
  | .idle => True
  | .copying chunks got => (∀ x ∈ chunks, 0 ≤ x.2) ∧ got ++ bytesOf s.jpData chunks = pkt

/-- The last packet has been sent, and the server has not finished with it. -/
def State.Waiting (s : State) : Prop :=
  ∃ old pkt, s.returned = old ++ [pkt] ∧ s.handled.length = old.length ∧
    Shows s.jpLen s.jpData pkt ∧ s.Reading pkt

/-- How far the last packet has come. -/
def State.Phase (s : State) : Prop :=
  match s.input with
  | .setLen n => s.Quiet ∧ ∃ old pkt, s.returned = old ++ [pkt] ∧ old.length = s.messages ∧
      n = pkt.length ∧ pkt.length ≤ 2048 ∧ (List.range pkt.length).map s.jpData = pkt
  | .send => s.Quiet ∧ ∃ old pkt, s.returned = old ++ [pkt] ∧ old.length = s.messages ∧
      Shows s.jpLen s.jpData pkt
  | .sleep => s.returned.length = s.messages ∧ (s.Quiet ∨ s.Waiting)
  | .receive => s.returned.length = s.messages ∧ (s.Quiet ∨ s.Waiting)

/-- The messages that were handled had the right bytes. -/
structure Inv (s : State) : Prop where
  small : ∀ pkt ∈ s.wire, pkt.length ≤ 2048
  right : ∀ (k : Nat) b, s.handled[k]? = some (some b) → s.returned[k]? = some b
  phase : s.Phase

namespace Inv

variable {s s' : State}

theorem input (h : Inv s) (hset : Settled s .input) : Inv s.inputStep := by
  have hphase := h.phase
  unfold State.Phase at hphase
  unfold State.inputStep
  cases hpc : s.input with
  | receive =>
    rw [hpc] at hphase
    cases hwire : s.wire with
    | nil => exact h
    | cons pkt rest =>
      have hall := hset hpc (hwire ▸ List.cons_ne_nil _ _)
      have hquiet : s.Quiet := by
        rcases hphase.2 with hq | ⟨old, last, hret, hlen, -⟩
        · exact hq
        · have hcount := hphase.1
          rw [hret, List.length_append, List.length_singleton] at hcount
          omega
      have hsmall := h.small
      rw [hwire, List.forall_mem_cons] at hsmall
      refine ⟨hsmall.2, ?_, hquiet, s.returned, pkt, rfl, hphase.1, rfl,
        hsmall.1, ?_⟩
      · intro k b hk
        have hold := h.right k b hk
        rwa [List.getElem?_append_left (List.getElem?_eq_some_iff.1 hold).1]
      · -- the packet lies at the beginning of the data
        refine List.ext_getElem ?_ fun j hj hj' => ?_
        · rw [List.length_map, List.length_range]
        · simp only [List.getElem_map, List.getElem_range,
            List.getD_eq_getElem _ _ hj']
  | setLen n =>
    rw [hpc] at hphase
    rcases hphase with ⟨hquiet, old, pkt, hret, hlen, rfl, hsmall, hdata⟩
    exact ⟨h.small, h.right, hquiet, old, pkt, hret, hlen, rfl, hsmall, hdata⟩
  | send =>
    rw [hpc] at hphase
    rcases hphase with ⟨hquiet, old, pkt, hret, hlen, hshows⟩
    refine ⟨h.small, h.right, ?_, .inr ⟨old, pkt, hret, ?_, ?_, ?_⟩⟩
    · dsimp only
      rw [hret, List.length_append, hlen, List.length_singleton]
    · exact hquiet.2.trans hlen.symm
    · exact hshows
    · unfold State.Reading
      dsimp only
      rw [hquiet.1]
      trivial
  | sleep =>
    rw [hpc] at hphase
    refine ⟨h.small, h.right, ?_⟩
    exact hphase

/-- The server has work only while `input` sleeps or is about to receive. -/
theorem waiting (h : Inv s) (hwork : ¬s.Quiet) :
    (s.input = .sleep ∨ s.input = .receive) ∧ s.returned.length = s.messages ∧ s.Waiting := by
  have hphase := h.phase
  unfold State.Phase at hphase
  cases hpc : s.input with
  | setLen n =>
    rw [hpc] at hphase
    exact absurd hphase.1 hwork
  | send =>
    rw [hpc] at hphase
    exact absurd hphase.1 hwork
  | sleep =>
    rw [hpc] at hphase
    exact ⟨.inl rfl, hphase.1, hphase.2.resolve_left hwork⟩
  | receive =>
    rw [hpc] at hphase
    exact ⟨.inr rfl, hphase.1, hphase.2.resolve_left hwork⟩

theorem phase_of_rest (hpc : s.input = .sleep ∨ s.input = .receive)
    (hlen : s.returned.length = s.messages) (h : s.Quiet ∨ s.Waiting) : s.Phase := by
  unfold State.Phase
  rcases hpc with hpc | hpc <;> rw [hpc] <;> exact ⟨hlen, h⟩

/-- A message is done with. -/
theorem done (h : Inv s) (hwork : ¬s.Quiet) {r : Option (List (BitVec 8))}
    (hr : ∀ b, r = some b → s.returned.getLast? = some b) :
    Inv { s with server := .idle, handled := s.handled ++ [r] } := by
  rcases h.waiting hwork with ⟨hpc, hcount, old, pkt, hret, hlen, -, -⟩
  refine ⟨h.small, ?_, phase_of_rest hpc hcount (.inl ⟨rfl, ?_⟩)⟩
  · intro k b hk
    by_cases hold : k < s.handled.length
    · rw [List.getElem?_append_left hold] at hk
      exact h.right k b hk
    · -- the last one
      rw [List.getElem?_append_right (by omega)] at hk
      have hk0 : k - s.handled.length = 0 := by
        have := (List.getElem?_eq_some_iff.1 hk).1
        rw [List.length_singleton] at this
        omega
      rw [hk0] at hk
      have hlast := hr b (Option.some.inj hk)
      have hkold : k = old.length := by omega
      rw [hret, List.getLast?_concat] at hlast
      rwa [hret, hkold, List.getElem?_concat_length]
  · dsimp only
    rw [List.length_append, List.length_singleton, ← hcount, hret, List.length_append, hlen]
    rfl

theorem serve (h : Inv s) (hs : s.serveStep pool = some s') : Inv s' := by
  unfold State.serveStep at hs
  cases hserver : s.server with
  | idle =>
    simp only [hserver] at hs
    by_cases hlt : s.handled.length < s.messages
    · have hwork : ¬s.Quiet := fun hq => absurd hq.2 (by omega)
      rw [if_pos hlt] at hs
      cases hin : lowLevelInput pool s.jpLen with
      | none =>
        simp only [hin] at hs
        cases hs
        exact h.done hwork (fun b hb => by cases hb)
      | some chunks =>
        simp only [hin, Option.some.injEq] at hs
        rcases h.waiting hwork with ⟨hpc, hcount, old, pkt, hret, hlen, hshows, -⟩
        rw [← hs]
        refine ⟨h.small, h.right, phase_of_rest hpc hcount (.inr ⟨old, pkt, hret, hlen, ?_, ?_⟩)⟩
        · exact hshows
        · exact lowLevelInput_bytes hshows hin
    · rw [if_neg hlt] at hs
      cases hs
  | copying chunks got =>
    -- the driver waits, so that the page still shows the packet
    have hwork : ¬s.Quiet := fun hq => by
      have hidle := hq.1
      rw [hserver] at hidle
      cases hidle
    rcases h.waiting hwork with ⟨hpc, hcount, old, pkt, hret, hlen, hshows, hreading⟩
    unfold State.Reading at hreading
    rw [hserver] at hreading
    cases chunks with
    | nil =>
      simp only [hserver] at hs
      cases hs
      refine h.done hwork fun b hb => ?_
      have hgot : got ++ [] = pkt := hreading.2
      rw [← Option.some.inj hb, hret, List.getLast?_concat, ← hgot, List.append_nil]
    | cons x chunks =>
      rcases x with ⟨copied, bytes⟩
      rcases hreading with ⟨hpos, hbytes⟩
      rw [List.forall_mem_cons] at hpos
      simp only [hserver, if_neg (not_lt.2 hpos.1)] at hs
      cases hs
      refine ⟨h.small, h.right, phase_of_rest hpc hcount (.inr ⟨old, pkt, hret, hlen, ?_, ?_⟩)⟩
      · exact hshows
      · refine ⟨hpos.2, ?_⟩
        rwa [bytesOf, List.flatMap_cons, ← bytesOf, ← List.append_assoc] at hbytes

theorem step (h : Inv s) {ev : Event} (hset : Settled s ev) (hs : NsInput.step s ev = some s') :
    Inv s' := by
  cases ev with
  | arrive pkt =>
    unfold NsInput.step at hs
    by_cases hlen : pkt.length ≤ 2048
    · simp only [if_pos hlen] at hs
      cases hs
      refine ⟨?_, h.right, h.phase⟩
      intro p hp
      rcases List.mem_append.1 hp with hold | hnew
      · exact h.small p hold
      · rwa [List.mem_singleton.1 hnew]
    · simp only [if_neg hlen, reduceCtorEq] at hs
  | input =>
    rw [← Option.some.inj hs]
    exact h.input hset
  | serve pool => exact h.serve hs

end Inv

theorem inv_start : Inv start := by
  refine ⟨?_, ?_, rfl, .inl ⟨rfl, rfl⟩⟩
  · intro pkt hp
    exact absurd hp List.not_mem_nil
  · intro k b hk
    cases hk

/-- If the input environment asks for a packet only when the server is done with the page,
    the bytes that are handled for each message are those of the packet that the driver
    returned for it. -/
theorem packets_unchanged (s : State) (hrun : Lib.Run step Settled start s) (k : Nat)
    (b : List (BitVec 8)) (hk : s.handled[k]? = some (some b)) : s.returned[k]? = some b := by
  have hinv : Inv s := by
    refine Lib.Run.invariant Inv ?_ hrun inv_start
    intro t ev t' ht hset hstep
    exact ht.step hset hstep
  exact hinv.right k b hk

/-- A test for `Settled`. -/
def settledTest (s : State) : Event → Bool
  | .input => s.handled.length == s.messages
  | _ => true

theorem settled_of_test (s : State) (ev : Event) (h : settledTest s ev = true) : Settled s ev := by
  cases ev with
  | arrive pkt => trivial
  | input =>
    intro _ _
    exact eq_of_beq h
  | serve pool => trivial

/-- A second packet arrives while the first one is read, and goes through behind it. -/
theorem packets_unchanged_two : ∃ s, Lib.Run step Settled start s ∧
    s.handled = [some [7, 9], some [8]] ∧ s.returned[1]? = some [8] := by
  have heval : ((Lib.checkEvents step settledTest start [.arrive [7, 9], .input, .input, .input,
      .serve 1, .arrive [8], .serve 1, .serve 1, .input, .input, .input, .input, .serve 1,
      .serve 1, .serve 1]).map State.handled) = some [some [7, 9], some [8]] := by decide
  rcases Option.map_eq_some_iff.1 heval with ⟨s, hs, hhandled⟩
  have hrun := Lib.Run.of_checkEvents settled_of_test _ _ _ hs
  exact ⟨s, hrun, hhandled, packets_unchanged s hrun 1 [8] (by rw [hhandled]; rfl)⟩

/-- A second packet is received before the server has read the first one. -/
theorem packet_overwritten : ∃ s, Lib.Run step (fun _ _ => True) start s ∧
    s.handled = [some [8]] ∧ s.returned = [[7], [8]] := by
  have heval : ((Lib.runEvents step start [.arrive [7], .arrive [8], .input, .input, .input, .input,
      .input, .serve 1, .serve 1, .serve 1]).map fun s => (s.handled, s.returned)) =
      some ([some [8]], [[7], [8]]) := by decide
  rcases Option.map_eq_some_iff.1 heval with ⟨s, hs, hfacts⟩
  rw [Prod.mk.injEq] at hfacts
  exact ⟨s, Lib.Run.of_runEvents _ _ hs, hfacts.1, hfacts.2⟩

end Jos.NsInput
