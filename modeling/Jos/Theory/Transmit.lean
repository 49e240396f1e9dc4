import Jos.Core.E1000
import Jos.Core.Syscall
import Jos.Lib.Ring
import Mathlib.Data.List.GetD

/-!
# The Transmit Ring

The driver takes a descriptor for free when it is marked as done; for the card the
descriptors from `TDH` to `TDT` are its own, and none are when the two are the same. The
two agree on everything except a ring in which all descriptors are in use: the driver
fills the last one, `TDT` comes round to `TDH`, and the card has nothing to do.

## Main definitions

* `State.Accounts`: The packets that were accepted and not sent are those from `TDH` to
  `TDT`, in order.
* `Spare`: A call that leaves a descriptor free.

## Theorems

* `Inv.transmit`, `Inv.card`: One step.
* `transmit_accounts`: Runs in which a descriptor stays free, and what one call
  more does.
* `transmit_full`: All descriptors in use.
-/

open Lib.Ring

namespace Jos.Transmit

open Function (update update_self update_of_ne)

/-- The packets that the card has still to send. -/
def TxRing.pending (r : TxRing) : List (List (BitVec 8)) :=
  window r.packet txdesc r.tdh ((r.tdt + txdesc - r.tdh) % txdesc)

/-- What was accepted is what was sent, and what the card has still to send. -/
def State.Accounts (s : State) : Prop :=
  s.accepted = s.sent ++ s.ring.pending

/-- A packet that can be accepted does not take the last free descriptor. -/
def Spare (s : State) : Event → Prop
  | .transmit data => data.length ≤ txPktSize → (s.ring.tdt + 1) % txdesc ≠ s.ring.tdh
  | .card => True

theorem or_statDd (b : BitVec 8) : (b ||| statDd) &&& statDd = statDd := by
  ext i hi
  rw [BitVec.getElem_and, BitVec.getElem_or]
  cases statDd[i] with
  | false => exact Bool.and_false _
  | true => rw [Bool.or_true, Bool.and_true]

theorem and_not_statDd (b : BitVec 8) : b &&& ~~~statDd &&& statDd = 0 := by
  ext i hi
  simp

namespace TxRing

variable (r : TxRing)

theorem dd_fill (data : List (BitVec 8)) : (r.fill data).dd = update r.dd r.tdt false := by
  funext i
  unfold dd fill
  by_cases hi : i = r.tdt
  · rw [hi]
    dsimp only
    rw [update_self, update_self, and_not_statDd]
    rfl
  · dsimp only
    rw [update_of_ne hi, update_of_ne hi]

theorem dd_retire : r.retire.dd = update r.dd r.tdh true := by
  funext i
  unfold dd retire
  by_cases hi : i = r.tdh
  · rw [hi]
    dsimp only
    rw [update_self, update_self, or_statDd]
    rfl
  · dsimp only
    rw [update_of_ne hi, update_of_ne hi]

theorem addr_fill (data : List (BitVec 8)) (i : Nat) :
    ((r.fill data).desc i).addr = (r.desc i).addr := by
  unfold fill
  by_cases hi : i = r.tdt
  · rw [hi]
    dsimp only
    rw [update_self]
  · dsimp only
    rw [update_of_ne hi]

theorem desc_retire (i : Nat) : (r.retire.desc i).addr = (r.desc i).addr ∧
    (r.retire.desc i).length = (r.desc i).length := by
  unfold retire
  by_cases hi : i = r.tdh
  · rw [hi]
    dsimp only
    rw [update_self]
    exact ⟨rfl, rfl⟩
  · dsimp only
    rw [update_of_ne hi]
    exact ⟨rfl, rfl⟩

/-- The copied bytes are the packet; the other buffers are left alone. -/
theorem packet_fill (haddr : ∀ i, (r.desc i).addr = i) {data : List (BitVec 8)}
    (hlen : data.length ≤ txPktSize) :
    (r.fill data).packet = update r.packet r.tdt data := by
  unfold txPktSize at hlen
  funext i
  unfold packet
  rw [addr_fill, haddr]
  unfold fill
  by_cases hi : i = r.tdt
  · rw [hi]
    dsimp only
    rw [update_self, update_self, update_self, BitVec.toNat_ofNat,
      Nat.mod_eq_of_lt (by omega)]
    refine List.ext_getElem (by rw [List.length_map, List.length_range]) fun j hj hj' => ?_
    rw [List.getElem_map, List.getElem_range, List.getD_eq_getElem _ _ hj']
  · dsimp only
    rw [update_of_ne hi, update_of_ne hi, update_of_ne hi, haddr]

theorem packet_retire : r.retire.packet = r.packet := by
  funext i
  unfold packet
  rw [(r.desc_retire i).1, (r.desc_retire i).2]
  rfl

end TxRing

/-- The `k` packets from the head on are unsent. -/
structure Inv (s : State) (k : Nat) : Prop where
  head : s.ring.tdh < 64
  tail : s.ring.tdt = (s.ring.tdh + k) % 64
  room : k < 64
  addr : ∀ i, (s.ring.desc i).addr = i
  done : ∀ j, j < 64 → (s.ring.dd ((s.ring.tdh + j) % 64) = true ↔ k ≤ j)
  ring : Carries s.ring.packet 64 s.ring.tdh k s.accepted s.sent

namespace Inv

variable {s : State} {k : Nat}

theorem pending_length (h : Inv s k) : (s.ring.tdt + txdesc - s.ring.tdh) % txdesc = k := by
  have := h.head
  have := h.room
  rw [h.tail, txdesc]
  omega

theorem accounts (h : Inv s k) : s.Accounts := by
  unfold State.Accounts TxRing.pending
  rw [h.pending_length]
  exact h.ring.carried

/-- The descriptor at the tail is free. -/
theorem dd_tail (h : Inv s k) : s.ring.dd s.ring.tdt = true := by
  rw [h.tail, h.done k h.room]

theorem transmit_eq (h : Inv s k) (data : List (BitVec 8)) (hlen : data.length ≤ txPktSize) :
    step s (.transmit data) =
      some { s with ring := s.ring.fill data, accepted := s.accepted ++ [data] } := by
  unfold step TxRing.transmit
  dsimp only
  rw [if_neg (by omega), if_pos h.dd_tail, if_pos rfl]

theorem transmit (h : Inv s k) (data : List (BitVec 8)) (hlen : data.length ≤ txPktSize)
    (hk : k + 1 < 64) :
    Inv { s with ring := s.ring.fill data, accepted := s.accepted ++ [data] } (k + 1) := by
  have hhead := h.head
  refine ⟨h.head, ?_, hk, fun i => ?_, fun j hj => ?_, ?_⟩
  · change (s.ring.tdt + 1) % 64 = (s.ring.tdh + (k + 1)) % 64
    rw [h.tail, Nat.mod_add_mod, Nat.add_assoc]
  · rw [TxRing.addr_fill]
    exact h.addr i
  · rw [TxRing.dd_fill, h.tail]
    change update s.ring.dd ((s.ring.tdh + k) % 64) false ((s.ring.tdh + j) % 64) = true ↔ _
    by_cases hjk : j = k
    · rw [hjk, update_self]
      simp
    · rw [update_of_ne (by omega), h.done j hj]
      omega
  · rw [TxRing.packet_fill _ h.addr hlen, h.tail]
    exact h.ring.push data h.room

theorem card (h : Inv s (k + 1)) :
    Inv { s with ring := s.ring.retire, sent := s.sent ++ [s.ring.packet s.ring.tdh] } k := by
  have hhead := h.head
  have hroom := h.room
  refine ⟨Nat.mod_lt _ (by decide), ?_, by omega, fun i => ?_, fun j hj => ?_, ?_⟩
  · change s.ring.tdt = ((s.ring.tdh + 1) % 64 + k) % 64
    rw [h.tail, Nat.mod_add_mod, Nat.add_assoc, Nat.add_comm 1 k]
  · rw [(s.ring.desc_retire i).1]
    exact h.addr i
  · rw [TxRing.dd_retire]
    change update s.ring.dd s.ring.tdh true (((s.ring.tdh + 1) % 64 + j) % 64) = true ↔ _
    rw [Nat.mod_add_mod]
    by_cases hj63 : j = 63
    · -- the descriptor that was just sent is now the last one
      rw [show (s.ring.tdh + 1 + j) % 64 = s.ring.tdh by omega, update_self]
      simp only [true_iff]
      omega
    · rw [update_of_ne (by omega), Nat.add_assoc, h.done (1 + j) (by omega)]
      omega
  · have hring := h.ring.pop
    rw [Nat.mod_eq_of_lt hhead] at hring
    rw [TxRing.packet_retire]
    exact hring.mod

end Inv

theorem inv_start : Inv start 0 := by
  refine ⟨by decide, rfl, by decide, fun i => rfl, fun j hj => ?_, ⟨by decide, rfl⟩⟩
  refine iff_of_true ?_ (Nat.zero_le j)
  change (statDd &&& statDd != 0) = true
  decide

theorem Inv.step {s s' : State} {k : Nat} (h : Inv s k) (ev : Event) (hspare : Spare s ev)
    (hs : Transmit.step s ev = some s') : ∃ k', Inv s' k' := by
  cases ev with
  | transmit data =>
    by_cases hlen : data.length ≤ txPktSize
    · rw [h.transmit_eq data hlen] at hs
      cases hs
      refine ⟨k + 1, h.transmit data hlen ?_⟩
      have hne := hspare hlen
      have hhead := h.head
      have hroom := h.room
      rw [h.tail, txdesc] at hne
      omega
    · -- a packet that is too long changes nothing
      unfold Transmit.step TxRing.transmit at hs
      dsimp only at hs
      rw [if_pos (by omega), if_neg (show ¬(-18 : Int) = 0 by decide)] at hs
      cases hs
      exact ⟨k, h⟩
  | card =>
    unfold Transmit.step TxRing.send at hs
    dsimp only at hs
    by_cases hne : s.ring.tdh ≠ s.ring.tdt
    · rw [if_pos hne, Option.map_some, Option.some.injEq] at hs
      have hhead := h.head
      have hroom := h.room
      rw [h.tail] at hne
      obtain ⟨j, rfl⟩ : ∃ j, k = j + 1 := ⟨k - 1, by omega⟩
      rw [← hs]
      exact ⟨j, h.card⟩
    · rw [if_neg hne, Option.map_none] at hs
      cases hs

/-- The driver can fill any number of descriptors but one while the card does nothing. -/
theorem reach_filled (n : Nat) (hn : n < 64) :
    ∃ s, Lib.Run step Spare start s ∧ Inv s n ∧ s.ring.tdh = 0 ∧ s.sent = [] := by
  induction n with
  | zero => exact ⟨start, .refl, inv_start, rfl, rfl⟩
  | succ n ih =>
    rcases ih (by omega) with ⟨s, hrun, hinv, htdh, hsent⟩
    have hspare : Spare s (.transmit []) := by
      intro _
      rw [hinv.tail, htdh, txdesc]
      omega
    have hnext := hinv.transmit [] (Nat.zero_le _) hn
    refine ⟨_, hrun.tail ⟨_, hspare, hinv.transmit_eq [] (Nat.zero_le _)⟩, hnext, htdh, hsent⟩

/-- As long as every call leaves a descriptor free, the packets that were accepted and
    not sent are those from `TDH` to `TDT`, as they were accepted and in that order. In
    every state so reached, it is this condition that decides whether that is so after
    one call more. -/
theorem transmit_accounts (s : State) (hrun : Lib.Run step Spare start s) :
    s.Accounts ∧ s.accepted.length - s.sent.length = (s.ring.tdt + txdesc - s.ring.tdh) % txdesc ∧
    ∀ data, data.length ≤ txPktSize → ∀ s', step s (.transmit data) = some s' →
      (s'.Accounts ↔ (s.ring.tdt + 1) % txdesc ≠ s.ring.tdh) := by
  have hinv : ∃ k, Inv s k := by
    refine Lib.Run.invariant (fun s => ∃ k, Inv s k) ?_ hrun ⟨0, inv_start⟩
    intro t ev t' ht hspare hstep
    rcases ht with ⟨k, hk⟩
    exact hk.step ev hspare hstep
  rcases hinv with ⟨k, h⟩
  refine ⟨h.accounts, ?_, ?_⟩
  · rw [h.pending_length, h.ring.length]
    omega
  · intro data hlen s' hs
    constructor
    · intro hacc hfull
      -- one packet more was accepted, and the card sees none
      rw [h.transmit_eq data hlen, Option.some.injEq] at hs
      have hcount := congrArg List.length hacc
      rw [← hs, List.length_append, List.length_append, TxRing.pending, length_window,
        h.ring.length] at hcount
      change _ = s.sent.length +
        ((s.ring.tdt + 1) % txdesc + txdesc - s.ring.tdh) % txdesc at hcount
      rw [hfull, Nat.add_sub_cancel_left, Nat.mod_self] at hcount
      simp only [List.length_singleton] at hcount
      omega
    · intro hspare
      rcases h.step (.transmit data) (fun _ => hspare) hs with ⟨k', h'⟩
      exact h'.accounts

/-- Two packets, of which the card has sent none. -/
theorem transmit_accounts_two : ∃ s, Lib.Run step Spare start s ∧ s.accepted.length = 2 ∧
    s.Accounts := by
  rcases reach_filled 2 (by decide) with ⟨s, hrun, hinv, -, hsent⟩
  refine ⟨s, hrun, ?_, (transmit_accounts s hrun).1⟩
  rw [hinv.ring.length, hsent]
  rfl

/-- All descriptors are filled before the card sends anything. The head and the tail are
    the same, and the card will send none of the packets. -/
theorem transmit_full : ∃ s, Lib.Run step (fun _ _ => True) start s ∧
    s.accepted.length - s.sent.length = 64 ∧
    (s.ring.tdt + txdesc - s.ring.tdh) % txdesc = 0 ∧ step s .card = none := by
  rcases reach_filled 63 (by decide) with ⟨s, hrun, hinv, htdh, hsent⟩
  have hlast := hinv.transmit_eq [] (Nat.zero_le _)
  have htdt : (s.ring.fill []).tdt = 0 := by
    change (s.ring.tdt + 1) % 64 = 0
    rw [hinv.tail, htdh]
  have hhead : (s.ring.fill []).tdh = 0 := htdh
  refine ⟨_, (Lib.Run.mono (fun _ _ _ => trivial) hrun).tail ⟨_, trivial, hlast⟩, ?_, ?_, ?_⟩
  · rw [List.length_append, hinv.ring.length, hsent]
    rfl
  · dsimp only
    rw [htdt, hhead]
    decide
  · simp only [step, TxRing.send, htdt, hhead, ne_eq, not_true_eq_false, if_false, Option.map_none]

end Jos.Transmit
