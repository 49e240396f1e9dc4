import Mathlib.Algebra.Ring.Nat
import Mathlib.Data.BitVec
import Mathlib.Logic.Function.Basic

/-!
# The Transmit Ring

The transmit side of `kern/e1000.c`: the descriptors with their buffers, what
`e1000_attach` makes of them and what `e1000_transmit` does, and the card, which owns
the descriptors from its head register to its tail register.

## Main definitions

* `TxRing`: The descriptors, the buffers and the two registers.
* `TxRing.transmit`: `e1000_transmit`.
* `TxRing.send`: The card.
* `step`: The driver and the card together.
-/

namespace Jos.Transmit

/-- `E1000_TXDESC` -/
def txdesc : Nat := 64

/-- `TX_PKT_SIZE` -/
def txPktSize : Nat := 1518

/-- `E1000_TXD_STAT_DD` -/
def statDd : BitVec 8 := 1

/-- `E1000_TXD_CMD_RS` and `E1000_TXD_CMD_EOP` -/
def cmdRs : BitVec 8 := 8

def cmdEop : BitVec 8 := 1

/-- `struct tx_desc`, where `addr` is the buffer whose address it has. -/
structure TxDesc where
  addr : Nat
  length : BitVec 16
  cmd : BitVec 8
  status : BitVec 8

/-- `tx_desc_array`, `tx_pkt_bufs`, and the registers `TDH` and `TDT`. -/
structure TxRing where
  desc : Nat → TxDesc
  bufs : Nat → Nat → BitVec 8
  tdh : Nat
  tdt : Nat

namespace TxRing

/-- `e1000_attach`: the buffers are empty and done with. -/
def attach : TxRing where
  desc i := ⟨i, 0, 0, statDd⟩
  bufs _ _ := 0
  tdh := 0
  tdt := 0

/-- The descriptor is marked as done. -/
def dd (r : TxRing) (i : Nat) : Bool := (r.desc i).status &&& statDd != 0

/-- The packet that a descriptor describes. -/
def packet (r : TxRing) (i : Nat) : List (BitVec 8) :=
  (List.range (r.desc i).length.toNat).map (r.bufs (r.desc i).addr)

/-- The packet goes into the descriptor at the tail, and the tail moves on. -/
def fill (r : TxRing) (data : List (BitVec 8)) : TxRing :=
  let d := r.desc r.tdt
  { r with
    bufs := Function.update r.bufs r.tdt fun j => data.getD j (r.bufs r.tdt j)
    desc := Function.update r.desc r.tdt { d with
      length := BitVec.ofNat 16 data.length
      status := d.status &&& ~~~statDd
      cmd := d.cmd ||| cmdRs ||| cmdEop }
    tdt := (r.tdt + 1) % txdesc }

/-- `e1000_transmit`, with what it returns. -/
def transmit (r : TxRing) (data : List (BitVec 8)) : Int × TxRing :=
  if txPktSize < data.length then (-18, r)
  -- is the next descriptor free?
  else if r.dd r.tdt then (0, r.fill data)
  else (-16, r)

/-- The descriptor at the head is done with, and the head moves on. -/
def retire (r : TxRing) : TxRing :=
  let d := r.desc r.tdh
  { r with
    desc := Function.update r.desc r.tdh { d with status := d.status ||| statDd }
    tdh := (r.tdh + 1) % txdesc }

/-- The card sends the packet at its head, if the tail is somewhere else. -/
def send (r : TxRing) : Option (List (BitVec 8) × TxRing) :=
  if r.tdh ≠ r.tdt then some (r.packet r.tdh, r.retire) else none

end TxRing

/-- The ring, the packets that `e1000_transmit` accepted, and those that were sent. -/
structure State where
  ring : TxRing
  accepted : List (List (BitVec 8))
  sent : List (List (BitVec 8))

/-- A call of `e1000_transmit`, or a step of the card. -/
inductive Event
  | transmit (data : List (BitVec 8))
  | card

def step (s : State) : Event → Option State
  | .transmit data =>
    let r := s.ring.transmit data
    some { s with
      ring := r.2
      accepted := if r.1 = 0 then s.accepted ++ [data] else s.accepted }
  | .card =>
    s.ring.send.map fun (pkt, r) => { s with ring := r, sent := s.sent ++ [pkt] }

def start : State := ⟨.attach, [], []⟩

end Jos.Transmit
