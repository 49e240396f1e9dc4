import Jos.Core.Ns

/-!
# The Input Environment

`input` of `net/input.c` and what the network server does with an `NSREQ_INPUT` message.
The page with the packet is mapped in both environments after the first message: the input
environment goes on receiving into it, and the server reads it in `low_level_input`, one
buffer of its chain after the other. The two run in any order. The server takes up
the messages in the order they were sent, each at any time after it was sent.

## Main definitions

* `State`: The packet page, the two environments, and the driver.
* `State.inputStep`, `State.serveStep`: The next thing that each of them does.
* `step`: All together.
-/

namespace Jos.NsInput

/-- What `input` does next. -/
inductive InputPc
  -- `sys_net_try_receive`
  | receive
  -- store `jp_len`
  | setLen (length : Nat)
  -- `ipc_send`
  | send
  -- `msleep`
  | sleep

/-- The server in `low_level_input`: the copies to come, and what is in the chain. -/
inductive ServePc
  | idle
  | copying (chunks : List (Int × Int)) (got : List (BitVec 8))

/-- `wire` has the packets that the driver has not returned yet, `returned` those it has.
    `messages` counts the messages, and `handled` has what was made of them: nothing, if
    there was no chain, or the bytes of a packet. -/
structure State where
  jpLen : BitVec 32
  jpData : Nat → BitVec 8
  input : InputPc
  server : ServePc
  wire : List (List (BitVec 8))
  returned : List (List (BitVec 8))
  messages : Nat
  handled : List (Option (List (BitVec 8)))

namespace State

/-- `input` up to the next system call or store. -/
def inputStep (s : State) : State :=
  match s.input with
  | .receive =>
    match s.wire with
    -- nothing came: sleep, and try again
    | [] => s
    | pkt :: rest =>
      { s with
        jpData := fun j => pkt.getD j (s.jpData j)
        wire := rest
        returned := s.returned ++ [pkt]
        input := .setLen pkt.length }
  | .setLen length => { s with jpLen := BitVec.ofNat 32 length, input := .send }
  | .send => { s with messages := s.messages + 1, input := .sleep }
  | .sleep => { s with input := .receive }

/-- The bytes of one `memcpy`. -/
def chunk (s : State) (copied bytes : Int) : List (BitVec 8) :=
  (List.range bytes.toNat).map fun j => s.jpData (copied.toNat + j)

/-- The server takes up a message, copies to the next buffer, or is done. A copy of a
    negative length ends it. -/
def serveStep (s : State) (pool : Nat) : Option State :=
  match s.server with
  | .idle =>
    if s.handled.length < s.messages then
      match Ns.lowLevelInput pool s.jpLen with
      | none => some { s with handled := s.handled ++ [none] }
      | some chunks => some { s with server := .copying chunks [] }
    else none
  | .copying [] got => some { s with server := .idle, handled := s.handled ++ [some got] }
  | .copying ((copied, bytes) :: chunks) got =>
    if bytes < 0 then none
    else some { s with server := .copying chunks (got ++ s.chunk copied bytes) }

end State

/-- A packet arrives, `input` goes on, or the server does, with so many buffers in its
    pool. -/
inductive Event
  | arrive (pkt : List (BitVec 8))
  | input
  | serve (pool : Nat)

/-- A packet is no longer than the driver's buffer, which has `RCV_PKT_SIZE` bytes. -/
def step (s : State) : Event → Option State
  | .arrive pkt => if pkt.length ≤ 2048 then some { s with wire := s.wire ++ [pkt] } else none
  | .input => some s.inputStep
  | .serve pool => s.serveStep pool

/-- The page is new. -/
def start : State := ⟨0, fun _ => 0, .receive, .idle, [], [], 0, []⟩

end Jos.NsInput
