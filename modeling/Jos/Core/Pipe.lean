import Mathlib.Algebra.Ring.Nat
import Mathlib.Data.BitVec
import Mathlib.Logic.Function.Basic

/-!
# Pipes

`devpipe_read` and `devpipe_write` of `lib/pipe.c`, for one reader and one writer
that have the page with the `struct Pipe` in common. Each load from that page and
each store to it is a step of its own, and the steps of the two come in any
order. What `_pipeisclosed` returns is part of the step in which it is called.

Of the two loads in a comparison the position of the other side comes second;
the own position cannot change in between.

## Main definitions

* `Page`: `struct Pipe`.
* `ReadCall.returns`, `WriteCall.returns`: The values of the calls.
* `State.readStep`, `State.writeStep`: The code up to the next access.
* `step`: The reader and the writer together.
-/

namespace Jos.Pipe

/-- `PIPEBUFSIZ` -/
def pipebufsiz : BitVec 32 := 32

/-- `struct Pipe` -/
structure Page where
  pRpos : BitVec 32
  pWpos : BitVec 32
  pBuf : Nat → BitVec 8

/-- The index `pos % PIPEBUFSIZ`, where `pos` is a signed `off_t`. -/
def slot (pos : BitVec 32) : Nat := (pos.srem pipebufsiz).toNat

/-- `p->p_wpos >= p->p_rpos + sizeof(p->p_buf)`: the size is a `size_t`, so that
    the positions become one too. -/
def isFull (wpos rpos : BitVec 32) : Bool :=
  (rpos.signExtend 64 + 32#64).ule (wpos.signExtend 64)

/-- What `devpipe_read` does next, with what it has in registers. -/
inductive ReadPc
  -- test `i < n` and load `p_rpos` for the test of the inner loop
  | test
  -- load `p_wpos` and compare
  | compare (rpos : BitVec 32)
  -- there is no byte
  | empty
  -- load `p_rpos` for the index
  | index
  -- load the byte
  | take (rpos : BitVec 32)
  -- `p->p_rpos++`
  | bump (byte : BitVec 8)
  | advance (byte : BitVec 8) (rpos : BitVec 32)

/-- A call of `devpipe_read`: the bytes in `buf` so far are as many as `i` says. -/
structure ReadCall where
  n : Nat
  buf : List (BitVec 8)
  pc : ReadPc

/-- What `devpipe_write` does next. -/
inductive WritePc
  | test
  | compare (wpos : BitVec 32)
  | full
  | index
  -- store the byte
  | put (wpos : BitVec 32)
  | bump
  | advance (wpos : BitVec 32)
deriving DecidableEq

/-- A call of `devpipe_write`. -/
structure WriteCall where
  buf : List (BitVec 8)
  i : Nat
  pc : WritePc

/-- What `devpipe_read` returns, if it returns before its next access: with `closed`,
    `_pipeisclosed` says that all writers are gone. -/
def ReadCall.returns (c : ReadCall) (closed : Bool) : Option Nat :=
  match c.pc with
  | .test => if c.buf.length < c.n then none else some c.buf.length
  | .empty =>
    if 0 < c.buf.length then some c.buf.length
    else if closed then some 0
    else none
  | _ => none

/-- What `devpipe_write` returns, if it does. -/
def WriteCall.returns (c : WriteCall) (closed : Bool) : Option Nat :=
  match c.pc with
  | .test => if c.i < c.buf.length then none else some c.i
  | .full => if closed then some 0 else none
  | _ => none

/-- The shared page and the two sides. `reads` has what each call of
    `devpipe_read` returned, `stored` the bytes that were stored in `p_buf`. -/
structure State where
  pipe : Page
  reader : Option ReadCall
  writer : Option WriteCall
  reads : List (List (BitVec 8))
  stored : List (BitVec 8)

namespace State

def setReader (s : State) (c : ReadCall) : State := { s with reader := some c }

def setWriter (s : State) (c : WriteCall) : State := { s with writer := some c }

/-- `devpipe_read` returns. -/
def readReturn (s : State) (c : ReadCall) : State :=
  { s with reader := none, reads := s.reads ++ [c.buf] }

/-- `devpipe_read` up to and including its next access to the page. -/
def readStep (s : State) (c : ReadCall) (closed : Bool) : State :=
  match c.pc with
  | .test =>
    if c.buf.length < c.n then s.setReader { c with pc := .compare s.pipe.pRpos }
    else s.readReturn c
  | .compare rpos =>
    if rpos = s.pipe.pWpos then s.setReader { c with pc := .empty }
    else s.setReader { c with pc := .index }
  -- with some bytes, or at the end of the file, the call returns
  | .empty =>
    if 0 < c.buf.length ∨ closed then s.readReturn c else s.setReader { c with pc := .test }
  | .index => s.setReader { c with pc := .take s.pipe.pRpos }
  | .take rpos => s.setReader { c with pc := .bump (s.pipe.pBuf (slot rpos)) }
  | .bump byte => s.setReader { c with pc := .advance byte s.pipe.pRpos }
  | .advance byte rpos =>
    { s with
      pipe := { s.pipe with pRpos := rpos + 1 }
      reader := some { c with buf := c.buf ++ [byte], pc := .test } }

/-- `devpipe_write` up to and including its next access to the page. -/
def writeStep (s : State) (c : WriteCall) (closed : Bool) : State :=
  match c.pc with
  | .test =>
    if c.i < c.buf.length then s.setWriter { c with pc := .compare s.pipe.pWpos }
    else { s with writer := none }
  | .compare wpos =>
    if isFull wpos s.pipe.pRpos then s.setWriter { c with pc := .full }
    else s.setWriter { c with pc := .index }
  | .full => if closed then { s with writer := none } else s.setWriter { c with pc := .test }
  | .index => s.setWriter { c with pc := .put s.pipe.pWpos }
  | .put wpos =>
    { s with
      pipe := { s.pipe with pBuf := Function.update s.pipe.pBuf (slot wpos) (c.buf.getD c.i 0) }
      writer := some { c with pc := .bump }
      stored := s.stored ++ [c.buf.getD c.i 0] }
  | .bump => s.setWriter { c with pc := .advance s.pipe.pWpos }
  | .advance wpos =>
    { s with
      pipe := { s.pipe with pWpos := wpos + 1 }
      writer := some { c with i := c.i + 1, pc := .test } }

end State

/-- A call begins, or one side takes a step. -/
inductive Event
  | callRead (n : Nat)
  | callWrite (buf : List (BitVec 8))
  | read (closed : Bool)
  | write (closed : Bool)

def step (s : State) : Event → Option State
  | .callRead n =>
    match s.reader with
    | none => some (s.setReader ⟨n, [], .test⟩)
    | some _ => none
  | .callWrite buf =>
    match s.writer with
    | none => some (s.setWriter ⟨buf, 0, .test⟩)
    | some _ => none
  | .read closed => s.reader.map fun c => s.readStep c closed
  | .write closed => s.writer.map fun c => s.writeStep c closed

/-- A new pipe: `sys_page_alloc` gives a page of zeros. -/
def start : State := ⟨⟨0, 0, fun _ => 0⟩, none, none, [], []⟩

end Jos.Pipe
