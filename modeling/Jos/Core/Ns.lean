import Jos.Lib.Bytes

/-!
# The Network Server

`net/serv.c`: the loop of `serve` with the pool of pages that it receives requests in,
and what `serve_thread` and `low_level_input` read and write of a request's page.

The server's threads are cooperative. `serve` lets others run before it takes a buffer,
in `process_timer`, and after it has created a thread; while it is in `ipc_recv` nobody
runs.

## Main definitions

* `getBuffer`, `putBuffer`: The pool.
* `State`, `step`: `serve` and the threads it creates.
* `accesses`: What the service of a request touches.
-/

namespace Jos.Ns

/-- `QUEUE_SIZE` -/
def queueSize : Nat := 20

/-- `PGSIZE` -/
def pgsize : Nat := 4096

/-- `REQVA` -/
def reqva : Nat := 0x0ffff000 - queueSize * pgsize

/-! ## The pool of buffers -/

/-- The page of a slot. -/
def slotVa (i : Nat) : Nat := reqva + i * pgsize

/-- `get_buffer`, unless it panics. -/
def getBuffer (buse : Nat → Bool) : Option (Nat × (Nat → Bool)) :=
  ((List.range queueSize).find? fun i => !buse i).map fun i =>
    (slotVa i, Function.update buse i true)

/-- `put_buffer` -/
def putBuffer (buse : Nat → Bool) (va : Nat) : Nat → Bool :=
  Function.update buse ((va - reqva) / pgsize) false

/-! ## The loop -/

/-- `NSREQ_TIMER` -/
def nsreqTimer : BitVec 32 := 12

/-- `struct st_args` -/
structure StArgs where
  reqno : BitVec 32
  whom : BitVec 32
  req : Nat

/-- Where `serve` is: before `get_buffer`, in `ipc_recv`, in `process_timer`, or ended. -/
inductive Pc
  | top
  | recv (va : Nat)
  | timer (va : Nat)
  | panicked (msg : String)
  deriving DecidableEq

/-- `threads` has the requests whose `serve_thread` has not returned. -/
structure State where
  buse : Nat → Bool
  pc : Pc
  threads : List StArgs
  timerEnvid : BitVec 32

/-- How the memory for a thread is found: all of it, none for its arguments, or none for
    the thread. -/
inductive Memory
  | ok
  | noArgs
  | noThread
  deriving DecidableEq

/-- The loop goes round, a message comes, `process_timer` returns, or a thread is done. -/
inductive Event
  | getBuffer
  | message (reqno whom perm : BitVec 32) (mem : Memory)
  | timerDone
  | complete (i : Nat)

/-- `serve` after `ipc_recv`. -/
def received (s : State) (va : Nat) (reqno whom perm : BitVec 32) (mem : Memory) : State :=
  if reqno = nsreqTimer then
    if whom = s.timerEnvid then { s with pc := .timer va }
    else { s with buse := putBuffer s.buse va, pc := .top }
  else if perm &&& 1 = 0 then
    -- just leave it hanging...
    { s with pc := .top }
  else
    match mem with
    | .noArgs => { s with pc := .panicked "could not allocate thread args structure" }
    -- what `thread_create` returns is not looked at
    | .noThread => { s with pc := .top }
    | .ok => { s with pc := .top, threads := s.threads ++ [⟨reqno, whom, va⟩] }

def step (s : State) : Event → Option State
  | .getBuffer =>
    match s.pc with
    | .top =>
      match getBuffer s.buse with
      | some (va, buse) => some { s with buse := buse, pc := .recv va }
      | none => some { s with pc := .panicked "NS: buffer overflow" }
    | _ => none
  | .message reqno whom perm mem =>
    match s.pc with
    | .recv va => some (received s va reqno whom perm mem)
    | _ => none
  | .timerDone =>
    match s.pc with
    | .timer va => some { s with buse := putBuffer s.buse va, pc := .top }
    | _ => none
  | .complete i =>
    match s.pc, s.threads[i]? with
    | .top, some a | .timer _, some a =>
      some { s with buse := putBuffer s.buse a.req, threads := s.threads.eraseIdx i }
    | _, _ => none

def start (timerEnvid : BitVec 32) : State := ⟨fun _ => false, .top, [], timerEnvid⟩

/-! ## The service of a request -/

/-- The lengths of the buffers from the pool that make up the rest of a chain; `pool` is
    how many there are. -/
def pbufTail : Nat → Nat → Option (List Nat)
  | _, 0 => some []
  | 0, _ + 1 => none
  | pool + 1, remLen => (pbufTail pool (remLen - min remLen 2000)).map (min remLen 2000 :: ·)

/-- `pbuf_alloc(PBUF_RAW, length, PBUF_POOL)`: the lengths of the buffers of the chain. -/
def pbufAlloc (pool : Nat) (length : BitVec 16) : Option (List Nat) :=
  match pool with
  | 0 => none
  | pool + 1 =>
    (pbufTail pool (length.toNat - min length.toNat 2000)).map (min length.toNat 2000 :: ·)

/-- The loop of `low_level_input`: where in the packet each `memcpy` begins, and for how
    many bytes. -/
def copyLoop (len : Int) : Int → List Nat → List (Int × Int)
  | _, [] => []
  | copied, q :: qs =>
    let bytes : Int := if (q : Int) > len - copied then len - copied else q
    (copied, bytes) :: copyLoop len (copied + bytes) qs

/-- The `memcpy`s of `low_level_input` for a packet with this length, which is cut to 16
    bits; none without a chain. -/
def lowLevelInput (pool : Nat) (jpLen : BitVec 32) : Option (List (Int × Int)) :=
  (pbufAlloc pool (jpLen.truncate 16)).map (copyLoop (jpLen.truncate 16).toInt 0)

/-- Bytes that are read or written, from an offset in the page of the request on. -/
structure Access where
  offset : Int
  size : Nat

/-- An `int` of the request. -/
def word (page : Nat → BitVec 8) (off : Nat) : BitVec 32 :=
  BitVec.ofNat 32 (Lib.Bytes.load page 4 off)

/-- What the service of a request depends on besides the page: whether there is such a
    socket, how many bytes `lwip_recv` writes and `lwip_send` reads, and how many
    buffers the pool has. -/
structure World where
  sock : Bool
  recvd : Nat
  sent : Nat
  pool : Nat

/-- What `lwip_bind` and `lwip_connect` read of the address: nothing, if it has not the
    length of a `struct sockaddr_in`. -/
def nameAccesses (page : Nat → BitVec 8) (w : World) : List Access :=
  if w.sock ∧ word page 20 = 16 then
    if page 5 = 2 then [⟨5, 1⟩, ⟨8, 4⟩, ⟨6, 2⟩] else [⟨5, 1⟩]
  else []

/-- What `low_level_input` reads of the packet; a negative number of bytes is a huge
    `size_t`. -/
def inputAccesses (page : Nat → BitVec 8) (w : World) : List Access :=
  match lowLevelInput w.pool (word page 0) with
  | some chunks => chunks.map fun (copied, bytes) => ⟨4 + copied, (BitVec.ofInt 64 bytes).toNat⟩
  | none => []

/-- The requests that `serve_thread` knows. -/
inductive Nsreq
  | accept
  | bind
  | shutdown
  | close
  | connect
  | listen
  | recv
  | send
  | socket
  | input

/-- The request with this code. -/
def nsreq (reqno : BitVec 32) : Option Nsreq :=
  match reqno.toNat with
  | 1 => some .accept
  | 2 => some .bind
  | 3 => some .shutdown
  | 4 => some .close
  | 5 => some .connect
  | 6 => some .listen
  | 7 => some .recv
  | 8 => some .send
  | 9 => some .socket
  | 10 => some .input
  | _ => none

/-- What `serve_thread` accesses of the request's page. -/
def accesses (reqno : BitVec 32) (page : Nat → BitVec 8) (w : World) : List Access :=
  match nsreq reqno with
  -- the answer is a `struct Nsret_accept`
  | some .accept => [⟨0, 4⟩, ⟨0, 20⟩]
  | some .bind => [⟨0, 4⟩, ⟨20, 4⟩] ++ nameAccesses page w
  | some .shutdown => [⟨0, 4⟩, ⟨4, 4⟩]
  | some .close => [⟨0, 4⟩]
  | some .connect => [⟨0, 4⟩, ⟨20, 4⟩] ++ nameAccesses page w
  | some .listen => [⟨0, 4⟩, ⟨4, 4⟩]
  -- the answer overwrites the request
  | some .recv => [⟨0, 4⟩, ⟨4, 4⟩, ⟨8, 4⟩, ⟨0, w.recvd⟩]
  | some .send => [⟨0, 4⟩, ⟨4, 4⟩, ⟨8, 4⟩, ⟨12, w.sent⟩]
  | some .socket => [⟨0, 4⟩, ⟨4, 4⟩, ⟨8, 4⟩]
  | some .input => ⟨0, 4⟩ :: inputAccesses page w
  | none => []

end Jos.Ns
