import Mathlib.Algebra.Ring.Nat
import Mathlib.Data.BitVec
import Mathlib.Logic.Function.Basic

/-!
# Mailboxes

The mailboxes of `net/lwip/jos/arch/sys_arch.c` with the semaphores under them, and
`thread_wait` and `thread_wakeup` of `thread.c`. The threads of the network server
are cooperative: the one in `cur_tc` keeps the processor until it calls
`thread_yield` in `thread_wait`, or until it is done with its call. The machine has one
mailbox, which nobody frees, and any number of threads. What `sys_time_msec` returns is
part of the event.

A `msg` of `NULL` in a fetch only drops the message, so that here every successful
fetch returns it.

## Main definitions

* `Sem`, `Mbox`: The entries of `sems` and of `mboxes`.
* `State.semSignal`, `State.waitStep`: `sys_sem_signal` and `sys_arch_sem_wait`.
* `State.tryPost`, `State.fetch`: What follows on the wait in a post and in a fetch.
* `step`: The threads together.
-/

namespace Jos.SysArch

/-- `MBOXSLOTS` -/
def mboxslots : Nat := 32

/-- `SYS_ARCH_NOWAIT` -/
def nowait : BitVec 32 := 0xfffffffe

/-- `SYS_ARCH_TIMEOUT` -/
def timeout : BitVec 32 := 0xffffffff

/-- `struct sys_sem_entry` -/
structure Sem where
  gen : BitVec 32
  counter : BitVec 16
  waiters : BitVec 16

/-- `v`, which is the counter and the waiters together. -/
def Sem.v (e : Sem) : BitVec 32 := e.waiters ++ e.counter

/-- `sys_sem_new`; the waiters are those of the semaphore's earlier life. -/
def sysSemNew (e : Sem) (count : BitVec 8) : Sem :=
  { e with counter := count.zeroExtend 16, gen := e.gen + 1 }

/-- The semaphores of a mailbox. -/
inductive SemId
  | queuedMsg
  | freeMsg
  deriving DecidableEq

variable {M : Type}

/-- `struct sys_mbox_entry` -/
structure Mbox (M : Type) where
  head : Int
  nextq : Int
  msg : Nat → M

namespace Mbox

/-- A message goes into the slot `nextq`. -/
def put (b : Mbox M) (m : M) : Mbox M where
  nextq := (b.nextq + 1).tmod mboxslots
  msg := Function.update b.msg b.nextq.toNat m
  head := if b.head = -1 then b.nextq else b.head

/-- The slot `head` is given up. -/
def drop (b : Mbox M) : Mbox M :=
  let head := (b.head + 1).tmod mboxslots
  { b with head := if head = b.nextq then -1 else head }

end Mbox

/-- What a thread can call. -/
inductive Op (M : Type)
  | post (msg : M)
  | tryPost (msg : M)
  | fetch (tmMsec : BitVec 32)

/-- `sys_arch_mbox_tryfetch` -/
def Op.tryFetch : Op M := .fetch nowait

/-- The semaphore to wait for, and how long. -/
def Op.sem : Op M → SemId
  | .post _ | .tryPost _ => .freeMsg
  | .fetch _ => .queuedMsg

def Op.tmMsec : Op M → BitVec 32
  | .post _ | .tryPost _ => 0
  | .fetch tmMsec => tmMsec

/-- What a call returns: `ERR_OK`, `ERR_MEM`, or the time that was waited. -/
inductive Return (M : Type)
  | ok
  | errMem
  | fetched (waited : BitVec 32) (msg : M)
  | timeout

/-- The message that a call returns. -/
def Return.msg? : Return M → Option M
  | .fetched _ m => some m
  | _ => none

/-- A call that is in `sys_arch_sem_wait`. -/
structure Wait (M : Type) where
  op : Op M
  gen : BitVec 32
  waited : BitVec 32

/-- A call of `thread_wait`: the time before it, the time to wait for, the value to
    compare with, and the time at its beginning. -/
structure Sleep where
  a : BitVec 32
  sleepUntil : BitVec 32
  curV : BitVec 32
  s : BitVec 32

/-- Where a thread is. -/
inductive Pc (M : Type)
  -- in no call
  | idle
  -- at the loop of `sys_arch_sem_wait`
  | loop (w : Wait M)
  -- at the loop of `thread_wait`, with the time `p`
  | wait (w : Wait M) (sl : Sleep) (p : BitVec 32)
  -- in `thread_yield`
  | yielded (w : Wait M) (sl : Sleep)

/-- The part of `struct thread_context` that `thread_wait` uses. -/
structure Thread (M : Type) where
  pc : Pc M
  tcWaitAddr : Option SemId
  tcWakeup : Bool

/-- `posted` has the messages that were put into the mailbox, `returned` what the calls
    returned, both in order. A panic ends the environment. -/
structure State (M : Type) where
  mbox : Mbox M
  sems : SemId → Sem
  thread : Nat → Thread M
  cur : Option Nat
  posted : List M
  returned : List (Return M)
  panicked : Option String

namespace State

/-- What the fetches returned. -/
def fetched (s : State M) : List M := s.returned.filterMap Return.msg?

def setThread (s : State M) (tid : Nat) (t : Thread M) : State M :=
  { s with thread := Function.update s.thread tid t }

def setSem (s : State M) (i : SemId) (e : Sem) : State M :=
  { s with sems := Function.update s.sems i e }

/-- The call of the current thread returns. -/
def ret (s : State M) (tid : Nat) (r : Return M) : State M :=
  { s with
    thread := Function.update s.thread tid ⟨.idle, none, false⟩
    cur := none
    returned := s.returned ++ [r] }

/-- `thread_wakeup` -/
def threadWakeup (s : State M) (i : SemId) : State M :=
  { s with
    thread := fun tid =>
      if (s.thread tid).tcWaitAddr = some i then { s.thread tid with tcWakeup := true }
      else s.thread tid }

/-- `sys_sem_signal` -/
def semSignal (s : State M) (i : SemId) : State M :=
  let e := { s.sems i with counter := (s.sems i).counter + 1 }
  if e.waiters ≠ 0 then (s.setSem i { e with waiters := 0 }).threadWakeup i
  else s.setSem i e

/-- `sys_mbox_trypost` from the end of its wait on, whatever that returned. With
    `strict` it is `sys_mbox_post`. -/
def tryPost (s : State M) (tid : Nat) (msg : M) (strict : Bool) : State M :=
  if s.mbox.nextq = s.mbox.head then
    if strict then
      { s with panicked := some "assertion failed: sys_mbox_trypost(mbox, msg) == ERR_OK" }
    else s.ret tid .errMem
  else
    let s' := { s with mbox := s.mbox.put msg, posted := s.posted ++ [msg] }
    (s'.semSignal .queuedMsg).ret tid .ok

/-- `sys_arch_mbox_fetch` from the end of its wait on. -/
def fetch (s : State M) (tid : Nat) (waited : BitVec 32) : State M :=
  if waited = SysArch.timeout then s.ret tid .timeout
  else if s.mbox.head = -1 then
    { s with panicked := some "lwip: sys_arch_mbox_fetch: no message" }
  else
    let msg := s.mbox.msg s.mbox.head.toNat
    let s' := { s with mbox := s.mbox.drop }
    (s'.semSignal .freeMsg).ret tid (.fetched waited msg)

/-- `sys_arch_sem_wait` returns `waited` to its caller. -/
def finish (s : State M) (tid : Nat) (op : Op M) (waited : BitVec 32) : State M :=
  match op with
  | .post msg => s.tryPost tid msg true
  | .tryPost msg => s.tryPost tid msg false
  | .fetch _ => s.fetch tid waited

/-- One iteration of the loop of `sys_arch_sem_wait`, up to the loop of `thread_wait`;
    the clock is read twice. -/
def waitStep (s : State M) (tid : Nat) (w : Wait M) (a t : BitVec 32) : State M :=
  let i := w.op.sem
  let e := s.sems i
  let tmMsec := w.op.tmMsec
  if tmMsec = 0 ∨ w.waited < tmMsec then
    if 0 < e.counter then
      (s.setSem i { e with counter := e.counter - 1 }).finish tid w.op w.waited
    else if tmMsec = nowait then s.finish tid w.op timeout
    else
      let sleepUntil := if tmMsec ≠ 0 then a + (tmMsec - w.waited) else 0xffffffff
      let e' := { e with waiters := 1 }
      (s.setSem i e').setThread tid ⟨.wait w ⟨a, sleepUntil, e'.v, t⟩ t, some i, false⟩
  else s.finish tid w.op timeout

/-- One test of the loop of `thread_wait`. When the loop ends, `sys_arch_sem_wait` looks
    at the generation and reads the clock. -/
def sleepStep (s : State M) (tid : Nat) (w : Wait M) (sl : Sleep) (p b : BitVec 32) : State M :=
  let e := s.sems w.op.sem
  if p < sl.sleepUntil ∧ ¬p < sl.s ∧ e.v = sl.curV ∧ (s.thread tid).tcWakeup = false then
    { s.setThread tid { s.thread tid with pc := .yielded w sl } with cur := none }
  else if w.gen ≠ e.gen then s.finish tid w.op timeout
  else s.setThread tid ⟨.loop { w with waited := w.waited + (b - sl.a) }, none, false⟩

end State

/-- A thread calls, the current thread goes on, or a thread comes back from
    `thread_yield`; with what it reads from the clock. -/
inductive Event (M : Type)
  | call (tid : Nat) (op : Op M)
  | go (now next : BitVec 32)
  | resume (tid : Nat) (p : BitVec 32)

def step (s : State M) (ev : Event M) : Option (State M) :=
  if s.panicked.isSome then none
  else
    match ev, s.cur with
    | .call tid op, none =>
      match (s.thread tid).pc with
      | .idle =>
        let w : Wait M := ⟨op, (s.sems op.sem).gen, 0⟩
        some { s.setThread tid ⟨.loop w, none, false⟩ with cur := some tid }
      | _ => none
    | .go now next, some tid =>
      match (s.thread tid).pc with
      | .loop w => some (s.waitStep tid w now next)
      | .wait w sl p => some (s.sleepStep tid w sl p now)
      | _ => none
    | .resume tid p, none =>
      match (s.thread tid).pc with
      | .yielded w sl =>
        some { s.setThread tid { s.thread tid with pc := .wait w sl p } with cur := some tid }
      | _ => none
    | _, _ => none

/-- A mailbox from `sys_mbox_new`, with what was in its slots and in the entries of its
    semaphores before. -/
def start (msg : Nat → M) (queued free : Sem) : State M where
  mbox := ⟨-1, 0, msg⟩
  sems
    | .queuedMsg => sysSemNew queued 0
    | .freeMsg => sysSemNew free 32
  thread := fun _ => ⟨.idle, none, false⟩
  cur := none
  posted := []
  returned := []
  panicked := none

end Jos.SysArch
