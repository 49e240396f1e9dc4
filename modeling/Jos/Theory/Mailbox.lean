import Jos.Core.SysArch
import Jos.Lib.Flow
import Jos.Lib.Ring
import Mathlib.Tactic.Linarith

/-!
# The Mailboxes Are Queues

The slots of a mailbox are a ring, and its two semaphores count the slots that can be
filled and the messages that can be taken. The counts are bounds and no more: a thread
that has waited for exactly `SYS_ARCH_TIMEOUT` milliseconds has taken from the counter
and leaves without its message. They are enough for a post never to find the ring
full, and for a fetch never to find it empty.

Nothing is said of who runs when: the counter is tested and decremented, and the slots
are changed, without a `thread_yield` in between, so the bounds hold at every step of
every thread.

## Main definitions

* `Mbox.queue`: The messages in the mailbox.
* `Holds`: The ring, its ends, and the bounds that the counters give.
* `Calm`: No bad end so far, and no wait that a freed semaphore would cut short.

## Theorems

* `Holds.put`, `Holds.drop`: A post and a fetch.
* `Inv.step`: One step of one thread.
* `mailbox_fifo`: Every run.
-/

open Lib.Ring

namespace Jos.SysArch

variable {M : Type} {i j : SemId}

/-- The messages from `head` to `nextq`. -/
def Mbox.queue (b : Mbox M) : List M :=
  if b.head = -1 then []
  else window b.msg mboxslots b.head.toNat (((b.nextq - b.head - 1) % mboxslots).toNat + 1)

theorem tmod_mboxslots (n : Nat) :
    (((n % 32 : Nat) : Int) + 1).tmod mboxslots = (((n + 1) % 32 : Nat) : Int) := by
  rw [← Int.natCast_succ, mboxslots, ← Int.ofNat_tmod, Nat.succ_eq_add_one, Nat.mod_add_mod]

/-- The `k` messages from position `r` on are in the mailbox. -/
structure Ends (b : Mbox M) (r k : Nat) : Prop where
  head : b.head = if k = 0 then -1 else ((r % 32 : Nat) : Int)
  nextq : b.nextq = (((r + k) % 32 : Nat) : Int)

namespace Ends

variable {b : Mbox M} {r k : Nat}

theorem head_pos (h : Ends b r k) (hk : 0 < k) : b.head = ((r % 32 : Nat) : Int) := by
  rw [h.head, if_neg (by omega)]

/-- With a free slot the ends differ. -/
theorem nextq_ne_head (h : Ends b r k) (hk : k < 32) : b.nextq ≠ b.head := by
  rw [h.nextq]
  by_cases hz : k = 0
  · rw [h.head, if_pos hz]
    omega
  · rw [h.head_pos (by omega)]
    have hne := mod_ne 32 r 0 k (by omega) (by omega)
    rw [Nat.add_zero] at hne
    omega

theorem put (h : Ends b r k) (m : M) : Ends (b.put m) r (k + 1) := by
  constructor
  · rw [if_neg (Nat.succ_ne_zero k)]
    unfold Mbox.put
    by_cases hz : k = 0
    · -- the first message is also the next to be taken
      subst hz
      rw [if_pos (by rw [h.head, if_pos rfl]), h.nextq, Nat.add_zero]
    · rw [if_neg (by rw [h.head_pos (by omega)]; omega), h.head_pos (by omega)]
  · unfold Mbox.put
    dsimp only
    rw [h.nextq, tmod_mboxslots, Nat.add_assoc]

theorem drop (h : Ends b r (k + 1)) (hk : k < 32) : Ends b.drop (r + 1) k := by
  have hhead : (b.head + 1).tmod mboxslots = (((r + 1) % 32 : Nat) : Int) := by
    rw [h.head_pos (Nat.succ_pos k), tmod_mboxslots]
  have hnextq : b.nextq = (((r + 1 + k) % 32 : Nat) : Int) := by
    rw [h.nextq, Nat.add_assoc, Nat.add_comm 1 k]
  refine ⟨?_, hnextq⟩
  unfold Mbox.drop
  dsimp only
  rw [hhead, hnextq]
  by_cases hz : k = 0
  · rw [if_pos hz, if_pos (by rw [hz, Nat.add_zero])]
  · have hne := mod_ne 32 (r + 1) 0 k (by omega) (by omega)
    rw [Nat.add_zero] at hne
    rw [if_neg hz, if_neg (by omega)]

/-- The queue is read off the ends. -/
theorem queue_eq (h : Ends b r k) (hk : k ≤ 32) : b.queue = window b.msg 32 r k := by
  unfold Mbox.queue
  by_cases hz : k = 0
  · rw [if_pos (by rw [h.head, if_pos hz]), hz, window_zero]
  · have hlen : ((b.nextq - b.head - 1) % mboxslots).toNat + 1 = k := by
      rw [h.nextq, h.head_pos (by omega), mboxslots]
      omega
    rw [hlen, h.head_pos (by omega), if_neg (by omega), Int.toNat_natCast, mboxslots, window_mod]

end Ends

/-- What was posted is what was fetched and what is in the mailbox. Its queue is at
    least as long as `q`, the count of `queued_msg`, and there is room for as many more as
    `f`, the count of `free_msg`. -/
def Holds (b : Mbox M) (q f : Nat) (posted fetched : List M) : Prop :=
  ∃ r k, Ends b r k ∧ Carries b.msg 32 r k posted fetched ∧ q ≤ k ∧ f + k ≤ 32

namespace Holds

variable {b : Mbox M} {q f : Nat} {posted fetched : List M}

theorem bounds (h : Holds b q f posted fetched) : q ≤ 32 ∧ f ≤ 32 := by
  rcases h with ⟨r, k, -, -, hq, hf⟩
  omega

/-- A post that got through the semaphore finds a free slot. -/
theorem put (h : Holds b q (f + 1) posted fetched) (m : M) :
    b.nextq ≠ b.head ∧ Holds (b.put m) (q + 1) f (posted ++ [m]) fetched := by
  rcases h with ⟨r, k, hends, hring, hq, hf⟩
  refine ⟨hends.nextq_ne_head (by omega), r, k + 1, hends.put m, ?_, by omega, by omega⟩
  unfold Mbox.put
  dsimp only
  rw [hends.nextq, Int.toNat_natCast]
  exact hring.push m (by omega)

/-- A fetch that got through the semaphore finds a message. -/
theorem drop (h : Holds b (q + 1) f posted fetched) :
    b.head ≠ -1 ∧ Holds b.drop q (f + 1) posted (fetched ++ [b.msg b.head.toNat]) := by
  rcases h with ⟨r, k, hends, hring, hq, hf⟩
  obtain ⟨j, rfl⟩ : ∃ j, k = j + 1 := ⟨k - 1, by omega⟩
  have hhead := hends.head_pos (Nat.succ_pos j)
  refine ⟨by rw [hhead]; omega, r + 1, j, hends.drop (by omega), ?_, by omega, by omega⟩
  rw [hhead, Int.toNat_natCast]
  exact hring.pop

/-- A fetch that leaves after its semaphore. -/
theorem forget (h : Holds b (q + 1) f posted fetched) : Holds b q f posted fetched := by
  rcases h with ⟨r, k, hends, hring, hq, hf⟩
  exact ⟨r, k, hends, hring, by omega, hf⟩

theorem posted_eq (h : Holds b q f posted fetched) :
    posted = fetched ++ b.queue ∧ b.queue.length ≤ mboxslots := by
  rcases h with ⟨r, k, hends, hring, -⟩
  rw [hends.queue_eq hring.fits]
  exact ⟨hring.carried, by rw [length_window]; exact hring.fits⟩

end Holds

variable (s : State M)

theorem sems_setSem_self (i : SemId) (e : Sem) : (s.setSem i e).sems i = e :=
  Function.update_self _ _ _

theorem sems_setSem_of_ne (h : j ≠ i) (e : Sem) : (s.setSem i e).sems j = s.sems j :=
  Function.update_of_ne h _ _

theorem thread_setThread_self (tid : Nat) (t : Thread M) :
    (s.setThread tid t).thread tid = t :=
  Function.update_self _ _ _

theorem thread_setThread_of_ne {tid u : Nat} (h : u ≠ tid) (t : Thread M) :
    (s.setThread tid t).thread u = s.thread u :=
  Function.update_of_ne h _ _

/-- The wait that a thread is in. -/
def Pc.wait? : Pc M → Option (Wait M)
  | .idle => none
  | .loop w => some w
  | .wait w _ _ => some w
  | .yielded w _ => some w

/-- No call has ended badly, and every wait is for the semaphore as it still is. -/
structure Calm (s : State M) : Prop where
  gens : ∀ tid w, (s.thread tid).pc.wait? = some w → w.gen = (s.sems w.op.sem).gen
  clean : s.panicked = none
  noMem : Return.errMem ∉ s.returned

namespace Calm

variable {s : State M} (h : Calm s)
include h

theorem setSem (e : Sem) (hgen : e.gen = (s.sems i).gen) : Calm (s.setSem i e) := by
  refine ⟨?_, h.clean, h.noMem⟩
  intro tid w hw
  rw [h.gens tid w hw]
  by_cases hi : w.op.sem = i
  · rw [hi, sems_setSem_self, hgen]
  · rw [sems_setSem_of_ne s hi]

theorem setThread (tid : Nat) (t : Thread M)
    (ht : ∀ w, t.pc.wait? = some w → w.gen = (s.sems w.op.sem).gen) :
    Calm (s.setThread tid t) := by
  refine ⟨?_, h.clean, h.noMem⟩
  intro u w hw
  by_cases hu : u = tid
  · rw [hu, thread_setThread_self] at hw
    exact ht w hw
  · rw [thread_setThread_of_ne s hu] at hw
    exact h.gens u w hw

theorem setCur (cur : Option Nat) : Calm { s with cur := cur } :=
  ⟨h.gens, h.clean, h.noMem⟩

theorem ret (tid : Nat) {r : Return M} (hr : r ≠ .errMem) : Calm (s.ret tid r) := by
  have hidle := h.setThread tid ⟨.idle, none, false⟩ (fun w hw => by cases hw)
  refine ⟨hidle.gens, h.clean, ?_⟩
  intro hmem
  rcases List.mem_append.1 hmem with hold | hnew
  · exact h.noMem hold
  · exact hr (List.mem_singleton.1 hnew).symm

theorem threadWakeup (i : SemId) : Calm (s.threadWakeup i) := by
  refine ⟨?_, h.clean, h.noMem⟩
  intro tid w hw
  refine h.gens tid w ?_
  unfold State.threadWakeup at hw
  dsimp only at hw
  split at hw <;> exact hw

theorem semSignal (i : SemId) : Calm (s.semSignal i) := by
  unfold State.semSignal
  dsimp only
  split
  · refine (h.setSem _ ?_).threadWakeup i
    rfl
  · refine h.setSem _ ?_
    rfl

end Calm

theorem counter_semSignal (i : SemId) :
    ((s.semSignal i).sems i).counter = (s.sems i).counter + 1 := by
  unfold State.semSignal
  dsimp only
  split <;> exact congrArg Sem.counter (sems_setSem_self s i _)

theorem sems_semSignal (h : j ≠ i) : (s.semSignal i).sems j = s.sems j := by
  unfold State.semSignal
  dsimp only
  split <;> exact sems_setSem_of_ne s h _

theorem semSignal_frame (i : SemId) : (s.semSignal i).mbox = s.mbox ∧
    (s.semSignal i).posted = s.posted ∧ (s.semSignal i).returned = s.returned := by
  unfold State.semSignal State.threadWakeup State.setSem
  dsimp only
  split <;> exact ⟨rfl, rfl, rfl⟩

theorem toNat_succ {c : BitVec 16} (h : c.toNat ≤ 32) : (c + 1).toNat = c.toNat + 1 := by
  rw [BitVec.toNat_add, show (1 : BitVec 16).toNat = 1 from rfl]
  omega

theorem toNat_pred (c : BitVec 16) (h : 0 < c) : (c - 1).toNat + 1 = c.toNat := by
  have hpos : 0 < c.toNat := h
  bv_omega

/-- The mailbox holds what it should, and all is calm. -/
structure Inv (s : State M) : Prop where
  calm : Calm s
  holds : Holds s.mbox (s.sems .queuedMsg).counter.toNat (s.sems .freeMsg).counter.toNat
    s.posted s.fetched

namespace Inv

variable {s : State M} {op : Op M} {w : Wait M}

theorem fetched_ret (s : State M) (tid : Nat) (r : Return M) :
    (s.ret tid r).fetched = s.fetched ++ r.msg?.toList := by
  unfold State.fetched State.ret
  rw [List.filterMap_append]
  cases hr : r.msg? with
  | none => rw [List.filterMap_cons_none hr]; rfl
  | some m => rw [List.filterMap_cons_some hr]; rfl

theorem ret (h : Inv s) (tid : Nat) {r : Return M} (hr : r ≠ .errMem) (hnone : r.msg? = none) :
    Inv (s.ret tid r) := by
  refine ⟨h.calm.ret tid hr, ?_⟩
  rw [fetched_ret, hnone, Option.toList_none, List.append_nil]
  exact h.holds

/-- A post after its wait. -/
theorem tryPost (hc : Calm s) (h : Holds s.mbox (s.sems .queuedMsg).counter.toNat
    ((s.sems .freeMsg).counter.toNat + 1) s.posted s.fetched) (tid : Nat) (msg : M)
    (strict : Bool) : Inv (s.tryPost tid msg strict) := by
  have hput := h.put msg
  unfold State.tryPost
  rw [if_neg hput.1]
  dsimp only
  have hcalm : Calm { s with mbox := s.mbox.put msg, posted := s.posted ++ [msg] } :=
    ⟨hc.gens, hc.clean, hc.noMem⟩
  refine Inv.ret ⟨hcalm.semSignal .queuedMsg, ?_⟩ tid (fun he => by cases he) rfl
  rcases semSignal_frame { s with mbox := s.mbox.put msg, posted := s.posted ++ [msg] }
    .queuedMsg with ⟨hmbox, hposted, hreturned⟩
  unfold State.fetched
  rw [hmbox, hposted, hreturned, counter_semSignal, toNat_succ h.bounds.1,
    sems_semSignal _ (by decide)]
  exact hput.2

/-- A fetch after its wait. -/
theorem fetch (hc : Calm s) (h : Holds s.mbox ((s.sems .queuedMsg).counter.toNat + 1)
    (s.sems .freeMsg).counter.toNat s.posted s.fetched) (tid : Nat) (waited : BitVec 32) :
    Inv (s.fetch tid waited) := by
  unfold State.fetch
  by_cases hw : waited = timeout
  · rw [if_pos hw]
    exact Inv.ret ⟨hc, h.forget⟩ tid (fun he => by cases he) rfl
  · have hdrop := h.drop
    rw [if_neg hw, if_neg hdrop.1]
    dsimp only
    have hcalm : Calm { s with mbox := s.mbox.drop } := ⟨hc.gens, hc.clean, hc.noMem⟩
    refine ⟨(hcalm.semSignal .freeMsg).ret tid (fun he => by cases he), ?_⟩
    rcases semSignal_frame { s with mbox := s.mbox.drop } .freeMsg with
      ⟨hmbox, hposted, hreturned⟩
    rw [fetched_ret]
    unfold State.ret State.fetched
    dsimp only
    rw [hmbox, hposted, hreturned, counter_semSignal, toNat_succ h.bounds.2,
      sems_semSignal _ (by decide)]
    exact hdrop.2

variable (h : Inv s)
include h

/-- The semaphore is taken, and the call goes on with its slot. -/
theorem acquire (tid : Nat) (waited : BitVec 32) (hpos : 0 < (s.sems op.sem).counter) :
    Inv ((s.setSem op.sem { s.sems op.sem with counter := (s.sems op.sem).counter - 1 }).finish
      tid op waited) := by
  have hcalm := h.calm.setSem
    { s.sems op.sem with counter := (s.sems op.sem).counter - 1 } rfl
  have hholds := h.holds
  cases op with
  | post msg =>
    refine tryPost hcalm ?_ tid msg true
    rwa [← toNat_pred (s.sems .freeMsg).counter hpos] at hholds
  | tryPost msg =>
    refine tryPost hcalm ?_ tid msg false
    rwa [← toNat_pred (s.sems .freeMsg).counter hpos] at hholds
  | fetch tmMsec =>
    refine fetch hcalm ?_ tid waited
    rwa [← toNat_pred (s.sems .queuedMsg).counter hpos] at hholds

/-- A wait that gives up: only a fetch does. -/
theorem giveUp (tid : Nat) (htm : op.tmMsec ≠ 0) : Inv (s.finish tid op timeout) := by
  cases op with
  | post msg => exact absurd rfl htm
  | tryPost msg => exact absurd rfl htm
  | fetch tmMsec =>
    unfold State.finish State.fetch
    dsimp only
    rw [if_pos rfl]
    exact h.ret tid (fun he => by cases he) rfl

/-- That somebody waits changes no counter. -/
theorem setWaiters (i : SemId) (n : BitVec 16) :
    Inv (s.setSem i { s.sems i with waiters := n }) := by
  have hcounter : ∀ j, ((s.setSem i { s.sems i with waiters := n }).sems j).counter =
      (s.sems j).counter := by
    intro j
    by_cases hj : j = i
    · rw [hj, sems_setSem_self]
    · rw [sems_setSem_of_ne s hj]
  refine ⟨?_, ?_⟩
  · refine h.calm.setSem _ ?_
    rfl
  · have hholds := h.holds
    rwa [← hcounter .queuedMsg, ← hcounter .freeMsg] at hholds

theorem waitStep (tid : Nat) (hgen : w.gen = (s.sems w.op.sem).gen) (a t : BitVec 32) :
    Inv (s.waitStep tid w a t) := by
  unfold State.waitStep
  dsimp only
  split
  · split
    · next hpos => exact h.acquire tid w.waited hpos
    · split
      · next hnow =>
        refine h.giveUp tid ?_
        rw [hnow]
        decide
      · -- the thread goes to sleep: no counter changes
        have hsleep := h.setWaiters w.op.sem 1
        refine ⟨hsleep.calm.setThread tid _ ?_, hsleep.holds⟩
        intro w' hw'
        rw [← Option.some.inj hw', hgen, sems_setSem_self]
  · next htest =>
    refine h.giveUp tid ?_
    intro hz
    exact htest (.inl hz)

theorem sleepStep (tid : Nat) (hgen : w.gen = (s.sems w.op.sem).gen) (sl : Sleep)
    (p b : BitVec 32) : Inv (s.sleepStep tid w sl p b) := by
  have hwait : ∀ t : Thread M, (∀ w', t.pc.wait? = some w' → w'.gen = w.gen ∧ w'.op = w.op) →
      Inv (s.setThread tid t) := by
    intro t ht
    refine ⟨h.calm.setThread tid t ?_, h.holds⟩
    intro w' hw'
    rw [(ht w' hw').1, (ht w' hw').2, hgen]
  unfold State.sleepStep
  dsimp only
  split
  · have hinv := hwait { s.thread tid with pc := .yielded w sl } fun w' hw' => by
      rw [← Option.some.inj hw']
      exact ⟨rfl, rfl⟩
    exact ⟨hinv.calm.setCur none, hinv.holds⟩
  · -- the semaphore is still the same one
    rw [if_neg (not_not_intro hgen)]
    refine hwait _ fun w' hw' => ?_
    rw [← Option.some.inj hw']
    exact ⟨rfl, rfl⟩

theorem step {ev : Event M} {s' : State M} (hs : SysArch.step s ev = some s') :
    Inv s' := by
  unfold SysArch.step at hs
  -- nothing has panicked so far
  rw [if_neg (by rw [h.calm.clean]; decide)] at hs
  cases ev with
  | call tid op =>
    cases hcur : s.cur with
    | some u => simp only [hcur, reduceCtorEq] at hs
    | none =>
      simp only [hcur] at hs
      split at hs
      · cases hs
        refine ⟨(h.calm.setThread tid _ ?_).setCur _, h.holds⟩
        intro w hw
        rw [← Option.some.inj hw]
      · cases hs
  | go now next =>
    cases hcur : s.cur with
    | none => simp only [hcur, reduceCtorEq] at hs
    | some tid =>
      simp only [hcur] at hs
      split at hs
      · next w hpc =>
        cases hs
        exact h.waitStep tid (h.calm.gens tid w (by rw [hpc]; rfl)) now next
      · next w sl p hpc =>
        cases hs
        exact h.sleepStep tid (h.calm.gens tid w (by rw [hpc]; rfl)) sl p now
      · cases hs
  | resume tid p =>
    cases hcur : s.cur with
    | some u => simp only [hcur, reduceCtorEq] at hs
    | none =>
      simp only [hcur] at hs
      split at hs
      · next w sl hpc =>
        cases hs
        refine ⟨(h.calm.setThread tid _ ?_).setCur _, h.holds⟩
        intro w' hw'
        rw [← Option.some.inj hw']
        exact h.calm.gens tid w (by rw [hpc]; rfl)
      · cases hs

end Inv

theorem inv_start (msg : Nat → M) (queued free : Sem) : Inv (start msg queued free) := by
  have hcalm : Calm (start msg queued free) := by
    refine ⟨?_, rfl, List.not_mem_nil⟩
    intro tid w hw
    cases hw
  exact ⟨hcalm, 0, 0, ⟨rfl, rfl⟩, ⟨by omega, rfl⟩, le_rfl, le_rfl⟩

/-- However the threads run, and however long they wait: what the fetches return is, in
    order, the beginning of what was posted, and the rest is still in the mailbox. No
    post finds the ring full and no fetch finds it empty. -/
theorem mailbox_fifo (msg : Nat → M) (queued free : Sem) (s : State M)
    (hrun : Lib.Run step (fun _ _ => True) (start msg queued free) s) :
    s.posted = s.fetched ++ s.mbox.queue ∧ s.mbox.queue.length ≤ mboxslots ∧
    s.panicked = none ∧ Return.errMem ∉ s.returned := by
  have hinv : Inv s := by
    refine Lib.Run.invariant Inv ?_ hrun (inv_start msg queued free)
    intro t ev t' ht _ hstep
    exact ht.step hstep
  have hposted := hinv.holds.posted_eq
  exact ⟨hposted.1, hposted.2, hinv.calm.clean, hinv.calm.noMem⟩

/-- One thread goes to sleep in a fetch, and another one posts. -/
theorem mailbox_fifo_wakeup : ∃ s : State Nat,
    Lib.Run step (fun _ _ => True) (start (fun _ => 0) ⟨0, 0, 0⟩ ⟨0, 0, 0⟩) s ∧
    s.fetched = [7] ∧ s.posted = s.fetched ++ s.mbox.queue := by
  have heval : ((Lib.runEvents step (start (fun _ => 0) ⟨0, 0, 0⟩ ⟨0, 0, 0⟩)
      [.call 0 (.fetch 0), .go 1 1, .go 1 1, .call 1 (.post 7), .go 2 2, .resume 0 3, .go 3 3,
        .go 3 3]).map State.fetched) = some [7] := by decide
  rcases Option.map_eq_some_iff.1 heval with ⟨s, hs, hfetched⟩
  have hrun := Lib.Run.of_runEvents _ _ hs
  exact ⟨s, hrun, hfetched, (mailbox_fifo _ _ _ s hrun).1⟩

end Jos.SysArch
