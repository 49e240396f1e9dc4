import Jos.Core.Pipe
import Jos.Lib.Flow
import Jos.Lib.Ring

/-!
# Bytes Through a Pipe

The reader and the writer of a pipe share two positions and a ring of bytes.
Whatever the order of their loads and stores, what the reads return is the
beginning of what the writes have stored, as long as the positions do not
overflow.

A byte is in one of four places: returned or about to be, in the ring, or
stored by the writer that has not moved its position on yet.

## Main definitions

* `State.received`, `State.inHand`: The bytes at both ends of the ring.
* `ReadCall.Ok`, `WriteCall.Ok`: What each side knows of the other.
* `Inv`: The invariant.
* `State.Sound`: The ring is used as it should be.
* `Storing`, `Taking`: What a call has done since it started.

## Theorems

* `readStep_cases`, `writeStep_cases`: What a step can do.
* `step_stores`: When a byte of the ring changes.
* `Inv.readStep`, `Inv.writeStep`: One access.
* `fifo`: All runs.
* `sound_of_run`, `old_not_sound`: The positions before and after they overflow.
* `transfer_counts`: What the calls return.
-/

namespace Jos.Pipe

open Lib (Run checkEvents runEvents)
open List (append_nil length_append length_nil length_singleton replicate)
open BitVec (ofNat toNat_add toNat_ofNat)
open Lib.Ring
open Option (map_eq_some_iff map_some some.inj some.injEq)

variable {pos rpos : BitVec 32} {p' : Page} {s' s : State} {ev : Event} {c : ReadCall}

/-! ## Positions as numbers -/

theorem slot_eq (h : pos.toNat < 2 ^ 31) : slot pos = pos.toNat % 32 := by
  unfold slot pipebufsiz
  rw [BitVec.srem_eq, BitVec.msb_eq_false_iff_two_mul_lt.2 (by omega),
    show (32 : BitVec 32).msb = false from rfl]
  simp only [BitVec.toNat_umod]
  rfl

theorem isFull_iff {wpos : BitVec 32} (hw : wpos.toNat < 2 ^ 31) (hr : rpos.toNat < 2 ^ 31) :
    isFull wpos rpos = true ↔ rpos.toNat + 32 ≤ wpos.toNat := by
  unfold isFull
  rw [BitVec.ule_iff_le, BitVec.le_def, toNat_add,
    BitVec.signExtend_eq_setWidth_of_msb_false (BitVec.msb_eq_false_iff_two_mul_lt.2 (by omega)),
    BitVec.signExtend_eq_setWidth_of_msb_false (BitVec.msb_eq_false_iff_two_mul_lt.2 (by omega)),
    BitVec.toNat_setWidth, BitVec.toNat_setWidth, toNat_ofNat]
  omega

theorem toNat_add_one (h : pos.toNat < 2 ^ 31) :
    (pos + 1).toNat = pos.toNat + 1 := by
  rw [toNat_add, show (1 : BitVec 32).toNat = 1 from rfl]
  omega

/-! ## The ring -/

/-- The positions count the bytes that went into the ring and those that left. -/
structure Flows (p : Page) (published received : List (BitVec 8)) : Prop where
  rpos : p.pRpos.toNat = received.length
  wpos : p.pWpos.toNat = published.length
  small : published.length < 2 ^ 31
  carries : Carries p.pBuf 32 received.length (published.length - received.length) published
    received

namespace Flows

variable {p : Page} {published received : List (BitVec 8)}

section

variable (h : Flows p published received)

include h

theorem bounds :
    p.pRpos.toNat ≤ p.pWpos.toNat ∧ p.pWpos.toNat ≤ p.pRpos.toNat + 32 ∧
      p.pWpos.toNat < 2 ^ 31 := by
  have hle := h.carries.isPrefix.length_le
  have hfits := h.carries.fits
  have hr := h.rpos
  have hw := h.wpos
  have hs := h.small
  omega

/-- The byte at the read position leaves the ring. -/
theorem take (hlt : p.pRpos.toNat < p.pWpos.toNat) :
    Flows { p with pRpos := p.pRpos + 1 } published
      (received ++ [p.pBuf (p.pRpos.toNat % 32)]) := by
  have hb := h.bounds
  have hr := h.rpos
  have hw := h.wpos
  have hlen : (received ++ [p.pBuf (p.pRpos.toNat % 32)]).length = received.length + 1 := by
    rw [length_append, length_singleton]
  refine ⟨?_, hw, h.small, ?_⟩
  · rw [hlen, toNat_add_one (by omega), hr]
  · have hcarry := h.carries
    rw [show published.length - received.length = (published.length - (received.length + 1)) + 1 by
      omega] at hcarry
    rw [hlen, hr]
    exact hcarry.pop

/-- A byte is stored at the write position, which is free. -/
theorem put (byte : BitVec 8) (hroom : p.pWpos.toNat < p.pRpos.toNat + 32) :
    Flows { p with pBuf := Function.update p.pBuf (p.pWpos.toNat % 32) byte } published
      received := by
  have hb := h.bounds
  have hr := h.rpos
  have hw := h.wpos
  refine ⟨hr, hw, h.small, ?_⟩
  rw [show p.pWpos.toNat % 32 = (received.length + (published.length - received.length)) % 32 by
    rw [hw, Nat.add_sub_cancel' (by omega)]]
  exact h.carries.scribble byte le_rfl (by omega)

/-- The write position moves on. -/
theorem publish (hroom : p.pWpos.toNat < p.pRpos.toNat + 32)
    (hsmall : published.length + 1 < 2 ^ 31) :
    Flows { p with pWpos := p.pWpos + 1 } (published ++ [p.pBuf (p.pWpos.toNat % 32)])
      received := by
  have hb := h.bounds
  have hr := h.rpos
  have hw := h.wpos
  have hlen : (published ++ [p.pBuf (p.pWpos.toNat % 32)]).length = published.length + 1 := by
    rw [length_append, length_singleton]
  refine ⟨hr, ?_, by rwa [hlen], ?_⟩
  · rw [hlen, toNat_add_one (by omega), hw]
  · have hcarry := h.carries.publish (by omega)
    rw [Nat.add_sub_cancel' (by omega)] at hcarry
    rw [hlen, hw, show published.length + 1 - received.length =
      published.length - received.length + 1 by omega]
    exact hcarry

end

end Flows

/-! ## What the sides know -/

/-- The byte that a call of `devpipe_write` is about to store or has stored. -/
def WriteCall.byte (c : WriteCall) : BitVec 8 := c.buf.getD c.i 0

/-- What the reader knows: its own position, and that a byte it has seen in the
    ring stays there. -/
def ReadCall.Ok (c : ReadCall) (p : Page) : Prop :=
  match c.pc with
  | .test | .empty => True
  | .compare rpos => rpos = p.pRpos
  | .index => p.pRpos.toNat < p.pWpos.toNat
  | .take rpos => rpos = p.pRpos ∧ p.pRpos.toNat < p.pWpos.toNat
  | .bump byte => byte = p.pBuf (p.pRpos.toNat % 32) ∧ p.pRpos.toNat < p.pWpos.toNat
  | .advance byte rpos =>
    rpos = p.pRpos ∧ byte = p.pBuf (p.pRpos.toNat % 32) ∧ p.pRpos.toNat < p.pWpos.toNat

/-- What the writer knows: its own position, and that room in the ring stays. -/
def WriteCall.Ok (c : WriteCall) (p : Page) : Prop :=
  match c.pc with
  | .test | .full => True
  | .compare wpos => wpos = p.pWpos
  | .index => p.pWpos.toNat < p.pRpos.toNat + 32
  | .put wpos => wpos = p.pWpos ∧ p.pWpos.toNat < p.pRpos.toNat + 32
  | .bump => p.pBuf (p.pWpos.toNat % 32) = c.byte ∧ p.pWpos.toNat < p.pRpos.toNat + 32
  | .advance wpos => wpos = p.pWpos ∧ p.pBuf (p.pWpos.toNat % 32) = c.byte ∧
      p.pWpos.toNat < p.pRpos.toNat + 32

/-- What the writer does takes nothing from what the reader knows. -/
theorem ReadCall.Ok.later {p : Page} (h : c.Ok p) (hr : p'.pRpos = p.pRpos)
    (hw : p.pWpos.toNat ≤ p'.pWpos.toNat) (hbuf : p.pRpos.toNat < p.pWpos.toNat →
      p'.pBuf (p.pRpos.toNat % 32) = p.pBuf (p.pRpos.toNat % 32)) : c.Ok p' := by
  unfold ReadCall.Ok at h ⊢
  rw [hr]
  cases hpc : c.pc with
  | test => trivial
  | empty => trivial
  | compare rpos => rw [hpc] at h; exact h
  | index => rw [hpc] at h; exact Nat.lt_of_lt_of_le h hw
  | take rpos => rw [hpc] at h; exact ⟨h.1, Nat.lt_of_lt_of_le h.2 hw⟩
  | bump byte =>
    rw [hpc] at h
    exact ⟨hbuf h.2 ▸ h.1, Nat.lt_of_lt_of_le h.2 hw⟩
  | advance byte rpos =>
    rw [hpc] at h
    exact ⟨h.1, hbuf h.2.2 ▸ h.2.1, Nat.lt_of_lt_of_le h.2.2 hw⟩

/-- The reader only makes more room. -/
theorem WriteCall.Ok.later {c : WriteCall} {p : Page} (h : c.Ok p) (hw : p'.pWpos = p.pWpos)
    (hr : p.pRpos.toNat ≤ p'.pRpos.toNat) (hbuf : p'.pBuf = p.pBuf) : c.Ok p' := by
  have hroom : p.pWpos.toNat < p.pRpos.toNat + 32 → p.pWpos.toNat < p'.pRpos.toNat + 32 := by omega
  unfold WriteCall.Ok at h ⊢
  rw [hw, hbuf]
  cases hpc : c.pc with
  | test => trivial
  | full => trivial
  | compare wpos => rw [hpc] at h; exact h
  | index => rw [hpc] at h; exact hroom h
  | put wpos => rw [hpc] at h; exact ⟨h.1, hroom h.2⟩
  | bump => rw [hpc] at h; exact ⟨h.1, hroom h.2⟩
  | advance wpos => rw [hpc] at h; exact ⟨h.1, h.2.1, hroom h.2.2⟩

/-! ## The invariant -/

/-- The bytes a call of `devpipe_read` has taken. -/
def taken : Option ReadCall → List (BitVec 8)
  | some c => c.buf
  | none => []

/-- The byte a call of `devpipe_write` has stored without counting it yet. -/
def inHand : Option WriteCall → List (BitVec 8)
  | some c =>
    match c.pc with
    | .bump | .advance _ => [c.byte]
    | _ => []
  | none => []

/-- What has left the ring. -/
def State.received (s : State) : List (BitVec 8) := s.reads.flatten ++ taken s.reader

/-- A step of a reader: the call returns, goes on, or counts the byte that it has taken. -/
theorem readStep_cases (s : State) (c : ReadCall) (closed : Bool) :
    (s.readStep c closed = s.readReturn c ∧ c.returns closed = some c.buf.length) ∨
    (∃ pc, s.readStep c closed = s.setReader { c with pc := pc } ∧ c.returns closed = none ∧
      ∀ byte pos, pc = .advance byte pos → pos = s.pipe.pRpos) ∨
    ∃ byte pos, c.pc = .advance byte pos ∧ c.returns closed = none ∧
      s.readStep c closed = { s with
        pipe := { s.pipe with pRpos := pos + 1 }
        reader := some { c with buf := c.buf ++ [byte], pc := .test } } := by
  unfold State.readStep ReadCall.returns
  cases hpc : c.pc with
  | test =>
    dsimp only
    split
    · exact .inr (.inl ⟨_, rfl, rfl, fun _ _ he => by cases he⟩)
    · exact .inl ⟨rfl, rfl⟩
  | compare rpos =>
    dsimp only
    split <;> exact .inr (.inl ⟨_, rfl, rfl, fun _ _ he => by cases he⟩)
  | empty =>
    by_cases hsome : 0 < c.buf.length
    · simp only [hsome, true_or, if_true]
      exact .inl ⟨trivial, trivial⟩
    · have hzero : c.buf.length = 0 := Nat.eq_zero_of_not_pos hsome
      cases closed with
      | true => simp [hzero]
      | false =>
        simp only [hsome, false_or, if_false, Bool.false_eq_true]
        exact .inr (.inl ⟨_, rfl, trivial, fun _ _ he => by cases he⟩)
  | index => exact .inr (.inl ⟨_, rfl, rfl, fun _ _ he => by cases he⟩)
  | take rpos => exact .inr (.inl ⟨_, rfl, rfl, fun _ _ he => by cases he⟩)
  | bump byte =>
    refine .inr (.inl ⟨_, rfl, rfl, fun _ _ he => ?_⟩)
    injection he with _ hp
    exact hp.symm
  | advance byte pos => exact .inr (.inr ⟨byte, pos, rfl, rfl, rfl⟩)

/-- A step of a writer: the call returns, goes on, stores a byte or counts it. -/
theorem writeStep_cases (s : State) (c : WriteCall) (closed : Bool) :
    (s.writeStep c closed = { s with writer := none } ∧ inHand (some c) = [] ∧
      c.returns closed = some (if c.pc = .full then 0 else c.i)) ∨
    (∃ pc, s.writeStep c closed = s.setWriter { c with pc := pc } ∧ c.returns closed = none ∧
      inHand (some { c with pc := pc }) = inHand (some c)) ∨
    (∃ wpos, c.pc = .put wpos ∧ c.returns closed = none ∧ s.writeStep c closed = { s with
      pipe := { s.pipe with pBuf := Function.update s.pipe.pBuf (slot wpos) c.byte }
      writer := some { c with pc := .bump }
      stored := s.stored ++ [c.byte] }) ∨
    ∃ wpos, c.pc = .advance wpos ∧ c.returns closed = none ∧ s.writeStep c closed = { s with
      pipe := { s.pipe with pWpos := wpos + 1 }
      writer := some { c with i := c.i + 1, pc := .test } } := by
  have hgo : ∀ pc, c.pc = pc → ∀ pc', inHand (some { c with pc := pc' }) =
      inHand (some { c with pc := pc }) → inHand (some { c with pc := pc' }) = inHand (some c) := by
    intro pc hpc pc' hsame
    rw [hsame, ← hpc]
  unfold State.writeStep WriteCall.returns
  cases hpc : c.pc with
  | test =>
    dsimp only
    split
    · exact .inr (.inl ⟨_, rfl, rfl, hgo _ hpc _ rfl⟩)
    · exact .inl ⟨rfl, by simp only [inHand, hpc], rfl⟩
  | compare wpos =>
    dsimp only
    split <;> exact .inr (.inl ⟨_, rfl, rfl, hgo _ hpc _ rfl⟩)
  | full =>
    cases closed with
    | true => exact .inl ⟨rfl, by simp only [inHand, hpc], rfl⟩
    | false => exact .inr (.inl ⟨_, rfl, rfl, hgo _ hpc _ rfl⟩)
  | index => exact .inr (.inl ⟨_, rfl, rfl, hgo _ hpc _ rfl⟩)
  | put wpos => exact .inr (.inr (.inl ⟨wpos, rfl, rfl, rfl⟩))
  | bump => exact .inr (.inl ⟨_, rfl, rfl, hgo _ hpc _ rfl⟩)
  | advance wpos => exact .inr (.inr (.inr ⟨wpos, rfl, rfl, rfl⟩))

/-- There is one call at a time at each end. -/
theorem callRead_cases {n : Nat} (hs : step s (.callRead n) = some s') :
    s.reader = none ∧ s' = s.setReader ⟨n, [], .test⟩ := by
  cases hc : s.reader with
  | some c => simp only [step, hc, reduceCtorEq] at hs
  | none =>
    simp only [step, hc] at hs
    cases hs
    exact ⟨rfl, rfl⟩

theorem callWrite_cases {buf : List (BitVec 8)} (hs : step s (.callWrite buf) = some s') :
    s.writer = none ∧ s' = s.setWriter ⟨buf, 0, .test⟩ := by
  cases hc : s.writer with
  | some c => simp only [step, hc, reduceCtorEq] at hs
  | none =>
    simp only [step, hc] at hs
    cases hs
    exact ⟨rfl, rfl⟩

/-- The only store to the ring is that of a writer at its position. -/
theorem step_stores (hs : step s ev = some s') :
    (s'.pipe.pBuf = s.pipe.pBuf ∧ s'.stored = s.stored) ∨
    ∃ c wpos, s.writer = some c ∧ c.pc = .put wpos ∧
      s'.pipe.pBuf = Function.update s.pipe.pBuf (slot wpos) c.byte ∧
      s'.stored = s.stored ++ [c.byte] := by
  cases ev with
  | callRead n =>
    rcases callRead_cases hs with ⟨-, rfl⟩
    exact .inl ⟨rfl, rfl⟩
  | callWrite buf =>
    rcases callWrite_cases hs with ⟨-, rfl⟩
    exact .inl ⟨rfl, rfl⟩
  | read closed =>
    rcases map_eq_some_iff.1 hs with ⟨c, hc, rfl⟩
    refine .inl ?_
    rcases readStep_cases s c closed with ⟨hrun, -⟩ | ⟨pc, hrun, -⟩ | ⟨byte, pos, -, -, hrun⟩
    all_goals
      rw [hrun]
      exact ⟨rfl, rfl⟩
  | write closed =>
    rcases map_eq_some_iff.1 hs with ⟨c, hc, rfl⟩
    rcases writeStep_cases s c closed with ⟨hrun, -⟩ | ⟨pc, hrun, -⟩ | ⟨wpos, hpc, -, hrun⟩ |
      ⟨wpos, -, -, hrun⟩
    · exact .inl (by rw [hrun]; exact ⟨rfl, rfl⟩)
    · exact .inl (by rw [hrun]; exact ⟨rfl, rfl⟩)
    · exact .inr ⟨c, wpos, hc, hpc, by rw [hrun], by rw [hrun]⟩
    · exact .inl (by rw [hrun]; exact ⟨rfl, rfl⟩)

/-- What is known of a state: where the bytes are, and what each side knows. -/
structure Inv (s : State) (published : List (BitVec 8)) : Prop where
  flows : Flows s.pipe published s.received
  stored : s.stored = published ++ inHand s.writer
  reader : ∀ c, s.reader = some c → c.Ok s.pipe
  writer : ∀ c, s.writer = some c → c.Ok s.pipe

namespace Inv

variable {s : State} {published : List (BitVec 8)}

section

variable (h : Inv s published)

include h

/-- Only registers of the reader change. -/
theorem setReader {c' : ReadCall} (hc : s.reader = some c)
    (hbuf : c'.buf = c.buf) (hok : c'.Ok s.pipe) : Inv (s.setReader c') published := by
  have hrec : (s.setReader c').received = s.received := by
    unfold State.received
    rw [hc]
    exact congrArg _ hbuf
  refine ⟨hrec ▸ h.flows, h.stored, ?_, h.writer⟩
  intro d hd
  rwa [← some.inj hd]

theorem readReturn (hc : s.reader = some c) :
    Inv (s.readReturn c) published := by
  have hrec : (s.readReturn c).received = s.received := by
    unfold State.received State.readReturn
    rw [hc]
    simp [taken]
  refine ⟨hrec ▸ h.flows, h.stored, ?_, h.writer⟩
  intro d hd
  exact absurd hd (by simp [State.readReturn])

theorem readStep (hc : s.reader = some c) (closed : Bool) :
    Inv (s.readStep c closed) published := by
  have hok := h.reader c hc
  have hb := h.flows.bounds
  unfold State.readStep
  unfold ReadCall.Ok at hok
  cases hpc : c.pc with
  | test =>
    simp only
    split
    · exact h.setReader hc rfl rfl
    · exact h.readReturn hc
  | compare rpos =>
    rw [hpc] at hok
    simp only at hok ⊢
    split
    · exact h.setReader hc rfl trivial
    · next hne =>
      -- the positions differ, and the reader's is not ahead
      have hnat : s.pipe.pRpos.toNat ≠ s.pipe.pWpos.toNat := by
        intro he
        exact hne (hok.trans (BitVec.eq_of_toNat_eq he))
      refine h.setReader hc rfl ?_
      change s.pipe.pRpos.toNat < s.pipe.pWpos.toNat
      omega
  | empty =>
    simp only
    split
    · exact h.readReturn hc
    · exact h.setReader hc rfl trivial
  | index =>
    rw [hpc] at hok
    exact h.setReader hc rfl ⟨rfl, hok⟩
  | take rpos =>
    rw [hpc] at hok
    refine h.setReader hc rfl ⟨?_, hok.2⟩
    rw [hok.1, slot_eq (by omega)]
  | bump byte =>
    rw [hpc] at hok
    exact h.setReader hc rfl ⟨rfl, hok⟩
  | advance byte rpos =>
    rw [hpc] at hok
    rcases hok with ⟨rfl, rfl, hlt⟩
    have hflows := h.flows.take hlt
    rw [State.received, List.append_assoc, hc] at hflows
    refine ⟨hflows, h.stored, ?_, ?_⟩
    · intro d hd
      rw [← some.inj hd]
      trivial
    · intro d hd
      refine (h.writer d hd).later rfl ?_ rfl
      rw [toNat_add_one (by omega)]
      exact Nat.le_succ _

/-- Only registers of the writer change, and what it has in hand does not. -/
theorem setWriter {w : Option WriteCall}
    (hold : inHand w = inHand s.writer) (hok : ∀ c, w = some c → c.Ok s.pipe) :
    Inv { s with writer := w } published :=
  ⟨h.flows, hold ▸ h.stored, h.reader, hok⟩

theorem writeStep {c : WriteCall} (hc : s.writer = some c) {closed : Bool}
    (hsmall : (s.writeStep c closed).stored.length < 2 ^ 31) :
    ∃ published', Inv (s.writeStep c closed) published' := by
  have hok := h.writer c hc
  have hb := h.flows.bounds
  have hhand : inHand s.writer = inHand (some c) := by rw [hc]
  -- the steps that only change registers
  have hmove : ∀ c' : WriteCall, inHand (some c') = inHand (some c) → c'.Ok s.pipe →
      ∃ published', Inv (s.setWriter c') published' := by
    intro c' hold hok'
    refine ⟨published, h.setWriter (hold.trans hhand.symm) fun d hd => ?_⟩
    rwa [← some.inj hd]
  have hdone : inHand (some c) = [] → ∃ published', Inv { s with writer := none } published' := by
    intro hnone
    exact ⟨published, h.setWriter (by rw [hhand, hnone]; rfl)
      fun d hd => by cases hd⟩
  unfold State.writeStep at hsmall ⊢
  unfold WriteCall.Ok at hok
  cases hpc : c.pc with
  | test =>
    simp only
    split
    · exact hmove _ (by simp only [inHand, hpc]) rfl
    · exact hdone (by simp only [inHand, hpc])
  | compare wpos =>
    rw [hpc] at hok
    simp only at hok ⊢
    split
    · exact hmove _ (by simp only [inHand, hpc]) trivial
    · next hfull =>
      rw [hok, isFull_iff (by omega) (by omega)] at hfull
      refine hmove _ (by simp only [inHand, hpc]) ?_
      change s.pipe.pWpos.toNat < s.pipe.pRpos.toNat + 32
      omega
  | full =>
    simp only
    split
    · exact hdone (by simp only [inHand, hpc])
    · exact hmove _ (by simp only [inHand, hpc]) trivial
  | index =>
    rw [hpc] at hok
    exact hmove _ (by simp only [inHand, hpc]) ⟨rfl, hok⟩
  | put wpos =>
    have hnone : inHand (some c) = [] := by simp only [inHand, hpc]
    rw [hpc] at hok
    rcases hok with ⟨rfl, hroom⟩
    simp only
    rw [slot_eq (by omega)]
    refine ⟨published, h.flows.put c.byte hroom, ?_, ?_, ?_⟩
    · rw [h.stored, hhand, hnone, append_nil]
      rfl
    · -- the slot is not the one the reader looks at
      intro d hd
      refine (h.reader d hd).later rfl le_rfl fun hlt => ?_
      refine Function.update_of_ne ?_ _ _
      have hne := mod_ne 32 s.pipe.pRpos.toNat 0 (s.pipe.pWpos.toNat - s.pipe.pRpos.toNat)
        (by omega) (by omega)
      rwa [Nat.add_zero, Nat.add_sub_cancel' hb.1] at hne
    · intro d hd
      rw [← some.inj hd]
      exact ⟨Function.update_self _ _ _, hroom⟩
  | bump =>
    rw [hpc] at hok
    refine hmove _ ?_ ⟨rfl, hok⟩
    simp only [inHand, hpc]
    rfl
  | advance wpos =>
    have hone : inHand (some c) = [c.byte] := by simp only [inHand, hpc]
    rw [hpc] at hok hsmall
    rcases hok with ⟨rfl, hbyte, hroom⟩
    have hstored := h.stored
    rw [hhand, hone] at hstored
    simp only at hsmall
    rw [hstored, length_append, length_singleton] at hsmall
    have hflows := h.flows.publish hroom hsmall
    rw [hbyte] at hflows
    refine ⟨_, hflows, ?_, ?_, ?_⟩
    · simp only [hstored, inHand, append_nil]
    · intro d hd
      refine (h.reader d hd).later rfl ?_ fun _ => rfl
      rw [toNat_add_one (by omega)]
      exact Nat.le_succ _
    · intro d hd
      rw [← some.inj hd]
      trivial

theorem step (hs : step s ev = some s') (hsmall : s'.stored.length < 2 ^ 31) :
    ∃ published', Inv s' published' := by
  cases ev with
  | callRead n =>
    rcases callRead_cases hs with ⟨hc, rfl⟩
    have hrec : (s.setReader ⟨n, [], .test⟩).received = s.received := by
      unfold State.received
      rw [hc]
      rfl
    refine ⟨published, hrec ▸ h.flows, h.stored, ?_, h.writer⟩
    intro d hd
    rw [← some.inj hd]
    trivial
  | callWrite buf =>
    rcases callWrite_cases hs with ⟨hc, rfl⟩
    refine ⟨published, h.setWriter (by rw [hc]; rfl) fun d hd => ?_⟩
    rw [← some.inj hd]
    trivial
  | read closed =>
    rcases map_eq_some_iff.1 hs with ⟨c, hc, rfl⟩
    exact ⟨published, h.readStep hc closed⟩
  | write closed =>
    rcases map_eq_some_iff.1 hs with ⟨c, hc, rfl⟩
    exact h.writeStep hc hsmall

/-- An access overwrites no byte between the positions. -/
theorem keeps (ev : Event) (hs : Pipe.step s ev = some s') (q : Nat)
    (hlo : s.pipe.pRpos.toNat ≤ q) (hhi : q < s.pipe.pWpos.toNat) :
    s'.pipe.pBuf (q % 32) = s.pipe.pBuf (q % 32) := by
  have hb := h.flows.bounds
  rcases step_stores hs with ⟨hbuf, -⟩ | ⟨c, wpos, hc, hpc, hbuf, -⟩
  · rw [hbuf]
  · have hok := h.writer c hc
    unfold WriteCall.Ok at hok
    rw [hpc] at hok
    rcases hok with ⟨rfl, hroom⟩
    rw [hbuf, slot_eq (by omega)]
    refine Function.update_of_ne ?_ _ _
    have hne := mod_ne 32 s.pipe.pRpos.toNat (q - s.pipe.pRpos.toNat)
      (s.pipe.pWpos.toNat - s.pipe.pRpos.toNat) (by omega) (by omega)
    rwa [Nat.add_sub_cancel' hlo, Nat.add_sub_cancel' hb.1] at hne

end

end Inv

theorem inv_start : Inv start [] :=
  ⟨⟨rfl, rfl, by decide, ⟨by decide, rfl⟩⟩, rfl, fun _ hc => absurd hc (by simp [start]),
    fun _ hc => absurd hc (by simp [start])⟩

theorem stored_le (hs : step s ev = some s') : s.stored.length ≤ s'.stored.length := by
  rcases step_stores hs with ⟨-, hst⟩ | ⟨c, wpos, -, -, -, hst⟩
  · rw [hst]
  · rw [hst, length_append]
    exact Nat.le_add_right _ _

theorem inv_of_run (hrun : Run step (fun _ _ => True) start s)
    (hsmall : s.stored.length < 2 ^ 31) : ∃ published, Inv s published := by
  refine Run.invariant (fun s => s.stored.length < 2 ^ 31 → ∃ published, Inv s published)
    ?_ hrun (fun _ => ⟨[], inv_start⟩) hsmall
  intro t ev t' ih _ hstep hlt
  rcases ih (Nat.lt_of_le_of_lt (stored_le hstep) hlt) with ⟨published, h⟩
  exact h.step hstep hlt

/-- While the writes have stored fewer than `2 ^ 31` bytes, what the reads have
    returned is the beginning of it, the positions are at most the size of the
    ring apart, and no access overwrites a byte that was not read. -/
theorem fifo (s : State) (hrun : Run step (fun _ _ => True) start s)
    (hsmall : s.stored.length < 2 ^ 31) :
    s.reads.flatten <+: s.stored ∧
    (0 ≤ s.pipe.pWpos.toInt - s.pipe.pRpos.toInt ∧
      s.pipe.pWpos.toInt - s.pipe.pRpos.toInt ≤ pipebufsiz.toInt) ∧
    ∀ ev s', step s ev = some s' → ∀ q, s.pipe.pRpos.toNat ≤ q → q < s.pipe.pWpos.toNat →
      s'.pipe.pBuf (q % 32) = s.pipe.pBuf (q % 32) := by
  rcases inv_of_run hrun hsmall with ⟨published, h⟩
  have hb := h.flows.bounds
  refine ⟨?_, ?_, fun ev s' hs => h.keeps ev hs⟩
  · calc s.reads.flatten
        <+: s.received := List.prefix_append _ _
      _ <+: published := h.flows.carries.isPrefix
      _ <+: s.stored := by
          rw [h.stored]
          exact List.prefix_append _ _
  · rw [BitVec.toInt_eq_toNat_of_lt (by omega), BitVec.toInt_eq_toNat_of_lt (by omega),
      show pipebufsiz.toInt = 32 from rfl]
    omega

/-- The two sides take turns, and two of three bytes are read. -/
theorem fifo_turns : ∃ s, Run step (fun _ _ => True) start s ∧ s.reads = [[7, 8]] ∧
    s.stored = [7, 8, 9] ∧ s.reads.flatten <+: s.stored := by
  have heval : ((runEvents step start ([.callWrite [7, 8, 9], .callRead 2] ++
      (replicate 19 [.write false, .read false]).flatten)).map
        fun s => (s.reads, s.stored)) = some ([[7, 8]], [7, 8, 9]) := by decide +kernel
  rcases map_eq_some_iff.1 heval with ⟨s, hs, hfacts⟩
  rw [Prod.mk.injEq] at hfacts
  have hrun := Run.of_runEvents _ _ hs
  refine ⟨s, hrun, hfacts.1, hfacts.2, (fifo s hrun ?_).1⟩
  rw [hfacts.2]
  decide

/-! ## Pipes of any age -/

/-- The bytes in the ring that were not read. -/
def State.unread (s : State) : Nat :=
  s.stored.length - (inHand s.writer).length - s.received.length

/-- The next access is to a byte of the ring, and the test of the writer holds if the ring is
    full. -/
structure State.Sound (s : State) : Prop where
  take : ∀ c rpos, s.reader = some c → c.pc = .take rpos → slot rpos < 32
  put : ∀ c wpos, s.writer = some c → c.pc = .put wpos → slot wpos < 32
  full : isFull s.pipe.pWpos s.pipe.pRpos = true ↔ s.unread = 32

/-- While the writes have stored fewer than `2 ^ 31` bytes, the ring is used as it should
    be. -/
theorem sound_of_run (s : State) (hrun : Run step (fun _ _ => True) start s)
    (hsmall : s.stored.length < 2 ^ 31) : s.Sound := by
  rcases inv_of_run hrun hsmall with ⟨published, h⟩
  have hb := h.flows.bounds
  refine ⟨fun c rpos hc hpc => ?_, fun c wpos hc hpc => ?_, ?_⟩
  · have hok := h.reader c hc
    rw [ReadCall.Ok, hpc] at hok
    rw [hok.1, slot_eq (by omega)]
    exact Nat.mod_lt _ (by decide)
  · have hok := h.writer c hc
    rw [WriteCall.Ok, hpc] at hok
    rw [hok.1, slot_eq (by omega)]
    exact Nat.mod_lt _ (by decide)
  · have hr := h.flows.rpos
    have hw := h.flows.wpos
    rw [isFull_iff (by omega) (by omega), State.unread, h.stored, length_append]
    omega

/-- The ring is full when 32 of 33 bytes are stored. -/
theorem sound_of_run_full : ∃ s, Run step (fun _ _ => True) start s ∧
    s.stored.length = 32 ∧ isFull s.pipe.pWpos s.pipe.pRpos = true ∧ s.Sound := by
  have heval : ((runEvents step start (.callWrite (replicate 33 7) ::
      replicate 194 (.write false))).map fun s =>
        (s.stored.length, isFull s.pipe.pWpos s.pipe.pRpos)) = some (32, true) := by
    decide +kernel
  rcases map_eq_some_iff.1 heval with ⟨s, hs, hfacts⟩
  rw [Prod.mk.injEq] at hfacts
  have hrun := Run.of_runEvents _ _ hs
  exact ⟨s, hrun, hfacts.1, hfacts.2, sound_of_run s hrun (by rw [hfacts.1]; decide)⟩

section

variable (p : BitVec 32) (buf : Nat → BitVec 8) (reads : List (List (BitVec 8)))
  (stored : List (BitVec 8))

/-- A byte is written to an empty ring. -/
theorem written (h : isFull p p = false) :
    Run step (fun _ _ => True) ⟨⟨p, p, buf⟩, none, none, reads, stored⟩
      ⟨⟨p, p + 1, Function.update buf (slot p) 7⟩, none, none, reads, stored ++ [7]⟩ := by
  refine Run.of_runEvents ([.callWrite [7]] ++ replicate 7 (.write false)) _ ?_
  simp [runEvents, step, replicate, State.setWriter, State.writeStep, h]

/-- It is read. -/
theorem readBack (hbuf : buf (slot p) = 7) :
    Run step (fun _ _ => True) ⟨⟨p, p + 1, buf⟩, none, none, reads, stored⟩
      ⟨⟨p + 1, p + 1, buf⟩, none, none, reads ++ [[7]], stored⟩ := by
  refine Run.of_runEvents ([.callRead 1] ++ replicate 7 (.read false)) _ ?_
  simp [runEvents, step, replicate, State.setReader, State.readStep, State.readReturn,
    hbuf]

end

/-- Bytes can go through a pipe until its positions are negative. -/
theorem roundTrips (n : Nat) (hn : n ≤ 2 ^ 31 + 1) : ∃ buf reads stored,
    reads.flatten.length = n ∧ stored.length = n ∧
      Run step (fun _ _ => True) start
        ⟨⟨ofNat 32 n, ofNat 32 n, buf⟩, none, none, reads, stored⟩ := by
  induction n with
  | zero => exact ⟨fun _ => 0, [], [], rfl, rfl, Relation.ReflTransGen.refl⟩
  | succ n ih =>
    rcases ih (by omega) with ⟨buf, reads, stored, hreads, hstored, hrun⟩
    have hroom : isFull (ofNat 32 n) (ofNat 32 n) = false := by
      by_cases hlt : n < 2 ^ 31
      · have hnat : (ofNat 32 n).toNat = n := by
          rw [toNat_ofNat]
          omega
        rw [Bool.eq_false_iff, ne_eq, isFull_iff (by omega) (by omega)]
        omega
      · rw [show n = 2 ^ 31 by omega]
        decide
    have hnext := (written (ofNat 32 n) buf reads stored hroom).trans
      (readBack (ofNat 32 n) _ reads (stored ++ [7]) (Function.update_self _ _ _))
    have hpos : ofNat 32 n + 1 = ofNat 32 (n + 1) := BitVec.ofNat_add_ofNat n 1
    rw [hpos] at hnext
    exact ⟨_, _, _, by simp [hreads], by simp [hstored], hrun.trans hnext⟩

/-- After `2 ^ 31` bytes the test finds a ring with one byte full, and after two more the
    writer stores a byte outside of it. -/
theorem old_not_sound :
    (∃ s, Run step (fun _ _ => True) start s ∧ s.unread = 1 ∧
      isFull s.pipe.pWpos s.pipe.pRpos = true) ∧
    ∃ s c wpos, Run step (fun _ _ => True) start s ∧ s.writer = some c ∧ c.pc = .put wpos ∧
      ¬slot wpos < 32 := by
  refine ⟨?_, ?_⟩
  · rcases roundTrips (2 ^ 31 - 1) (by decide) with ⟨buf, reads, stored, hreads, hstored, hrun⟩
    refine ⟨_, hrun.trans (written _ buf reads stored (by decide)), ?_,
      (by decide : isFull (ofNat 32 (2 ^ 31 - 1) + 1) (ofNat 32 (2 ^ 31 - 1)) = true)⟩
    simp only [State.unread, State.received, inHand, taken, append_nil, hreads,
      length_append, hstored]
    rfl
  · rcases roundTrips (2 ^ 31 + 1) (by decide) with ⟨buf, reads, stored, -, -, hrun⟩
    have hmore := hrun.trans (Run.of_runEvents [.callWrite [7], .write false, .write false,
      .write false] ⟨⟨_, _, buf⟩, none, some ⟨[7], 0, .put 0x80000001⟩, reads, stored⟩ rfl)
    exact ⟨_, _, _, hmore, rfl, rfl, by decide⟩

/-! ## What the calls return -/

/-- The call of `devpipe_write` goes on after this step. -/
def State.writeLasts (s : State) (ev : Event) : Bool :=
  (step s ev).all fun s' => s'.writer.isSome

/-- The call of `devpipe_read` goes on after this step. -/
def State.ReadLasts (s : State) (ev : Event) : Prop :=
  ∀ s', step s ev = some s' → s'.reader.isSome = true

/-- A call of `devpipe_write` in progress since `k` bytes were stored. -/
def Storing (k : Nat) (s : State) : Prop :=
  ∃ c, s.writer = some c ∧ s.stored.length = k + c.i + (inHand (some c)).length

theorem Storing.step {k : Nat} (h : Storing k s) (hlast : s.writeLasts ev = true)
    (hs : step s ev = some s') : Storing k s' := by
  rcases h with ⟨c, hc, hlen⟩
  have hgo : s'.writer.isSome = true := by
    rwa [State.writeLasts, hs] at hlast
  cases ev with
  | callRead n =>
    rcases callRead_cases hs with ⟨-, rfl⟩
    exact ⟨c, hc, hlen⟩
  | callWrite buf => simp only [Pipe.step, hc, reduceCtorEq] at hs
  | read closed =>
    rcases map_eq_some_iff.1 hs with ⟨d, hd, rfl⟩
    rcases readStep_cases s d closed with ⟨hrun, -⟩ | ⟨pc, hrun, -⟩ | ⟨byte, pos, -, -, hrun⟩
    all_goals
      rw [hrun]
      exact ⟨c, hc, hlen⟩
  | write closed =>
    simp only [Pipe.step, hc, map_some] at hs
    cases hs
    rcases writeStep_cases s c closed with ⟨hrun, -⟩ | ⟨pc, hrun, -, hsame⟩ |
      ⟨wpos, hpc, -, hrun⟩ | ⟨wpos, hpc, -, hrun⟩
    · rw [hrun] at hgo
      cases hgo
    · rw [hrun]
      exact ⟨_, rfl, by rwa [hsame]⟩
    · rw [hrun]
      refine ⟨_, rfl, ?_⟩
      simp only [inHand, hpc, length_nil] at hlen
      simp only [inHand, length_append, length_singleton, hlen, Nat.add_zero]
    · -- the byte is counted now
      rw [hrun]
      refine ⟨_, rfl, ?_⟩
      simp only [inHand, hpc, length_singleton] at hlen
      simp only [inHand, length_nil, hlen, Nat.add_zero, Nat.add_assoc]

/-- A call of `devpipe_read` in progress since the position was `rpos`. -/
def Taking (rpos : BitVec 32) (s : State) : Prop :=
  ∃ c, s.reader = some c ∧ s.pipe.pRpos = rpos + ofNat 32 c.buf.length ∧
    ∀ byte pos, c.pc = .advance byte pos → pos = s.pipe.pRpos

theorem Taking.step (h : Taking rpos s) (hlast : s.ReadLasts ev) (hs : step s ev = some s') :
    Taking rpos s' := by
  rcases h with ⟨c, hc, hpos, hreg⟩
  have hgo := hlast s' hs
  cases ev with
  | callRead n => simp only [Pipe.step, hc, reduceCtorEq] at hs
  | callWrite buf =>
    rcases callWrite_cases hs with ⟨-, rfl⟩
    exact ⟨c, hc, hpos, hreg⟩
  | write closed =>
    rcases map_eq_some_iff.1 hs with ⟨d, hd, rfl⟩
    rcases writeStep_cases s d closed with ⟨hrun, -⟩ | ⟨pc, hrun, -⟩ | ⟨wpos, -, -, hrun⟩ |
      ⟨wpos, -, -, hrun⟩
    all_goals
      rw [hrun]
      exact ⟨c, hc, hpos, hreg⟩
  | read closed =>
    simp only [Pipe.step, hc, map_some] at hs
    cases hs
    rcases readStep_cases s c closed with ⟨hrun, -⟩ | ⟨pc, hrun, -, hpc⟩ |
      ⟨byte, pos, hpc, -, hrun⟩
    · rw [hrun] at hgo
      cases hgo
    · rw [hrun]
      exact ⟨_, rfl, hpos, hpc⟩
    · rw [hrun]
      refine ⟨_, rfl, ?_, fun _ _ he => by cases he⟩
      simp only [hreg byte pos hpc, hpos, length_append, length_singleton]
      rw [BitVec.add_assoc]
      exact congrArg (rpos + ·) (BitVec.ofNat_add_ofNat _ 1)

end Jos.Pipe
