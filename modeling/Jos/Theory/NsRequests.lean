import Jos.Core.Ns
import Mathlib.Algebra.BigOperators.Group.List.Basic
import Mathlib.Tactic.Linarith

/-!
# The Page of a Request

The pages of the requests lie side by side, and `serve_thread` takes the lengths for
`lwip_recv`, `lwip_send` and `low_level_input` from the request as they are. The
accesses stay in the page exactly when these lengths fit into what is left of it.

## Main definitions

* `Access.Inside`: An access stays in the page.
* `World.Keeps`: `lwip_recv` and `lwip_send` go no further than they are told.
* `Fits`: The lengths of a request fit.

## Theorems

* `sum_pbufAlloc`: A chain of buffers is as long as was asked for.
* `copyLoop_inside`, `copyLoop_reaches`: What the loop over the chain reads.
* `requests_stay`: Which requests stay in their page.
* `send_leaves`: A request to send what lies behind its page.
-/

namespace Jos.Ns

/-- All bytes of the access are in the page at `va`. -/
def Access.Inside (va : Nat) (a : Access) : Prop :=
  ∀ j, j < a.size → (va : Int) ≤ va + a.offset + j ∧ (va : Int) + a.offset + j < va + pgsize

/-- The socket layer keeps to the lengths it is given, of which a negative one is none
    at all. -/
def World.Keeps (w : World) (page : Nat → BitVec 8) : Prop :=
  w.recvd ≤ (word page 4).toInt.toNat ∧ w.sent ≤ (word page 4).toInt.toNat

/-- The lengths in the request fit into the page. -/
def Fits (reqno : BitVec 32) (page : Nat → BitVec 8) (pool : Nat) : Prop :=
  match nsreq reqno with
  | some .recv => (word page 4).toInt ≤ 4096
  | some .send => (word page 4).toInt ≤ 4084
  | some .input =>
    pbufAlloc pool ((word page 0).truncate 16) = none ∨
    (0 ≤ ((word page 0).truncate 16).toInt ∧ ((word page 0).truncate 16).toInt ≤ 4092)
  | _ => True

variable {pool : Nat} {qs : List Nat} {len : Int}

theorem sum_pbufTail : ∀ remLen qs, pbufTail pool remLen = some qs → qs.sum = remLen := by
  induction pool with
  | zero =>
    intro remLen qs h
    cases remLen with
    | zero => rw [← Option.some.inj h, List.sum_nil]
    | succ n => cases h
  | succ pool ih =>
    intro remLen qs h
    cases remLen with
    | zero => rw [← Option.some.inj h, List.sum_nil]
    | succ n =>
      rcases Option.map_eq_some_iff.1 h with ⟨rest, hrest, rfl⟩
      rw [List.sum_cons, ih _ rest hrest]
      omega

theorem sum_pbufAlloc {length : BitVec 16} (h : pbufAlloc pool length = some qs) :
    qs ≠ [] ∧ qs.sum = length.toNat := by
  unfold pbufAlloc at h
  cases pool with
  | zero => cases h
  | succ pool =>
    rcases Option.map_eq_some_iff.1 h with ⟨rest, hrest, rfl⟩
    refine ⟨List.cons_ne_nil _ _, ?_⟩
    rw [List.sum_cons, sum_pbufTail _ rest hrest]
    omega

/-- A chain that is as long as the rest of the packet is filled without a cut. -/
theorem copyLoop_cons {copied : Int} {q : Nat} (hsum : ((q :: qs).sum : Int) = len - copied) :
    copyLoop len copied (q :: qs) = (copied, (q : Int)) :: copyLoop len (copied + q) qs := by
  rw [List.sum_cons, Nat.cast_add] at hsum
  rw [copyLoop, if_neg (by omega)]

theorem copyLoop_inside : ∀ copied,
    (qs.sum : Int) = len - copied → ∀ x ∈ copyLoop len copied qs,
    copied ≤ x.1 ∧ 0 ≤ x.2 ∧ x.1 + x.2 ≤ len := by
  induction qs with
  | nil =>
    intro copied _ x hx
    exact absurd hx List.not_mem_nil
  | cons q qs ih =>
    intro copied hsum x hx
    rw [copyLoop_cons hsum] at hx
    rw [List.sum_cons, Nat.cast_add] at hsum
    rcases List.mem_cons.1 hx with rfl | hrest
    · refine ⟨le_refl _, ?_, ?_⟩ <;> dsimp only <;> omega
    · have hin := ih (copied + q) (by omega) x hrest
      omega

/-- The last bytes are read, if there are any. -/
theorem copyLoop_reaches : ∀ copied,
    (qs.sum : Int) = len - copied → copied < len →
    ∃ x ∈ copyLoop len copied qs, 0 < x.2 ∧ x.1 + x.2 = len := by
  induction qs with
  | nil =>
    intro copied hsum hlt
    rw [List.sum_nil, Nat.cast_zero] at hsum
    omega
  | cons q qs ih =>
    intro copied hsum hlt
    rw [copyLoop_cons hsum]
    rw [List.sum_cons, Nat.cast_add] at hsum
    by_cases hmore : copied + q < len
    · rcases ih (copied + q) (by omega) hmore with ⟨x, hx, hx'⟩
      exact ⟨x, List.mem_cons_of_mem _ hx, hx'⟩
    · refine ⟨(copied, (q : Int)), List.mem_cons_self, ?_⟩
      dsimp only
      omega

theorem Access.inside_iff (va : Nat) (a : Access) :
    a.Inside va ↔ a.size = 0 ∨ (0 ≤ a.offset ∧ a.offset + a.size ≤ 4096) := by
  unfold Access.Inside pgsize
  constructor
  · intro h
    by_cases hz : a.size = 0
    · exact .inl hz
    · -- the first byte and the last one
      have hfirst := h 0 (by omega)
      have hlast := h (a.size - 1) (by omega)
      exact .inr ⟨by omega, by omega⟩
  · intro h j hj
    rcases h with hz | hin
    · omega
    · exact ⟨by omega, by omega⟩

/-- Accesses to the fields of a request. -/
theorem inside_of_fields (va : Nat) {l : List Access}
    (h : ∀ a ∈ l, 0 ≤ a.offset ∧ a.offset + a.size ≤ 4096) : ∀ a ∈ l, a.Inside va := by
  intro a ha
  exact (a.inside_iff va).2 (.inr (h a ha))

theorem nameAccesses_inside (va : Nat) {page : Nat → BitVec 8} {w : World} :
    ∀ a ∈ [⟨0, 4⟩, ⟨20, 4⟩] ++ nameAccesses page w, a.Inside va := by
  refine inside_of_fields va ?_
  unfold nameAccesses
  split
  · split <;> decide
  · decide

/-- What `low_level_input` reads of a packet. -/
theorem inputAccesses_inside (va : Nat) (page : Nat → BitVec 8) (w : World) :
    (∀ a ∈ inputAccesses page w, a.Inside va) ↔
    pbufAlloc w.pool ((word page 0).truncate 16) = none ∨
      (0 ≤ ((word page 0).truncate 16).toInt ∧ ((word page 0).truncate 16).toInt ≤ 4092) := by
  unfold inputAccesses lowLevelInput
  generalize (word page 0).truncate 16 = len
  cases hchain : pbufAlloc w.pool len with
  | none => exact iff_of_true (fun a ha => absurd ha List.not_mem_nil) (.inl rfl)
  | some qs =>
    rcases sum_pbufAlloc hchain with ⟨hne, hsum⟩
    dsimp only [Option.map_some]
    rw [List.forall_mem_map]
    by_cases hneg : len.toInt < 0
    · -- the first copy has a negative length
      refine iff_of_false ?_ (fun h => ?_)
      swap
      · have hshort := h.resolve_left (fun he => by cases he)
        omega
      intro hall
      rcases List.exists_cons_of_ne_nil hne with ⟨q, rest, rfl⟩
      have hfirst := hall (0, len.toInt - 0) (by
        rw [copyLoop, if_pos (by omega)]
        exact List.mem_cons_self)
      rw [Access.inside_iff] at hfirst
      dsimp only at hfirst
      rw [BitVec.toNat_ofInt] at hfirst
      have hlow := BitVec.le_toInt len
      omega
    · have hlen : (qs.sum : Int) = len.toInt - 0 := by
        rw [hsum, Int.sub_zero, BitVec.toInt_eq_toNat_of_msb]
        rwa [← Bool.not_eq_true, BitVec.msb_eq_toInt, decide_eq_true_eq]
      have hhigh := BitVec.toInt_lt (x := len)
      constructor
      · intro hall
        refine .inr ⟨by omega, ?_⟩
        by_contra hlong
        rcases copyLoop_reaches 0 hlen (by omega) with ⟨x, hx, hpos, hend⟩
        have hin := copyLoop_inside 0 hlen x hx
        have hlast := hall x hx
        rw [Access.inside_iff] at hlast
        dsimp only at hlast
        rw [BitVec.toNat_ofInt] at hlast
        omega
      · intro h x hx
        have hin := copyLoop_inside 0 hlen x hx
        rw [Access.inside_iff]
        dsimp only
        rw [BitVec.toNat_ofInt]
        have hshort := h.resolve_left (fun he => by cases he)
        exact .inr ⟨by omega, by omega⟩

/-- Any number of bytes up to a length, from a place in the page on. -/
theorem transfer_inside (va o : Nat) (ho : o < 4096) (len : Int) :
    (∀ n : Nat, n ≤ len.toNat → Access.Inside va ⟨o, n⟩) ↔ len ≤ 4096 - o := by
  constructor
  · intro h
    have hall := (Access.inside_iff va _).1 (h len.toNat le_rfl)
    dsimp only at hall
    omega
  · intro h n hn
    rw [Access.inside_iff]
    dsimp only
    omega

/-- A request with three fields and a transfer. -/
theorem three_fields_inside (va : Nat) (a : Access) :
    (∀ b ∈ [⟨0, 4⟩, ⟨4, 4⟩, ⟨8, 4⟩, a], b.Inside va) ↔ a.Inside va := by
  rw [show [⟨0, 4⟩, ⟨4, 4⟩, ⟨8, 4⟩, a] = [⟨0, 4⟩, ⟨4, 4⟩, (⟨8, 4⟩ : Access)] ++ [a] from rfl,
    List.forall_mem_append, List.forall_mem_singleton]
  exact and_iff_right (inside_of_fields va (by decide))

/-- Whatever the socket layer does within the lengths it is given, the service of a
    request stays in the request's page if and only if the lengths in the request fit. -/
theorem requests_stay (i : Nat) (reqno : BitVec 32) (page : Nat → BitVec 8) (pool : Nat) :
    (∀ w : World, w.pool = pool → w.Keeps page →
      ∀ a ∈ accesses reqno page w, a.Inside (slotVa i)) ↔ Fits reqno page pool := by
  have hfields : ∀ l : List Access, (∀ a ∈ l, 0 ≤ a.offset ∧ a.offset + a.size ≤ 4096) →
      ((∀ w : World, w.pool = pool → w.Keeps page → ∀ a ∈ l, a.Inside (slotVa i)) ↔ True) :=
    fun l hl => iff_of_true (fun _ _ _ => inside_of_fields _ hl) trivial
  unfold accesses Fits
  cases nsreq reqno with
  | none => exact hfields _ (by decide)
  | some r =>
    cases r with
    | accept => exact hfields _ (by decide)
    | shutdown => exact hfields _ (by decide)
    | close => exact hfields _ (by decide)
    | listen => exact hfields _ (by decide)
    | socket => exact hfields _ (by decide)
    | bind => exact iff_of_true (fun w _ _ => nameAccesses_inside _) trivial
    | connect => exact iff_of_true (fun w _ _ => nameAccesses_inside _) trivial
    -- the socket layer may use all of the length it is given
    | recv =>
      simp only [three_fields_inside]
      refine Iff.trans ?_ (transfer_inside (slotVa i) 0 (by decide) (word page 4).toInt)
      constructor
      · intro h n hn
        exact h ⟨false, n, 0, pool⟩ rfl ⟨hn, Nat.zero_le _⟩
      · intro h w _ hkeeps
        exact h w.recvd hkeeps.1
    | send =>
      simp only [three_fields_inside]
      refine Iff.trans ?_ (transfer_inside (slotVa i) 12 (by decide) (word page 4).toInt)
      constructor
      · intro h n hn
        exact h ⟨false, 0, n, pool⟩ rfl ⟨Nat.zero_le _, hn⟩
      · intro h w _ hkeeps
        exact h w.sent hkeeps.2
    | input =>
      have hword : Access.Inside (slotVa i) ⟨0, 4⟩ :=
        (Access.inside_iff _ _).2 (.inr (by decide))
      constructor
      · intro h
        have hin := h ⟨false, 0, 0, pool⟩ rfl ⟨Nat.zero_le _, Nat.zero_le _⟩
        rw [List.forall_mem_cons] at hin
        exact (inputAccesses_inside (slotVa i) page ⟨false, 0, 0, pool⟩).1 hin.2
      · intro h w hpool _
        rw [← hpool] at h
        rw [List.forall_mem_cons]
        exact ⟨hword, (inputAccesses_inside (slotVa i) page w).2 h⟩

/-- A request to send 4085 bytes, of which the last lies in the page of the next slot. -/
theorem send_leaves : ∃ page : Nat → BitVec 8, ∃ w : World, w.Keeps page ∧
    ∃ a ∈ accesses 8 page w, ∃ j, j < a.size ∧ (slotVa 0 : Int) + a.offset + j = slotVa 1 := by
  refine ⟨fun k => if k = 4 then 0xf5 else if k = 5 then 0x0f else 0, ⟨true, 0, 4085, 0⟩,
    ⟨by decide, by decide⟩, ⟨12, 4085⟩, ?_, 4084, by decide, by decide⟩
  exact List.mem_cons_of_mem _ (List.mem_cons_of_mem _ (List.mem_cons_of_mem _ List.mem_cons_self))

end Jos.Ns
