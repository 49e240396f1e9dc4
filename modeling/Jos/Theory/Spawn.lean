import Jos.Core.Spawn

/-!
# Starting a Program

What `spawn` looks at, and what it leaves behind when it fails. It takes the number and the
place of the program headers from the file as they are, and goes through them in a buffer
of 512 bytes. If it fails, what it has taken is given back by some of the ways out only: the
descriptor stays open when there is no environment, the environment stays when its stack
does not come about, and the page at `UTEMP` stays mapped when the file cannot be read.

## Main definitions

* `Kept`: What loading a segment leaves alone.
* `Inside`: The headers that were looked at are in the buffer.
* `Before`, `Restored`: The world of a caller, and one in which everything is as before.
* `Stuck`: What a round of `map_segment` that fails leaves at `UTEMP`.

## Theorems

* `headers_cases`: One round of the loop over the headers.
* `spawn_inside_iff`: For which numbers and places the headers are in the buffer.
* `headers_outcome`: What the loop over the headers leaves when it ends or fails.
* `spawn_restored_iff`: After which failures everything is as before.
-/

namespace Jos.Spawn

open Lib.Bytes (load load_eq)
open BitVec (eq_of_toNat_eq ofNat ofNat_add toNat_add toNat_ofNat)

variable (o : Outside) (file : List (BitVec 8)) (m around : BitVec 64 → BitVec 8)
  (argv : List (List (BitVec 8))) {a : BitVec 64} {n : Nat}

/-- What `map_segment` leaves alone. -/
structure Kept (w w' : World) : Prop where
  alive : w'.alive = w.alive
  fd : w'.fd = w.fd
  seen : w'.seen = w.seen

theorem mapPage_kept (s : Segment) (i : BitVec 32) (w : World) :
    Kept w (mapPage o file s i w).2 := by
  unfold mapPage
  dsimp only
  split_ifs <;> exact ⟨rfl, rfl, rfl⟩

theorem mapLoop_kept (s : Segment) (fuel : Nat) :
    ∀ i w, Kept w (mapLoop o file s fuel i w).2 := by
  induction fuel with
  | zero => exact fun i w => ⟨rfl, rfl, rfl⟩
  | succ fuel ih =>
    intro i w
    rw [mapLoop]
    split
    · have hpage := mapPage_kept o file s i w
      split
      · next w1 h =>
        rw [h] at hpage
        have hrest := ih (i + 4096) w1
        exact ⟨hrest.alive.trans hpage.alive, hrest.fd.trans hpage.fd,
          hrest.seen.trans hpage.seen⟩
      · exact hpage
    · exact ⟨rfl, rfl, rfl⟩

/-! ## Program headers -/

/-- One round of the loop over the headers: it stops with the one at `a`, or goes on behind
    it, as it does if this is not a segment to load. -/
theorem headers_cases (n : Nat) (a : BitVec 64) (w : World) :
    ((headers o file m (n + 1) a w).2.seen = a :: w.seen ∧ field m 4 a = 1) ∨
      ∃ w1 : World, w1.seen = a :: w.seen ∧
        headers o file m (n + 1) a w = headers o file m n (a + 56) w1 := by
  rw [headers]
  by_cases htype : field m 4 a ≠ 1
  · exact .inr ⟨_, rfl, if_pos htype⟩
  · rw [if_neg htype]
    have hkept := mapLoop_kept o file (segment m a).rounded (2 ^ 20 + 1) 0
      { w with seen := a :: w.seen }
    rw [← mapSegment] at hkept
    split
    · next w1 h =>
      rw [h] at hkept
      exact .inr ⟨w1, hkept.seen, rfl⟩
    · next r w1 _ h =>
      rw [h] at hkept
      exact .inl ⟨hkept.seen, not_not.1 htype⟩
    · next w1 h =>
      rw [h] at hkept
      exact .inl ⟨hkept.seen, not_not.1 htype⟩

/-- The headers that were looked at are in the buffer. -/
def Inside (w : World) : Prop := ∀ a ∈ w.seen, a.toNat + 56 ≤ 512

theorem toNat_add_56 (h : a.toNat + 56 ≤ 512) : (a + 56).toNat = a.toNat + 56 := by
  rw [toNat_add, show (56 : BitVec 64).toNat = 56 from rfl, Nat.mod_eq_of_lt (by omega)]

theorem headers_inside : ∀ (a : BitVec 64) (w : World), a.toNat + 56 * n ≤ 512 →
    Inside w → Inside (headers o file m n a w).2 := by
  -- by induction on the headers that are left
  induction n with
  | zero => exact fun a w _ hin => hin
  | succ n ih =>
    intro a w ha hin
    have hcons : ∀ x ∈ a :: w.seen, x.toNat + 56 ≤ 512 := by
      intro x hx
      rcases List.mem_cons.1 hx with hx | hx
      · rw [hx]
        omega
      · exact hin x hx
    rcases headers_cases o file m n a w with ⟨hseen, -⟩ |
      ⟨w1, hseen, hnext⟩
    · rwa [Inside, hseen]
    · rw [hnext]
      refine ih _ w1 ?_ (by rwa [Inside, hseen])
      rw [toNat_add_56 (by omega)]
      omega

/-- What was looked at stays in the list. -/
theorem headers_mono (n : Nat) : ∀ (a : BitVec 64) (w : World), ∀ x ∈ w.seen,
    x ∈ (headers o file m n a w).2.seen := by
  induction n with
  | zero => exact fun a w x hx => hx
  | succ n ih =>
    intro a w x hx
    rcases headers_cases o file m n a w with ⟨hseen, -⟩ |
      ⟨w1, hseen, hnext⟩
    · rw [hseen]
      exact List.mem_cons_of_mem a hx
    · rw [hnext]
      exact ih _ w1 x (hseen ▸ List.mem_cons_of_mem a hx)

/-- A header is looked at if none before it is to be loaded. -/
theorem headers_reach : ∀ (a : BitVec 64) (w : World) (k : Nat), k < n →
    (∀ i < k, field m 4 (a + ofNat 64 (56 * i)) ≠ 1) →
    a + ofNat 64 (56 * k) ∈ (headers o file m n a w).2.seen := by
  induction n with
  | zero => exact fun a w k hk => absurd hk (Nat.not_lt_zero k)
  | succ n ih =>
    intro a w k hk htypes
    rcases headers_cases o file m n a w with ⟨hseen, htype⟩ |
      ⟨w1, hseen, hnext⟩
    · have hz : k = 0 := by
        by_contra hk0
        refine htypes 0 (by omega) ?_
        rwa [Nat.mul_zero, BitVec.add_zero]
      rw [hseen, hz, Nat.mul_zero, BitVec.add_zero]
      exact List.mem_cons_self
    · rw [hnext]
      have hshift : ∀ i,
          a + 56 + ofNat 64 (56 * i) = a + ofNat 64 (56 * (i + 1)) := by
        intro i
        rw [BitVec.add_assoc, Nat.mul_succ, Nat.add_comm (56 * i), ofNat_add]
        rfl
      cases k with
      | zero =>
        rw [Nat.mul_zero, BitVec.add_zero]
        exact headers_mono o file m n _ w1 a (hseen ▸ List.mem_cons_self)
      | succ k =>
        rw [← hshift]
        refine ih _ w1 k (by omega) fun i hi => ?_
        rw [hshift]
        exact htypes (i + 1) (by omega)

theorem loadImage_seen (page : Stack) (w : World) :
    (loadImage o file m page w).2.seen = w.seen ∨ ∃ w1 : World, w1.seen = w.seen ∧
      (loadImage o file m page w).2.seen =
        (headers o file m (field m 2 56) (ofNat 64 (field m 8 32)) w1).2.seen := by
  unfold loadImage
  split
  · exact .inl rfl
  · split
    · exact .inl rfl
    · refine .inr ⟨w.withStack fun k => page.mem (utemp + k), rfl, ?_⟩
      split
      · next h => rw [h]; rfl
      · rfl

/-- What `spawn` looks at are the headers of the loop, if it comes to it. -/
theorem spawn_seen (w : World) :
    (spawn o file around argv w).2.seen = w.seen ∨ ∃ w1 : World, w1.seen = w.seen ∧
      (spawn o file around argv w).2.seen =
        (headers o file (elfBuf file around) (field (elfBuf file around) 2 56)
          (ofNat 64 (field (elfBuf file around) 8 32)) w1).2.seen := by
  unfold spawn
  dsimp only
  split
  · exact .inl rfl
  · split
    · exact .inl rfl
    · split
      · exact .inl rfl
      · have hseen : w.forked.seen = w.seen := rfl
        split
        · exact .inl hseen
        · next page _ _ =>
          have himage := loadImage_seen o file (elfBuf file around) page w.forked
          rwa [hseen] at himage

/-- If every call finds what it needs, `spawn` comes to the loop. -/
theorem spawn_headers {page : Stack} {rsp : BitVec 64} (helf : isElf file = true)
    (hpage : initStack argv = some (page, rsp)) (w : World) :
    ∃ w1, (spawn ⟨fun _ => true, fun _ _ => 0⟩ file around argv w).2.seen =
      (headers ⟨fun _ => true, fun _ _ => 0⟩ file (elfBuf file around)
        (field (elfBuf file around) 2 56)
        (ofNat 64 (field (elfBuf file around) 8 32)) w1).2.seen := by
  refine ⟨w.forked.withStack fun k => page.mem (utemp + k), ?_⟩
  simp only [spawn, loadImage, Outside.succeeds, helf, hpage, Bool.not_true, Bool.or_self,
    Bool.false_eq_true, if_false]
  split
  · next h =>
    rw [h]
    rfl
  · rfl

/-- The header of a program with `phnum` program headers at `phoff`, and 255 otherwise. -/
def programByte (phoff : BitVec 64) (phnum : BitVec 16) (x : Nat) : BitVec 8 :=
  if x < 4 then ofNat 8 (0x464C457F / 256 ^ x)
  else if 32 ≤ x ∧ x < 40 then ofNat 8 (phoff.toNat / 256 ^ (x - 32))
  else if 56 ≤ x ∧ x < 58 then ofNat 8 (phnum.toNat / 256 ^ (x - 56))
  else 255

def program (phoff : BitVec 64) (phnum : BitVec 16) : List (BitVec 8) :=
  (List.range 512).map (programByte phoff phnum)

section Program

variable (phoff : BitVec 64) (phnum : BitVec 16)

theorem elfBuf_program (ha : a.toNat < 512) :
    elfBuf (program phoff phnum) around a = programByte phoff phnum a.toNat := by
  rw [elfBuf, if_pos ha, program, List.getD_eq_getElem?_getD, List.getElem?_map,
    List.getElem?_range ha]
  rfl

theorem program_field {w : Nat} (n a : Nat) (ha : a + n ≤ 512)
    (hbyte : ∀ i < n, programByte phoff phnum (a + i) = ofNat 8 (w / 256 ^ i)) :
    field (elfBuf (program phoff phnum) around) n (ofNat 64 a) = w % 256 ^ n := by
  refine load_eq _ w fun i hi => ?_
  have hnat : (ofNat 64 a + (i : BitVec 64)).toNat = a + i := by
    rw [BitVec.natCast_eq_ofNat, ← ofNat_add, toNat_ofNat,
      Nat.mod_eq_of_lt (by omega)]
  rw [elfBuf_program _ _ _ (by omega), hnat, hbyte i hi]

theorem program_phoff :
    ofNat 64 (field (elfBuf (program phoff phnum) around) 8 32) = phoff := by
  have h := program_field around phoff phnum 8 32 (by omega) fun i hi => by
    rw [programByte, if_neg (by omega), if_pos (by omega), Nat.add_sub_cancel_left]
  have hlt := phoff.isLt
  refine eq_of_toNat_eq ?_
  rw [show (32 : BitVec 64) = ofNat 64 32 from rfl, h, toNat_ofNat]
  omega

theorem program_phnum :
    field (elfBuf (program phoff phnum) around) 2 56 = phnum.toNat := by
  have h := program_field around phoff phnum 2 56 (by omega) fun i hi => by
    rw [programByte, if_neg (by omega), if_neg (by omega), if_pos (by omega),
      Nat.add_sub_cancel_left]
  have hlt := phnum.isLt
  rw [show (56 : BitVec 64) = ofNat 64 56 from rfl, h]
  omega

theorem program_isElf : isElf (program phoff phnum) = true := by
  have h := program_field (fun _ => 0) phoff phnum 4 0 (by omega) fun i hi => by
    rw [programByte, if_pos (by omega), Nat.zero_add]
  rw [isElf, show (0 : BitVec 64) = ofNat 64 0 from rfl, h, program, List.length_map,
    List.length_range]
  rfl

/-- Only the two fields have bytes that are 0. -/
theorem programByte_eq_zero {x : Nat} (h : programByte phoff phnum x = 0) :
    (32 ≤ x ∧ x < 40) ∨ (56 ≤ x ∧ x < 58) := by
  by_contra hout
  rw [programByte, if_neg (c := 32 ≤ x ∧ x < 40) (by omega),
    if_neg (c := 56 ≤ x ∧ x < 58) (by omega)] at h
  by_cases hx : x < 4
  · rw [if_pos hx] at h
    have hmagic : ∀ x < 4, ofNat 8 (0x464C457F / 256 ^ x) ≠ 0 := by decide
    exact hmagic x hx h
  · rw [if_neg hx] at h
    cases h

/-- None of the program headers in the buffer is to be loaded. -/
theorem program_type {i : Nat} (ha : a.toNat = phoff.toNat + 56 * i) (hin : a.toNat + 56 ≤ 512) :
    field (elfBuf (program phoff phnum) around) 4 a ≠ 1 := by
  intro h
  have hnext : ∀ x : BitVec 64, x.toNat < 512 → (x + 1).toNat = x.toNat + 1 := by
    intro x hx
    rw [toNat_add, show (1 : BitVec 64).toNat = 1 from rfl]
    omega
  have h1 := hnext a (by omega)
  have h2 := hnext (a + 1) (by omega)
  have h3 := hnext (a + 1 + 1) (by omega)
  simp only [field, load] at h
  rw [elfBuf_program _ _ _ (by omega), elfBuf_program _ _ _ (by omega),
    elfBuf_program _ _ _ (by omega), elfBuf_program _ _ _ (by omega),
    h3, h2, h1] at h
  -- three bytes that are 0 are in the first field
  have hz1 := programByte_eq_zero phoff phnum (eq_of_toNat_eq
    (by change _ = 0; omega) : programByte phoff phnum (a.toNat + 1) = 0)
  have hz2 := programByte_eq_zero phoff phnum (eq_of_toNat_eq
    (by change _ = 0; omega) : programByte phoff phnum (a.toNat + 1 + 1) = 0)
  have hz3 := programByte_eq_zero phoff phnum (eq_of_toNat_eq
    (by change _ = 0; omega) : programByte phoff phnum (a.toNat + 1 + 1 + 1) = 0)
  have hone : (programByte phoff phnum a.toNat).toNat = 1 := by omega
  rw [programByte, if_neg (by omega)] at hone
  by_cases hx : 32 ≤ a.toNat
  · rw [if_pos (by omega), toNat_ofNat] at hone
    rcases Nat.eq_or_lt_of_le hx with heq | hlt
    · rw [← heq, Nat.sub_self, Nat.pow_zero, Nat.div_one] at hone
      omega
    · have hpow : 256 ^ 1 ≤ 256 ^ (a.toNat - 32) := Nat.pow_le_pow_right (by omega) (by omega)
      rw [Nat.div_eq_of_lt (by omega)] at hone
      cases hone
  · rw [if_neg (by omega), if_neg (by omega)] at hone
    cases hone

end Program

/-- Every program header that `spawn` looks at is in the buffer, whatever else is in the file
    and however the calls come out, exactly if there is none or the last one ends in it. -/
theorem spawn_inside_iff (phoff : BitVec 64) (phnum : BitVec 16) :
    (∀ file, isElf file = true →
      (∀ around, ofNat 64 (field (elfBuf file around) 8 32) = phoff) →
      (∀ around, field (elfBuf file around) 2 56 = phnum.toNat) →
      ∀ o around argv w, w.seen = [] → Inside (spawn o file around argv w).2) ↔
    phnum = 0 ∨ phoff.toNat + 56 * phnum.toNat ≤ 512 := by
  refine ⟨fun hall => ?_, fun hcond file _ hoff hnum o around argv w hw => ?_⟩
  · by_contra hnot
    push Not at hnot
    have hpos : 0 < phnum.toNat := by
      refine Nat.pos_of_ne_zero fun hz => hnot.1 (eq_of_toNat_eq hz)
    -- the first header that is not in the buffer
    obtain ⟨k, hk⟩ : ∃ k, k = if phoff.toNat ≤ 456 then (456 - phoff.toNat) / 56 + 1 else 0 :=
      ⟨_, rfl⟩
    have hk' : k < phnum.toNat ∧ 512 < phoff.toNat + 56 * k + 56 ∧
        ∀ i < k, phoff.toNat + 56 * i + 56 ≤ 512 := by
      by_cases hlow : phoff.toNat ≤ 456
      · rw [if_pos hlow] at hk
        exact ⟨by omega, by omega, fun i hi => by omega⟩
      · rw [if_neg hlow] at hk
        exact ⟨by omega, by omega, fun i hi => by omega⟩
    have hnat : ∀ i ≤ k, (phoff + ofNat 64 (56 * i)).toNat = phoff.toNat + 56 * i := by
      intro i hi
      have hlt := phoff.isLt
      rw [toNat_add, toNat_ofNat]
      split at hk <;> omega
    obtain ⟨⟨page, rsp⟩, hpage⟩ := Option.isSome_iff_exists.1
      (by decide +kernel : (initStack []).isSome = true)
    obtain ⟨w1, hseen⟩ := spawn_headers (program phoff phnum) (fun _ => 0) [] (program_isElf _ _)
      hpage ⟨none, false, fun _ => none, false, [], []⟩
    have hreach := headers_reach ⟨fun _ => true, fun _ _ => 0⟩ (program phoff phnum)
      (elfBuf (program phoff phnum) fun _ => 0) phoff w1 k hk'.1 fun i hi =>
        program_type _ phoff phnum (hnat i (by omega)) (by
          rw [hnat i (by omega)]
          exact hk'.2.2 i hi)
    rw [program_phnum, program_phoff] at hseen
    rw [← hseen] at hreach
    have hin := hall (program phoff phnum) (program_isElf _ _) (program_phoff · _ _)
      (program_phnum · _ _) ⟨fun _ => true, fun _ _ => 0⟩ (fun _ => 0) [] _ rfl _ hreach
    rw [hnat k le_rfl] at hin
    omega
  · rcases spawn_seen o file around argv w with hseen | ⟨w1, hw1, hseen⟩
    · rw [Inside, hseen, hw]
      exact fun a ha => absurd ha List.not_mem_nil
    · rw [hw] at hw1
      have hin : Inside w1 := by
        rw [Inside, hw1]
        exact fun a ha => absurd ha List.not_mem_nil
      rw [Inside, hseen, hnum, hoff]
      rcases hcond with hz | hle
      · rwa [hz]
      · exact headers_inside o file _ phoff w1 hle hin

/-- One header, at the end of the buffer. -/
theorem spawn_outside : isElf (program 512 1) = true ∧
    ¬ Inside (spawn ⟨fun _ => true, fun _ _ => 0⟩ (program 512 1) (fun _ => 0) []
      ⟨none, false, fun _ => none, false, [], []⟩).2 := by
  refine ⟨by decide +kernel, fun hin => ?_⟩
  exact absurd (hin 512 (by decide +kernel)) (by decide)

/-! ## Failures -/

/-- Before `spawn` there is neither the environment nor the descriptor, and what is mapped at
    `UTEMP` is none of the pages that it allocates. -/
structure Before (w : World) : Prop where
  alive : w.alive = false
  fd : w.fd = false
  utemp : ∀ p, w.utemp = some p → p.born = none

/-- There is no environment and no descriptor more or less than before, and the same page at
    `UTEMP`. -/
structure Restored (w w' : World) : Prop where
  alive : w'.alive = w.alive
  fd : w'.fd = w.fd
  utemp : w'.utemp = w.utemp

/-- The last call was one for a page, and there is none at `UTEMP`, or it was for the bytes of
    the file, and the page for them is still there. -/
def Stuck (w : World) : Prop :=
  (w.utemp = none ∧ (w.ops.head? = some .blank ∨ w.ops.head? = some .utemp)) ∨
    (w.ops.head? = some .read ∧ ∃ p, w.utemp = some p ∧ p.born ≠ none)

/-- If the run comes to an end, there is nothing at `UTEMP`, or it has failed in a call. -/
def Outcome (x : Option Int × World) : Prop :=
  ∀ r, x.1 = some r → (r = 0 ∧ x.2.utemp = none) ∨ (r ≠ 0 ∧ Stuck x.2)

theorem mapPage_outcome (s : Segment) (i : BitVec 32) {w : World} (hu : w.utemp = none) :
    Outcome (mapPage o file s i w) := by
  intro r
  unfold mapPage
  dsimp only
  -- the leaves are in the order of the source
  split_ifs with hblank hbad halloc halloc hread hmap <;> intro hr
  · cases hr
    exact .inr ⟨by decide, .inl ⟨hu, .inl rfl⟩⟩
  · cases hr
    exact .inr ⟨by decide, .inl ⟨hu, .inl rfl⟩⟩
  · exact .inl ⟨(Option.some.inj hr).symm, hu⟩
  · cases hr
    exact .inr ⟨by decide, .inl ⟨hu, .inr rfl⟩⟩
  · cases hr
    exact .inr ⟨by decide, .inr ⟨rfl, _, rfl, Option.some_ne_none _⟩⟩
  · cases hr
  · exact .inl ⟨(Option.some.inj hr).symm, rfl⟩

theorem mapLoop_outcome (s : Segment) (fuel : Nat) :
    ∀ (i : BitVec 32) (w : World), w.utemp = none → Outcome (mapLoop o file s fuel i w) := by
  induction fuel with
  | zero => exact fun i w _ r hr => by cases hr
  | succ fuel ih =>
    intro i w hu
    rw [mapLoop]
    split
    · have hround := mapPage_outcome o file s i hu
      split
      · next w1 h =>
        rw [h] at hround
        rcases hround 0 rfl with ⟨-, hu1⟩ | ⟨hne, -⟩
        · exact ih _ w1 hu1
        · exact absurd rfl hne
      · exact hround
    · exact fun r hr => .inl ⟨(Option.some.inj hr).symm, hu⟩

/-- Where the loop over the headers fails, the environment and the descriptor are gone. -/
theorem headers_outcome (n : Nat) : ∀ (a : BitVec 64) (w : World), w.utemp = none →
    Outcome (headers o file m n a w) ∧ ∀ r, (headers o file m n a w).1 = some r → r ≠ 0 →
      (headers o file m n a w).2.alive = false ∧ (headers o file m n a w).2.fd = false := by
  induction n with
  | zero =>
    exact fun a w hu => ⟨fun r hr => .inl ⟨(Option.some.inj hr).symm, hu⟩,
      fun r hr hne => absurd (Option.some.inj hr).symm hne⟩
  | succ n ih =>
    intro a w hu
    rw [headers]
    split
    · exact ih _ _ hu
    · have hseg : Outcome (mapSegment o file (segment m a) { w with seen := a :: w.seen }) :=
        mapLoop_outcome o file _ _ 0 _ hu
      split
      · next w1 h =>
        rw [h] at hseg
        rcases hseg 0 rfl with ⟨-, hu1⟩ | ⟨hne, -⟩
        · exact ih _ w1 hu1
        · exact absurd rfl hne
      · next r w1 hne h =>
        rw [h] at hseg
        rcases hseg r rfl with ⟨hz, -⟩ | ⟨hr, hstuck⟩
        · exact absurd hz hne
        · exact ⟨fun r' hr' => .inr ⟨Option.some.inj hr' ▸ hr, hstuck⟩,
            fun _ _ _ => ⟨rfl, rfl⟩⟩
      · exact ⟨fun r hr => (by cases hr), fun r hr => (by cases hr)⟩

/-- With an environment that failed to get its stack page, nothing is given back. Otherwise
    it is the loop over the headers that failed. -/
theorem loadImage_failed (page : Stack) (w : World) {r : Int}
    (hr : (loadImage o file m page w).1 = some r) (hneg : r < 0) :
    ((loadImage o file m page w).2.alive = w.alive ∧
      ((loadImage o file m page w).2.ops.head? = some .stackPage ∨
        (loadImage o file m page w).2.ops.head? = some .stackMap)) ∨
    ((loadImage o file m page w).2.alive = false ∧ (loadImage o file m page w).2.fd = false ∧
      Stuck (loadImage o file m page w).2) := by
  obtain ⟨hout, hgone⟩ := headers_outcome o file m (field m 2 56)
    (ofNat 64 (field m 8 32)) (w.withStack fun k => page.mem (utemp + k)) rfl
  revert hr
  unfold loadImage
  split
  · exact fun _ => .inl ⟨rfl, .inl rfl⟩
  · split
    · exact fun _ => .inl ⟨rfl, .inr rfl⟩
    · split
      · intro hr
        dsimp only at hr
        split at hr
        · rw [← Option.some.inj hr] at hneg
          cases hneg
        · cases hr
      · intro hr
        obtain ⟨halive, hfd⟩ := hgone r hr (by omega)
        rcases hout r hr with ⟨hz, -⟩ | ⟨-, hstuck⟩
        · omega
        · exact .inr ⟨halive, hfd, hstuck⟩

/-- A call that fails leaves everything as it was exactly if it is the one that opens the file
    or the one that reads its header, or if it asks for a page of the program and nothing was
    mapped at `UTEMP` before. -/
theorem spawn_restored_iff {w : World} (hw : Before w) {r : Int}
    (hr : (spawn o file around argv w).1 = some r) (hneg : r < 0) :
    Restored w (spawn o file around argv w).2 ↔
      ∃ op, (spawn o file around argv w).2.ops.head? = some op ∧
        (op = .openFile ∨ op = .header ∨ w.utemp = none ∧ (op = .blank ∨ op = .utemp)) := by
  -- an environment or a descriptor that stays is not the state before
  have halive : ∀ {w' : World} {op : Op}, w'.alive = true → w'.ops.head? = some op →
      (op = .exofork ∨ op = .stackPage ∨ op = .stackMap) → (Restored w w' ↔
      ∃ op, w'.ops.head? = some op ∧ (op = .openFile ∨ op = .header ∨
        w.utemp = none ∧ (op = .blank ∨ op = .utemp))) := by
    intro w' op hal hop hcases
    refine iff_of_false (fun h => ?_) ?_
    · rw [h.alive, hw.alive] at hal
      cases hal
    · rintro ⟨op', hop', hcond⟩
      rw [hop] at hop'
      cases hop'
      rcases hcases with rfl | rfl | rfl <;> simp at hcond
  revert hr
  unfold spawn
  dsimp only
  split
  · exact fun _ => iff_of_true ⟨rfl, rfl, rfl⟩ ⟨_, rfl, .inl rfl⟩
  · split
    · exact fun _ => iff_of_true ⟨rfl, hw.fd.symm, rfl⟩ ⟨_, rfl, .inr (.inl rfl)⟩
    · split
      · refine fun _ => iff_of_false (fun h => ?_) (by rintro ⟨_, hop, h⟩; cases hop; simp at h)
        exact Bool.noConfusion (h.fd.trans hw.fd)
      · split
        · exact fun _ => halive rfl rfl (.inl rfl)
        · intro hr
          rcases loadImage_failed o file _ _ w.forked hr hneg with ⟨hal, hop | hop⟩ |
            ⟨hal, hfd, ⟨hu, hop⟩ | ⟨hop, p, hp, hborn⟩⟩
          · exact halive hal hop (.inr (.inl rfl))
          · exact halive hal hop (.inr (.inr rfl))
          · -- `UTEMP` is empty now, so it has to be empty before
            refine ⟨fun h => ?_, fun ⟨op, hop', hcond⟩ => ?_⟩
            · have hnone := h.utemp.symm.trans hu
              rcases hop with hop | hop
              · exact ⟨_, hop, .inr (.inr ⟨hnone, .inl rfl⟩)⟩
              · exact ⟨_, hop, .inr (.inr ⟨hnone, .inr rfl⟩)⟩
            · refine ⟨hal.trans hw.alive.symm, hfd.trans hw.fd.symm, hu.trans ?_⟩
              rcases hcond with rfl | rfl | ⟨hnone, -⟩
              · rcases hop with hop | hop <;> simp [hop] at hop'
              · rcases hop with hop | hop <;> simp [hop] at hop'
              · exact hnone.symm
          · -- the page at `UTEMP` is one of this call
            refine iff_of_false (fun h => hborn (hw.utemp p (h.utemp.symm.trans hp))) ?_
            rintro ⟨op, hop', hcond⟩
            rw [hop] at hop'
            cases hop'
            simp at hcond

/-- A program with a segment of one byte. -/
def oneByte : List (BitVec 8) :=
  (List.range 512).map fun x => if x < 4 then ofNat 8 (0x464C457F / 256 ^ x)
    else if x = 32 then 64 else if x ∈ [56, 64, 96, 104] then 1 else 0

/-- The run of `spawn` in which the call with number `k` fails. -/
def failingAt (k : Nat) : Option Int × World :=
  spawn ⟨fun n => n != k, fun _ _ => 0⟩ oneByte (fun _ => 0) []
    ⟨none, false, fun _ => none, false, [], []⟩

/-- The page at `UTEMP` for the segment cannot be had: the environment is destroyed and the
    file is closed. -/
theorem spawn_restored_utemp : (failingAt 5).1 = some eNoMem ∧
    (failingAt 5).2.ops.head? = some .utemp ∧
    Restored ⟨none, false, fun _ => none, false, [], []⟩ (failingAt 5).2 := by
  have hrun : (failingAt 5).1 = some eNoMem ∧ (failingAt 5).2.ops.head? = some .utemp := by
    decide +kernel
  refine ⟨hrun.1, hrun.2, ?_⟩
  rw [failingAt] at hrun ⊢
  exact (spawn_restored_iff _ _ _ _ ⟨rfl, rfl, fun _ h => by cases h⟩ hrun.1 (by decide)).2
    ⟨_, hrun.2, .inr (.inr ⟨rfl, .inr rfl⟩)⟩

/-- `sys_exofork`, `sys_page_alloc` for the stack and `readn` fail: the descriptor stays open,
    then also the environment stays, and at last there is a page at `UTEMP`. -/
theorem spawn_leaves :
    ((failingAt 2).1 = some eNoFreeEnv ∧ (failingAt 2).2.fd = true) ∧
    ((failingAt 3).1 = some eNoMem ∧ (failingAt 3).2.fd = true ∧ (failingAt 3).2.alive = true) ∧
    ((failingAt 6).1 = some eInval ∧ (failingAt 6).2.utemp.isSome = true) := by
  decide +kernel

end Jos.Spawn
