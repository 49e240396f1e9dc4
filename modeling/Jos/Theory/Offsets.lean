import Jos.Core.Serv
import Jos.Theory.ReadBack

/-!
# Offsets of Clients

The seek position is in a page that clients can write, so that `serve_read` and
`serve_write` are called with any 32-bit number. For positions that are not
negative every copy is inside of a block of the file. For negative ones the
signed division gives block 0 and the signed remainder leads in front of it, or
the comparison of the loop is at once false and the count that is returned was
never copied.

## Main definitions

* `Confined`: All copies are inside of blocks of the file, and are counted.
* `Harmless`: The positions and counts without a wrong copy.

## Theorems

* `fileLoop_log`: The copies of the loop.
* `confined_iff`: Which requests are confined to their file.
-/

namespace Jos.Fs

open Lib.Bytes (load store store_off load_store_off load_store_at)
open BitVec (ofNat toNat_add toNat_neg toNat_ofNat toNat_sub)

/-- `MIN` of `inc/types.h`. -/
theorem toNat_ite_le (a b : BitVec 64) : (if a ≤ b then a else b).toNat = min a.toNat b.toNat := by
  split
  · next h => exact (Nat.min_eq_left h).symm
  · next h =>
    rw [BitVec.le_def] at h
    omega

/-! ## Positions that are not negative -/

/-- The bytes are in blocks of the file. -/
def Access.Within (x : Access) (f : Nat) : Prop :=
  ∀ a, x.addr ≤ a → a < x.addr + x.len → Owned x.mem f (a / 4096)

/-- All copies are inside of blocks of the file, and a count that is returned is
    the number of bytes copied. -/
def Confined (f : Nat) (r : Int) (log : List Access) : Prop :=
  (∀ x ∈ log, x.Within f) ∧ (0 ≤ r → r = total log)

/-- A copy changes no other bytes of the disk. -/
def Local {σ : Type} (act : Mem → Nat → Nat → σ → Mem × σ) : Prop :=
  ∀ m a n x c, ¬(a ≤ c ∧ c < a + n) → (act m a n x).1 c = m c

theorem readChunk_local : Local readChunk := fun _ _ _ _ _ _ => rfl

theorem writeChunk_local : Local writeChunk := by
  intro m a n buf c hc
  refine if_neg fun hin => hc ⟨hin.1, ?_⟩
  have := List.length_take_le n buf
  omega

variable {σ : Type} {act : Mem → Nat → Nat → σ → Mem × σ} {m m' : Mem} {f n : Nat} {r : Int}
  {log : List Access} {offset : BitVec 32} {count : BitVec 64} {x x' : σ}

/-- The copies of the loop: those for one turn are in the block of that turn. -/
theorem fileLoop_log (hact : Local act) (stop : BitVec 64) (x : σ) (hs : Sane m) (ho : Owns m f)
    (hoff : offset.toNat < 2 ^ 31) :
    (fileLoop (logged act) f stop 1036 offset (m, ([], x))).Sat
      (fun _ s => FileStep m s.1 f ∧ (∀ y ∈ s.2.1, y.Within f) ∧
        total s.2.1 = stop.toNat - offset.toNat)
      (fun e s => e < 0 ∧ FileStep m s.1 f ∧ ∀ y ∈ s.2.1, y.Within f) False := by
  have hloop := fileLoop_rule (logged act) f stop
    (fun p m1 s => FileStep m m1 f ∧ Sane m1 ∧ (∀ y ∈ s.1, y.Within f) ∧
      offset.toNat ≤ p ∧ (p ≤ stop.toNat ∨ p = offset.toNat) ∧ total s.1 = p - offset.toNat)
    (fun e m1 s => e < 0 ∧ FileStep m m1 f ∧ ∀ y ∈ s.1, y.Within f) False
    ?_ 1036 offset m ([], x) hoff (by omega) (.inl (by omega))
    ⟨FileStep.refl ho, hs, fun y hy => absurd hy List.not_mem_nil, le_rfl, .inr rfl,
      by rw [Nat.sub_self]; rfl⟩
  · refine hloop.mono ?_ (fun e s h => h) id
    rintro - s ⟨p, hp, hpe, hstep, -, hin, hlo, hhi, htot⟩
    refine ⟨hstep, hin, ?_⟩
    rw [htot]
    omega
  · rintro p m1 ⟨log, x1⟩ hp ⟨hstep, hs1, hin, hlo, -, htot⟩
    refine (fileGetBlock_spec (p / 4096) hs1 hstep.owns).mono ?_ ?_ id
    · rintro blk m2 ⟨rfl, hgot⟩
      have hnext := next_spec hp
      have hs2 := hgot.grows.sane hs1
      have hout : ∀ a, a / 4096 ≠ slot m2 f (p / 4096) →
          (act m2 (slot m2 f (p / 4096) * 4096 + p % 4096) (next p stop.toNat - p) x1).1 a = m2 a :=
        fun a ha => hact _ _ _ _ _ (by omega)
      have hdata := (FileStep.of_data hs2 hgot.grows.owns hgot.lt hgot.here hout).1
      refine ⟨hgot.lt, (hstep.trans hgot.grows.fileStep).trans hdata,
        hdata.sane hgot.grows.owns hs2, ?_, by omega, .inl hnext.2.1, ?_⟩
      · intro y hy
        rcases List.mem_append.1 hy with hy | hy
        · exact hin y hy
        · -- the bytes of this turn
          rw [List.mem_singleton] at hy
          rw [hy]
          intro a hlo' hhi'
          refine ⟨?_, p / 4096, Nat.le_of_lt hgot.lt, ?_⟩
          · have := hgot.here
            simp only at hlo' hhi'
            omega
          · simp only at hlo' hhi' ⊢
            omega
      · simp only [logged, total_append, htot]
        omega
    · rintro e m2 ⟨he, hg, -, -⟩
      exact ⟨by rcases he with rfl | rfl <;> decide, hstep.trans hg.fileStep, hin⟩

/-- The loop with the number that is returned, which is right if it is the length of the
    request. -/
theorem fileLoop_counted (hact : Local act) (stop count : BitVec 64) (x : σ) (hs : Sane m)
    (ho : Owns m f) (hoff : offset.toNat < 2 ^ 31) :
    ∃ r m' log x', (fileLoop (logged act) f stop 1036 offset (m, ([], x))).map (counted count) =
        some (r, m', log, x') ∧ FileStep m m' f ∧
      (asInt count = (stop.toNat - offset.toNat : Nat) → Confined f r log) := by
  have hloop := fileLoop_log hact stop x hs ho hoff
  rcases hloop.ends with ⟨e, ⟨m', log, x'⟩, hres, hneg, hstep, hin⟩ |
    ⟨_, ⟨m', log, x'⟩, hres, hstep, hin, htot⟩
  · rw [hres]
    exact ⟨e, m', log, x', rfl, hstep, fun _ => ⟨hin, fun h => absurd h (by omega)⟩⟩
  · rw [hres]
    exact ⟨_, m', log, x', rfl, hstep, fun hcount => ⟨hin, fun _ => hcount.trans (by rw [htot])⟩⟩

/-- `file_read` at a position that is not negative. -/
theorem fileReadBy_log (hact : Local act) (count : BitVec 64) (x : σ) (hs : Sane m)
    (ho : Owns m f) (hoff : offset.toNat < 2 ^ 31) :
    ∃ r m' log x', fileReadBy (logged act) m f count offset ([], x) = some (r, m', log, x') ∧
      FileStep m m' f ∧ Confined f r log := by
  by_cases hend : (fSize m f).sle offset = true
  · refine ⟨0, m, [], x, if_pos hend, FileStep.refl ho, fun y hy => absurd hy List.not_mem_nil, ?_⟩
    exact fun _ => rfl
  · rcases fileReadBy_loop (logged act) count ([], x) hoff hend with
      ⟨stop, count', hstop, hcount, hread⟩
    rcases fileLoop_counted hact stop count' x hs ho hoff with ⟨r, m', log, x', hrun, hstep, hc⟩
    refine ⟨r, m', log, x', hread.trans hrun, hstep, hc ?_⟩
    rw [hcount, hstop, Nat.add_sub_cancel_left]

/-- `file_set_size` with any size. -/
theorem fileSetSize_step (size : BitVec 32) (ho : Owns m f) :
    ∃ m', fileSetSize m f size = some m' ∧ FileStep m m' f := by
  unfold fileSetSize
  split
  · rcases fileTruncateBlocks_spec m f size ho with ⟨m1, hrun, ht⟩
    rw [hrun]
    exact ⟨_, rfl, ht.step.trans (setSize_step ht.step.owns size).1⟩
  · exact ⟨_, rfl, (setSize_step ho size).1⟩

/-- The part of `file_write` that extends the file, with any size. -/
theorem extend_step (stop : BitVec 64) (ho : Owns m f) :
    ∃ m', (if (fSize m f).signExtend 64 < stop then fileSetSize m f (stop.setWidth 32)
      else some m) = some m' ∧ FileStep m m' f := by
  split
  · exact fileSetSize_step _ ho
  · exact ⟨m, rfl, FileStep.refl ho⟩

/-- `file_write` at a position that is not negative. -/
theorem fileWriteBy_log (hact : Local act) (count : BitVec 64) (x : σ) (hs : Sane m)
    (ho : Owns m f) (hoff : offset.toNat < 2 ^ 31) :
    ∃ r m' log x', fileWriteBy (logged act) m f count offset ([], x) = some (r, m', log, x') ∧
      FileStep m m' f ∧ (count.toNat < 2 ^ 31 → Confined f r log) := by
  rcases extend_step (offset.signExtend 64 + count) ho with ⟨m1, hroom, hstep1⟩
  rcases fileLoop_counted hact (offset.signExtend 64 + count) count x (hstep1.sane ho hs)
    hstep1.owns hoff with ⟨r, m', log, x', hrun, hstep, hc⟩
  unfold fileWriteBy
  simp only [hroom, Option.bind_some]
  refine ⟨r, m', log, x', hrun, hstep1.trans hstep, fun hcount => hc ?_⟩
  rw [asInt_of_lt _ hcount, toNat_stop hoff (by omega), Nat.add_sub_cancel_left]

/-- `file_write` works on the file alone, whatever the number of bytes. -/
theorem fileWrite_step (m : Mem) (f : Nat) (buf : List (BitVec 8)) (offset : BitVec 32)
    (hs : Sane m) (ho : Owns m f) (hoff : offset.toNat < 2 ^ 31) :
    ∃ r m', fileWrite m f buf offset = some (r, m') ∧ FileStep m m' f := by
  rcases fileWriteBy_log writeChunk_local (ofNat 64 buf.length) buf hs ho
      hoff with
    ⟨r, m', log, x', hrun, hstep, -⟩
  refine ⟨r, m', ?_, hstep⟩
  rw [fileWrite_logged, hrun]
  rfl

/-! ## Negative positions -/

section

variable (offset : BitVec 32) (count : BitVec 64)

section

variable (h : 2 ^ 31 ≤ offset.toNat)

include h

theorem msb_of_ge : offset.msb = true := by
  rw [BitVec.msb_eq_decide]
  exact decide_eq_true (by omega)

theorem toNat_signExtend_neg :
    (offset.signExtend 64).toNat = 2 ^ 64 - 2 ^ 32 + offset.toNat := by
  rw [BitVec.toNat_signExtend, msb_of_ge offset h, BitVec.toNat_setWidth, if_pos rfl]
  have := offset.isLt
  omega

theorem toInt_of_ge : offset.toInt = offset.toNat - 2 ^ 32 := by
  rw [BitVec.toInt_eq_toNat_cond, if_neg (by omega)]
  rfl

/-- The comparison of the loop: the end of the request must be negative too. -/
theorem guard_neg :
    offset.signExtend 64 < offset.signExtend 64 + count ↔
      0 < count.toNat ∧ offset.toNat + count.toNat < 2 ^ 32 := by
  rw [BitVec.lt_def, toNat_add, toNat_signExtend_neg offset h]
  have := offset.isLt
  have := count.isLt
  omega

/-- `pos / BLKSIZE` goes towards 0. -/
theorem sdiv_neg : (offset.sdiv 4096#32).toNat =
    (2 ^ 32 - (2 ^ 32 - offset.toNat) / 4096) % 2 ^ 32 := by
  have := offset.isLt
  rw [BitVec.sdiv_eq, msb_of_ge offset h, show (4096#32).msb = false from rfl]
  simp only [BitVec.udiv_eq, toNat_neg, BitVec.toNat_udiv, toNat_ofNat]
  rw [show 4096 % 2 ^ 32 = 4096 from rfl]
  omega

/-- A position in front of the block before the file. -/
theorem sdiv_far (hfar : offset.toNat + 4096 ≤ 2 ^ 32) :
    1034 ≤ (offset.sdiv 4096#32).toNat := by
  rw [sdiv_neg offset h]
  omega

end

section

variable (h : 2 ^ 32 < offset.toNat + 4096)

include h

theorem sdiv_near : (offset.sdiv 4096#32).toNat = 0 := by
  have := offset.isLt
  rw [sdiv_neg offset (by omega)]
  omega

theorem toNat_srem_near :
    (offset.srem 4096#32).toNat = offset.toNat := by
  have := offset.isLt
  rw [BitVec.srem_eq, msb_of_ge offset (by omega)]
  have hmsb : (4096#32).msb = false := rfl
  rw [hmsb]
  simp only [toNat_neg, BitVec.toNat_umod, toNat_ofNat]
  rw [show 4096 % 2 ^ 32 = 4096 from rfl]
  omega

theorem toInt_srem_near :
    (offset.srem 4096#32).toInt = offset.toNat - 2 ^ 32 := by
  have hs := toNat_srem_near offset h
  rw [toInt_of_ge _ (by omega), hs]

/-- A turn in front of the first block copies all that is asked for. -/
theorem chunk_near (hlt : offset.toNat + count.toNat < 2 ^ 32) :
    (chunk offset (offset.signExtend 64 + count)).toNat = count.toNat := by
  have ha : ((4096#32 - offset.srem 4096#32).signExtend 64).toNat =
      4096 + (2 ^ 32 - offset.toNat) := by
    have hsub : (4096#32 - offset.srem 4096#32).toNat = 4096 + (2 ^ 32 - offset.toNat) := by
      rw [toNat_sub, toNat_srem_near offset h, toNat_ofNat]
      omega
    rw [toNat_signExtend (by omega), hsub]
  have hb : offset.signExtend 64 + count - offset.signExtend 64 = count := by
    rw [BitVec.add_comm, BitVec.add_sub_cancel]
  unfold chunk
  simp only [hb, BitVec.le_def, ha]
  rw [if_neg (by omega), BitVec.toNat_setWidth]
  omega

end

variable {σ : Type} (act : Mem → Nat → Nat → σ → Mem × σ) (m : Mem) (f : Nat) (x : σ)

/-- The loop without a turn. -/
theorem fileLoop_skip (h : 2 ^ 31 ≤ offset.toNat)
    (hlt : count.toNat = 0 ∨ 2 ^ 32 ≤ offset.toNat + count.toNat) (n : Nat) :
    fileLoop act f (offset.signExtend 64 + count) (n + 1) offset (m, x) =
      some (.ok (), (m, x)) := by
  unfold fileLoop
  rw [if_neg]
  rw [guard_neg offset count h]
  omega

/-- The loop far in front of the file: there is no such block. -/
theorem fileLoop_far (h : 2 ^ 31 ≤ offset.toNat) (hfar : offset.toNat + 4096 ≤ 2 ^ 32)
    (hpos : 0 < count.toNat) (hlt : offset.toNat + count.toNat < 2 ^ 32) (n : Nat) :
    fileLoop act f (offset.signExtend 64 + count) (n + 1) offset (m, x) =
      some (.error eInval, (m, x)) := by
  have hget : fileGetBlock m f (offset.sdiv 4096#32).toNat = some (.error eInval, m) := by
    unfold fileGetBlock fileBlockWalk
    rw [if_pos (sdiv_far offset h hfar)]
    rfl
  unfold fileLoop
  rw [if_pos ((guard_neg offset count h).2 ⟨hpos, hlt⟩), hget]

/-- The loop just in front of the file: one turn, which copies in front of the
    first block. -/
theorem fileLoop_near (h : 2 ^ 32 < offset.toNat + 4096) (hpos : 0 < count.toNat)
    (hlt : offset.toNat + count.toNat < 2 ^ 32) {blk : Nat}
    (hget : fileGetBlock m f 0 = some (.ok blk, m')) :
    fileLoop act f (offset.signExtend 64 + count) 1036 offset (m, x) =
      some (.ok (), act m' (blk - (2 ^ 32 - offset.toNat)) count.toNat x) := by
  have hbn := chunk_near offset count h hlt
  have haddr : ((blk : Int) + (offset.srem 4096#32).toInt).toNat =
      blk - (2 ^ 32 - offset.toNat) := by
    rw [toInt_srem_near offset h]
    omega
  -- the position after the turn is the end of the request
  have hnext : (offset + chunk offset (offset.signExtend 64 + count)).signExtend 64 =
      offset.signExtend 64 + count := by
    have hn : (offset + chunk offset (offset.signExtend 64 + count)).toNat =
        offset.toNat + count.toNat := by
      rw [toNat_add, hbn]
      omega
    apply BitVec.eq_of_toNat_eq
    rw [toNat_signExtend_neg _ (by omega), hn, toNat_add,
      toNat_signExtend_neg offset (by omega)]
    omega
  unfold fileLoop
  rw [if_pos ((guard_neg offset count (by omega)).2 ⟨hpos, hlt⟩), sdiv_near offset h, hget]
  simp only [haddr, hbn]
  unfold fileLoop
  rw [hnext, if_neg (by rw [BitVec.lt_def]; exact Nat.lt_irrefl _)]

end

/-- A position and a number of bytes for which no copy leaves the file: the
    position is not negative, nothing is asked for, or the position is a block or
    more in front of the file and the request ends there too. -/
def Harmless (offset : BitVec 32) (n : Nat) : Prop :=
  0 ≤ offset.toInt ∨ n = 0 ∨ (offset.toInt ≤ -4096 ∧ (n : Int) < -offset.toInt)

theorem confined_nil (f : Nat) (h : r ≤ 0) : Confined f r [] :=
  ⟨fun _ hy => absurd hy List.not_mem_nil, fun h0 => Int.le_antisymm h h0⟩

/-- In a harmless request with a negative position no byte is copied. -/
theorem fileLoop_harmless (act : Mem → Nat → Nat → σ → Mem × σ) (m : Mem) (f : Nat) (x : σ)
    (hneg : 2 ^ 31 ≤ offset.toNat) (h : Harmless offset count.toNat) :
    ∃ r, (fileLoop act f (offset.signExtend 64 + count) 1036 offset (m, x)).map
      (counted count) = some (r, m, x) ∧ Confined f r [] := by
  unfold Harmless at h
  rw [toInt_of_ge offset hneg] at h
  by_cases h0 : count.toNat = 0
  · rw [fileLoop_skip offset count act m f x hneg (.inl h0)]
    refine ⟨_, rfl, confined_nil f ?_⟩
    have hzero : count = 0 := BitVec.eq_of_toNat_eq h0
    rw [hzero]
    decide
  · rw [fileLoop_far offset count act m f x hneg (by omega) (by omega) (by omega)]
    exact ⟨_, rfl, confined_nil f (by decide)⟩

theorem Harmless.mono {n' : Nat} (h : Harmless offset n) (hle : n' ≤ n) :
    Harmless offset n' := by
  unfold Harmless at h ⊢
  omega

theorem not_harmless (h : ¬Harmless offset n) :
    2 ^ 31 ≤ offset.toNat ∧ 0 < n ∧
      (2 ^ 32 < offset.toNat + 4096 ∨ 2 ^ 32 ≤ offset.toNat + n) := by
  unfold Harmless at h
  rw [BitVec.toInt_eq_toNat_cond] at h
  have := offset.isLt
  split at h <;> omega

/-- Harmless requests are confined to the file. -/
theorem fileReadBy_confined (hact : Local act) (x : σ) (hs : Sane m) (ho : Owns m f)
    (h : Harmless offset count.toNat) :
    ∃ r m' log x', fileReadBy (logged act) m f count offset ([], x) = some (r, m', log, x') ∧
      Confined f r log := by
  by_cases hoff : offset.toNat < 2 ^ 31
  · rcases fileReadBy_log hact count x hs ho hoff with ⟨r, m', log, x', hrun, -, hc⟩
    exact ⟨r, m', log, x', hrun, hc⟩
  · unfold fileReadBy
    by_cases hend : (fSize m f).sle offset = true
    · exact ⟨0, m, [], x, if_pos hend, confined_nil f (Int.le_refl 0)⟩
    · rw [if_neg hend]
      simp only
      generalize hcount : (if count ≤ (fSize m f - offset).signExtend 64 then count
        else (fSize m f - offset).signExtend 64) = count'
      have hle : count'.toNat ≤ count.toNat := by
        rw [← hcount, toNat_ite_le]
        exact Nat.min_le_left _ _
      rcases fileLoop_harmless (logged act) m f ([], x) (by omega) (h.mono hle) with
        ⟨r, hrun, hc⟩
      exact ⟨r, m, [], x, hrun, hc⟩

theorem fileWriteBy_confined (hact : Local act) (x : σ) (hs : Sane m) (ho : Owns m f)
    (hcount : count.toNat < 2 ^ 31) (h : Harmless offset count.toNat) :
    ∃ r m' log x', fileWriteBy (logged act) m f count offset ([], x) = some (r, m', log, x') ∧
      Confined f r log := by
  by_cases hoff : offset.toNat < 2 ^ 31
  · rcases fileWriteBy_log hact count x hs ho hoff with ⟨r, m', log, x', hrun, -, hc⟩
    exact ⟨r, m', log, x', hrun, hc hcount⟩
  · rcases extend_step (offset.signExtend 64 + count) ho with ⟨m1, hroom, -⟩
    unfold fileWriteBy
    simp only [hroom, Option.bind_some]
    rcases fileLoop_harmless (logged act) m1 f ([], x) (by omega) h with ⟨r, hrun, hc⟩
    exact ⟨r, m1, [], x, hrun, hc⟩

/-! ## The other requests leave the file -/

/-- The only block that the file of `oneFile` can have. -/
theorem oneFile_owned {b : Nat} (h : FileStep oneFile m 12288) (hb : Owned m 12288 b) : b = 4 := by
  have hfree : ∀ b < 5, blockIsFree oneFile b = true → b = 4 := by decide
  rcases h.pool b (.inr hb) with hf | ho
  · exact hfree b (lt_of_lt_of_eq (free_lt hf) (by decide)) hf
  · exact absurd ho (oneFile_entry.2 b)

/-- A copy just in front of the file is in the block of the directory. -/
theorem fileLoop_foreign (act : Mem → Nat → Nat → σ → Mem × σ) (x : σ)
    (hstep : FileStep oneFile m 12288) (hfree : blockIsFree m 4 = true) (offset : BitVec 32)
    (count : BitVec 64) (h : 2 ^ 32 < offset.toNat + 4096) (hpos : 0 < count.toNat)
    (hlt : offset.toNat + count.toNat < 2 ^ 32) :
    ∃ m' y x', fileLoop (logged act) 12288 (offset.signExtend 64 + count) 1036 offset
      (m, ([], x)) = some (.ok (), (m', ([y], x'))) ∧ ¬y.Within 12288 := by
  have hs := hstep.sane oneFile_entry.1 oneFile_sane
  rcases (fileGetBlock_spec 0 hs hstep.owns).ends with ⟨e, m', -, -, -, -, -, hfull⟩ |
    ⟨blk, m', hres, rfl, hgot⟩
  · -- there is a free block
    have hused := hfull (by omega) 4 (by omega)
    rw [hfree] at hused
    cases hused
  · have hstep' := hstep.trans hgot.grows.fileStep
    have hslot : slot m' 12288 0 = 4 :=
      oneFile_owned hstep' ⟨hgot.here, 0, by omega, rfl⟩
    have hrun := fileLoop_near offset count (logged act) m 12288 ([], x) h hpos hlt hres
    rw [hslot] at hrun
    refine ⟨_, _, _, hrun, fun hin => ?_⟩
    have hown := hin (4 * 4096 - (2 ^ 32 - offset.toNat)) le_rfl
      (Nat.lt_add_of_pos_right hpos)
    have := oneFile_owned hstep' hown
    omega

/-- The loop over `oneFile` when a request is not harmless. -/
theorem fileLoop_wild (hstep : FileStep oneFile m 12288) (hfree : blockIsFree m 4 = true)
    (hle : count.toNat ≤ 4096) (h : ¬Harmless offset count.toNat)
    (hrun : (fileLoop (logged act) 12288 (offset.signExtend 64 + count) 1036 offset
      (m, ([], x))).map (counted count) = some (r, m', log, x')) : ¬Confined 12288 r log := by
  rcases not_harmless h with ⟨hneg, hpos, hcase⟩
  by_cases hskip : 2 ^ 32 ≤ offset.toNat + count.toNat
  · -- nothing is copied, and yet a count is returned
    rw [fileLoop_skip offset count (logged act) m 12288 ([], x) hneg (.inr hskip),
      Option.map_some, Option.some.injEq] at hrun
    simp only [counted] at hrun
    cases hrun
    intro hc
    have hr := hc.2
    rw [asInt_of_lt _ (by omega)] at hr
    have := hr (Int.natCast_nonneg _)
    have h0 : total [] = 0 := rfl
    omega
  · rcases fileLoop_foreign act x hstep hfree offset count (by omega) hpos (by omega) with
      ⟨m1, y, x1, hloop, hout⟩
    rw [hloop, Option.map_some, Option.some.injEq] at hrun
    simp only [counted] at hrun
    cases hrun
    exact fun hc => hout (hc.1 y List.mem_cons_self)

theorem oneFile_size : fSize oneFile 12288 = 0#32 := by decide

theorem oneFile_free : blockIsFree oneFile 4 = true := by decide

/-- A read of `oneFile` that is not harmless. -/
theorem fileReadBy_wild (hle : count.toNat ≤ 4096) (h : ¬Harmless offset count.toNat)
    (hrun : fileReadBy (logged act) oneFile 12288 count offset ([], x) = some (r, m', log, x')) :
    ¬Confined 12288 r log := by
  rcases not_harmless h with ⟨hneg, hpos, hcase⟩
  have hlt := offset.isLt
  have hint := toInt_of_ge offset hneg
  have hend : ¬(fSize oneFile 12288).sle offset = true := by
    rw [oneFile_size, BitVec.sle_iff_toInt_le, hint, BitVec.toInt_zero]
    omega
  have hrest : ((fSize oneFile 12288 - offset).signExtend 64).toNat = 2 ^ 32 - offset.toNat := by
    have hsub : (fSize oneFile 12288 - offset).toNat = 2 ^ 32 - offset.toNat := by
      rw [oneFile_size, toNat_sub, BitVec.toNat_zero]
      omega
    rw [toNat_signExtend (by omega), hsub]
  unfold fileReadBy at hrun
  rw [if_neg hend] at hrun
  -- the file is empty, so that the distance to its beginning bounds the request
  refine fileLoop_wild (FileStep.refl oneFile_entry.1) oneFile_free ?_ ?_
    hrun
  · rw [toNat_ite_le]
    omega
  · rw [toNat_ite_le, hrest]
    unfold Harmless
    rw [hint]
    omega

/-- Changing the size of the empty file has no effect on the bitmap. -/
theorem oneFile_setSize (size : BitVec 32) :
    fileSetSize oneFile 12288 size = some (setSize oneFile 12288 size) := by
  have htrunc : fileTruncateBlocks oneFile 12288 size = some oneFile := by
    have hold : sizeBlocks (fSize oneFile 12288) = 0 := by decide
    have hind : fIndirect oneFile 12288 = 0 := by decide
    unfold fileTruncateBlocks
    simp only [hold, Nat.zero_sub]
    exact if_neg fun h => h.2 hind
  unfold fileSetSize
  rw [htrunc]
  split <;> rfl

/-- A write to `oneFile` that is not harmless. -/
theorem fileWriteBy_wild (hle : count.toNat ≤ 4096) (h : ¬Harmless offset count.toNat)
    (hrun : fileWriteBy (logged act) oneFile 12288 count offset ([], x) = some (r, m', log, x')) :
    ¬Confined 12288 r log := by
  unfold fileWriteBy at hrun
  simp only [oneFile_setSize] at hrun
  split at hrun
  · have hset := setSize_step oneFile_entry.1 ((offset.signExtend 64 + count).setWidth 32)
    exact fileLoop_wild hset.1 (by rw [hset.2.2]; exact oneFile_free) hle h hrun
  · exact fileLoop_wild (FileStep.refl oneFile_entry.1) oneFile_free hle h hrun

/-! ## The requests of clients -/

/-- The request is for an open file of a consistent file system. -/
structure Opened (s : Server) (page : Mem) (i f : Nat) (fd : Fd) : Prop where
  lookup : openfileLookup s (reqFileid page) = some i
  file : (s.opentab i).file = some f
  desc : s.fd i = some fd
  sane : Sane s.disk
  owns : Owns s.disk f

/-- The number of bytes that `serve_read` asks for. -/
def readCount (page : Mem) : BitVec 64 := if reqN page ≤ 4096 then reqN page else 4096

theorem toNat_readCount (page : Mem) : (readCount page).toNat = min (reqN page).toNat 4096 :=
  toNat_ite_le _ _

theorem toNat_writeCount (page : Mem) : (writeCount page).toNat = min (reqN page).toNat 4084 :=
  toNat_ite_le _ _

/-- `serve_read` reads only from blocks of the file, and counts what it reads. -/
def ReadConfined (s : Server) (page : Mem) (f : Nat) : Prop :=
  ∃ r s' log buf, serveReadBy (logged readChunk) s page ([], []) = some (r, s', log, buf) ∧
    Confined f r log

/-- `serve_write` writes only to blocks of the file, and counts what it writes. -/
def WriteConfined (s : Server) (page : Mem) (f : Nat) : Prop :=
  ∃ r s' log buf, serveWriteBy (logged writeChunk) s page ([], writeBytes s page) =
    some (r, s', log, buf) ∧ Confined f r log

namespace Opened

variable {s : Server} {page : Mem} {i f : Nat} {fd : Fd} (h : Opened s page i f fd)
include h

theorem serveReadBy_eq (act : Mem → Nat → Nat → σ → Mem × σ) (x : σ) :
    serveReadBy act s page x =
      (fileReadBy act s.disk f (readCount page) fd.offset x).map fun r =>
        (r.1, if r.1 < 0 then s.setDisk r.2.1 else (s.setDisk r.2.1).advance i r.1, r.2.2) := by
  unfold serveReadBy withFile
  rw [h.lookup]
  simp only [h.file, h.desc, Option.bind_some]
  rfl

theorem serveWriteBy_eq (act : Mem → Nat → Nat → σ → Mem × σ) (x : σ) :
    serveWriteBy act s page x =
      (fileWriteBy act s.disk f (writeCount page) fd.offset x).map fun r =>
        (r.1, (s.setDisk r.2.1).advance i r.1, r.2.2) := by
  unfold serveWriteBy withFile
  rw [h.lookup]
  simp only [h.file, h.desc, Option.bind_some]

theorem readConfined_iff :
    ReadConfined s page f ↔ ∃ r m' log buf,
      fileReadBy (logged readChunk) s.disk f (readCount page) fd.offset ([], []) =
        some (r, m', log, buf) ∧ Confined f r log := by
  unfold ReadConfined
  rw [h.serveReadBy_eq]
  rcases fileReadBy (logged readChunk) s.disk f (readCount page) fd.offset ([], []) with
    _ | ⟨r, m', log, buf⟩
  · simp
  · simp

theorem writeConfined_iff :
    WriteConfined s page f ↔ ∃ r m' log buf,
      fileWriteBy (logged writeChunk) s.disk f (writeCount page) fd.offset
        ([], writeBytes s page) = some (r, m', log, buf) ∧ Confined f r log := by
  unfold WriteConfined
  rw [h.serveWriteBy_eq]
  rcases fileWriteBy (logged writeChunk) s.disk f (writeCount page) fd.offset
    ([], writeBytes s page) with _ | ⟨r, m', log, buf⟩
  · simp
  · simp

end Opened

/-- The server with the file of `oneFile` open at some position. -/
def openAt (offset : BitVec 32) : Server where
  disk := oneFile
  opentab := fun _ => ⟨1024, some 12288, 2⟩
  fdPage := fun _ => some ⟨⟨102, offset, 2, 1024⟩, 1⟩
  request := none

/-- A request for `n` bytes of that file. -/
def asking (n : BitVec 64) : Mem := store (store (fun _ => 0) 4 0 1024) 8 8 n.toNat

theorem reqN_asking (n : BitVec 64) : reqN (asking n) = n := by
  unfold reqN asking
  rw [load_store_at, Nat.mod_eq_of_lt (show n.toNat < 256 ^ 8 from n.isLt), BitVec.ofNat_toNat,
    BitVec.setWidth_eq]

theorem opened_openAt (offset : BitVec 32) {page : Mem} (hid : reqFileid page = 1024) :
    Opened (openAt offset) page 0 12288 ⟨102, offset, 2, 1024⟩ := by
  refine ⟨?_, rfl, rfl, oneFile_sane, oneFile_entry.1⟩
  rw [hid]
  rfl

theorem reqFileid_asking (n : BitVec 64) : reqFileid (asking n) = 1024 := by
  unfold reqFileid asking
  rw [load_store_off _ _ (by omega), load_store_at]
  rfl

/-- Which positions and sizes confine a request to its file, whatever the state
    of the file system. -/
theorem confined_iff (offset : BitVec 32) (n : BitVec 64) :
    ((∀ s page i f fd, Opened s page i f fd → fd.offset = offset → reqN page = n →
        ReadConfined s page f) ↔ Harmless offset (min n.toNat 4096)) ∧
    ((∀ s page i f fd, Opened s page i f fd → fd.offset = offset → reqN page = n →
        WriteConfined s page f) ↔ Harmless offset (min n.toNat 4084)) := by
  have hopen := opened_openAt offset (reqFileid_asking n)
  refine ⟨⟨?_, ?_⟩, ?_, ?_⟩
  · intro hall
    by_contra hwild
    rcases hopen.readConfined_iff.1 (hall _ _ _ _ _ hopen rfl (reqN_asking n)) with
      ⟨r, m', log, buf, hrun, hc⟩
    refine fileReadBy_wild ?_ ?_ hrun hc
    · rw [toNat_readCount]
      omega
    · rwa [toNat_readCount, reqN_asking]
  · rintro h s page i f fd ho rfl rfl
    refine ho.readConfined_iff.2 (fileReadBy_confined readChunk_local []
      ho.sane ho.owns ?_)
    rwa [toNat_readCount]
  · intro hall
    by_contra hwild
    rcases hopen.writeConfined_iff.1 (hall _ _ _ _ _ hopen rfl (reqN_asking n)) with
      ⟨r, m', log, buf, hrun, hc⟩
    refine fileWriteBy_wild ?_ ?_ hrun hc
    · rw [toNat_writeCount]
      omega
    · rwa [toNat_writeCount, reqN_asking]
  · rintro h s page i f fd ho rfl rfl
    refine ho.writeConfined_iff.2 (fileWriteBy_confined writeChunk_local _
      ho.sane ho.owns ?_ ?_)
    · rw [toNat_writeCount]
      omega
    · rwa [toNat_writeCount]

/-- One byte at position -2: it is in the block of the directory. -/
theorem not_confined : ∃ fd, Opened (openAt (-2)) (asking 1) 0 12288 fd ∧ fd.offset = -2 ∧
    reqN (asking 1) = 1 ∧ ¬ReadConfined (openAt (-2)) (asking 1) 12288 ∧
    ¬WriteConfined (openAt (-2)) (asking 1) 12288 := by
  have hopen := opened_openAt (-2) (reqFileid_asking 1)
  have hcount : (readCount (asking 1)).toNat = 1 ∧ (writeCount (asking 1)).toNat = 1 := by
    rw [toNat_readCount, toNat_writeCount, reqN_asking]
    decide
  have hwild : ¬Harmless (-2) 1 := by
    unfold Harmless
    decide
  refine ⟨_, hopen, rfl, reqN_asking 1, ?_, ?_⟩
  · rw [hopen.readConfined_iff]
    rintro ⟨r, m', log, buf, hrun, hc⟩
    exact fileReadBy_wild (by rw [hcount.1]; decide)
      (by rwa [hcount.1]) hrun hc
  · rw [hopen.writeConfined_iff]
    rintro ⟨r, m', log, buf, hrun, hc⟩
    exact fileWriteBy_wild (by rw [hcount.2]; decide)
      (by rwa [hcount.2]) hrun hc

end Jos.Fs
