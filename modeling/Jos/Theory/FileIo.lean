import Jos.Theory.Files

/-!
# Reading and Writing Files

The loop of `file_read` and `file_write` for offsets that are not negative: the
machine arithmetic is that of the natural numbers, the loop ends, and every
turn copies bytes of one block of the file.

## Main definitions

* `Access`, `logged`: The copies that are made.
* `byteAt`: The byte at a position of a file.
* `Reached`: The slots after the loop has come to a position.
* `Wrote`: The contents after a write has come to a position.

## Theorems

* `fileLoop_rule`: The invariant rule of the loop.
* `fileRead_spec`: What a read returns.
* `fileWrite_spec`: What a write leaves.
-/

namespace Jos.Fs

open Lib.Bytes (load store load_lt store_off load_store_off load_store_at load_same load_zero)
open BitVec (ofNat toInt_eq_toNat_cond toInt_eq_toNat_of_lt toNat_add toNat_ofNat toNat_setWidth
  toNat_sub)

variable {size pos offset : BitVec 32} {m0 m m' : Mem} {lo p q : Nat} {buf : List (BitVec 8)}
  {σ : Type}

/-! ## Arithmetic -/

theorem msb_of_lt (h : pos.toNat < 2 ^ 31) : pos.msb = false := by
  rw [BitVec.msb_eq_decide]
  exact decide_eq_false (by omega)

theorem toNat_of_nonneg (h : 0 ≤ pos.toInt) : pos.toNat < 2 ^ 31 := by
  rw [toInt_eq_toNat_cond] at h
  have := pos.isLt
  split at h <;> omega

theorem toNat_signExtend (h : pos.toNat < 2 ^ 31) : (pos.signExtend 64).toNat = pos.toNat := by
  rw [BitVec.signExtend_eq_setWidth_of_msb_false (msb_of_lt h), toNat_setWidth]
  exact Nat.mod_eq_of_lt (by omega)

theorem toNat_sdiv (h : pos.toNat < 2 ^ 31) : (pos.sdiv 4096#32).toNat = pos.toNat / 4096 := by
  rw [BitVec.sdiv_eq, msb_of_lt h]
  rfl

theorem toNat_srem (pos : BitVec 32) (h : pos.toNat < 2 ^ 31) :
    (pos.srem 4096#32).toNat = pos.toNat % 4096 := by
  rw [BitVec.srem_eq, msb_of_lt h]
  rfl

theorem toInt_srem (h : pos.toNat < 2 ^ 31) : (pos.srem 4096#32).toInt = pos.toNat % 4096 := by
  have hs := toNat_srem pos h
  rw [toInt_eq_toNat_of_lt (by omega), hs]
  rfl

theorem sizeBlocks_eq (h : size.toNat < 2 ^ 31 - 4096) :
    sizeBlocks size = (size.toNat + 4095) / 4096 := by
  have hadd : (size + 4095).toNat = size.toNat + 4095 := by
    rw [toNat_add, show (4095 : BitVec 32).toNat = 4095 from rfl]
    omega
  unfold sizeBlocks
  refine (toNat_sdiv (by omega)).trans ?_
  rw [hadd]

theorem slt_iff {a b : BitVec 32} (ha : a.toNat < 2 ^ 31) (hb : b.toNat < 2 ^ 31) :
    a.slt b = true ↔ a.toNat < b.toNat := by
  rw [BitVec.slt_iff_toInt_lt, toInt_eq_toNat_of_lt (by omega),
    toInt_eq_toNat_of_lt (by omega)]
  omega

/-- A turn copies up to the end of the block or the end of the request. -/
theorem toNat_chunk {stop : BitVec 64} (h : pos.toNat < 2 ^ 31) (hlt : pos.toNat < stop.toNat) :
    (chunk pos stop).toNat = min (4096 - pos.toNat % 4096) (stop.toNat - pos.toNat) := by
  have hs := toNat_srem pos h
  have ha : ((4096#32 - pos.srem 4096#32).signExtend 64).toNat = 4096 - pos.toNat % 4096 := by
    have hsub : (4096#32 - pos.srem 4096#32).toNat = 4096 - pos.toNat % 4096 := by
      rw [toNat_sub, hs, toNat_ofNat]
      omega
    rw [toNat_signExtend (by omega), hsub]
  have hb : (stop - pos.signExtend 64).toNat = stop.toNat - pos.toNat := by
    rw [toNat_sub, toNat_signExtend h]
    have := stop.isLt
    omega
  unfold chunk
  simp only [BitVec.le_def, ha, hb]
  split
  · rw [toNat_setWidth, ha]
    omega
  · rw [toNat_setWidth, hb]
    omega

/-- The next position of the loop. -/
def next (p stop : Nat) : Nat := p + min (4096 - p % 4096) (stop - p)

/-- A turn makes progress, within the block and the request. -/
theorem next_spec {stop : Nat} (h : p < stop) :
    p < next p stop ∧ next p stop ≤ stop ∧ p % 4096 + (next p stop - p) ≤ 4096 := by
  unfold next
  omega

theorem next_block {stop : Nat} (hp : p ≤ q) (hq : q < next p stop) : q / 4096 = p / 4096 := by
  unfold next at hq
  omega

/-! ## The loop -/

section

variable {σ : Type} (act : Mem → Nat → Nat → σ → Mem × σ) (f : Nat) (stop : BitVec 64)

/-- The invariant rule. A turn at `p` that finds its block copies the bytes up
    to `next p`; the loop ends at `stop` or with the error of `file_get_block`.
    The fuel is enough for a turn at every block there can be. -/
theorem fileLoop_rule (I : Nat → Mem → σ → Prop) (E : Int → Mem → σ → Prop) (S : Prop)
    (hturn : ∀ p m x, p < stop.toNat → I p m x →
      (fileGetBlock m f (p / 4096)).Sat
        (fun blk m' => p / 4096 < 1034 ∧
          I (next p stop.toNat)
            (act m' (blk + p % 4096) (next p stop.toNat - p) x).1
            (act m' (blk + p % 4096) (next p stop.toNat - p) x).2)
        (fun e m' => E e m' x) S) (n : Nat) :
    ∀ (pos : BitVec 32) (m : Mem) (x : σ), pos.toNat < 2 ^ 31 → 1 ≤ n →
      (1036 ≤ n + pos.toNat / 4096 ∨ stop.toNat ≤ pos.toNat) → I pos.toNat m x →
      (fileLoop act f stop n pos (m, x)).Sat
        (fun _ s => ∃ p, stop.toNat ≤ p ∧ (p = stop.toNat ∨ p = pos.toNat) ∧ I p s.1 s.2)
        (fun e s => E e s.1 s.2) S := by
  induction n with
  | zero => intro pos m x _ h1; omega
  | succ n ih =>
    intro pos m x hpos _ hfuel hI
    have hlt : pos.signExtend 64 < stop ↔ pos.toNat < stop.toNat := by
      rw [BitVec.lt_def, toNat_signExtend hpos]
    unfold fileLoop
    by_cases hend : pos.signExtend 64 < stop
    · rw [if_pos hend, toNat_sdiv hpos]
      rw [hlt] at hend
      have ht := hturn pos.toNat m x hend hI
      rcases hget : fileGetBlock m f (pos.toNat / 4096) with _ | ⟨e | blk, m'⟩
      · rwa [hget] at ht
      · rwa [hget] at ht
      · rw [hget] at ht
        have hk := ht.1
        have hI' := ht.2
        -- the machine's numbers are the natural ones as long as no sign comes up
        have hbn := toNat_chunk hpos hend
        have hstep : next pos.toNat stop.toNat - pos.toNat = (chunk pos stop).toNat := by
          unfold next
          omega
        have haddr : ((blk : Int) + (pos.srem 4096#32).toInt).toNat = blk + pos.toNat % 4096 := by
          rw [toInt_srem hpos]
          omega
        have hnext : (pos + chunk pos stop).toNat = next pos.toNat stop.toNat := by
          unfold next
          rw [toNat_add, hbn]
          omega
        rw [hstep] at hI'
        simp only [haddr]
        have hrest := ih (pos + chunk pos stop)
          (act m' (blk + pos.toNat % 4096) (chunk pos stop).toNat x).1
          (act m' (blk + pos.toNat % 4096) (chunk pos stop).toNat x).2
          (by rw [hnext]; unfold next; omega) (by omega)
          (by rw [hnext]; unfold next; omega) (by rwa [hnext])
        refine hrest.mono ?_ (fun e s h => h) id
        rintro - s ⟨p, hp, hpeq, hIp⟩
        refine ⟨p, hp, .inl ?_, hIp⟩
        rcases hpeq with hpeq | hpeq
        · exact hpeq
        · rw [hnext] at hpeq
          unfold next at hpeq
          omega
    · rw [if_neg hend]
      rw [hlt] at hend
      exact ⟨pos.toNat, by omega, .inr rfl, hI⟩

end

/-! ## The log of copies -/

/-- One `memmove` between the disk and a buffer: the disk at that time, and the
    bytes of it. -/
structure Access where
  mem : Mem
  addr : Nat
  len : Nat

/-- Copy, and note it. -/
def logged {σ : Type} (act : Mem → Nat → Nat → σ → Mem × σ) (m : Mem) (a n : Nat)
    (x : List Access × σ) : Mem × (List Access × σ) :=
  ((act m a n x.2).1, (x.1 ++ [⟨m, a, n⟩], (act m a n x.2).2))

section

variable {σ : Type} (act : Mem → Nat → Nat → σ → Mem × σ)

/-- The log does not change a run. -/
theorem fileLoop_logged (f : Nat) (stop : BitVec 64) (n : Nat) :
    ∀ (pos : BitVec 32) (m : Mem) (l : List Access) (x : σ),
      (fileLoop (logged act) f stop n pos (m, (l, x))).map (fun r => (r.1, (r.2.1, r.2.2.2))) =
        fileLoop act f stop n pos (m, x) := by
  induction n with
  | zero => intro pos m l x; rfl
  | succ n ih =>
    intro pos m l x
    unfold fileLoop
    by_cases hlt : pos.signExtend 64 < stop
    · rw [if_pos hlt, if_pos hlt]
      rcases fileGetBlock m f (pos.sdiv 4096#32).toNat with _ | ⟨e | blk, m'⟩
      · rfl
      · rfl
      · exact ih _ _ _ _
    · rw [if_neg hlt, if_neg hlt]
      rfl

theorem map_counted_logged (count : BitVec 64)
    (r : Option (Except Int Unit × Mem × (List Access × σ))) :
    (r.map (counted count)).map (fun r => (r.1, r.2.1, r.2.2.2)) =
      (r.map fun r => (r.1, (r.2.1, r.2.2.2))).map (counted count) := by
  rcases r with _ | ⟨e | u, m, l, x⟩ <;> rfl

theorem fileWriteBy_logged (m : Mem) (f : Nat) (count : BitVec 64) (offset : BitVec 32)
    (l : List Access) (x : σ) :
    (fileWriteBy (logged act) m f count offset (l, x)).map (fun r => (r.1, r.2.1, r.2.2.2)) =
      fileWriteBy act m f count offset x := by
  unfold fileWriteBy
  simp only
  split
  · rcases fileSetSize m f ((offset.signExtend 64 + count).setWidth 32) with _ | m1
    · rfl
    · simp only [Option.bind_some, map_counted_logged, fileLoop_logged]
  · simp only [Option.bind_some, map_counted_logged, fileLoop_logged]

end

/-- The number of bytes copied. -/
def total (log : List Access) : Nat := (log.map Access.len).sum

theorem total_append (log : List Access) (x : Access) : total (log ++ [x]) = total log + x.len := by
  unfold total
  rw [List.map_append, List.sum_append]
  rfl

/-! ## Contents -/

/-- The byte at position `q` of a file. -/
def byteAt (m : Mem) (f q : Nat) : BitVec 8 := m (slot m f (q / 4096) * 4096 + q % 4096)

/-- The slots when the loop has come from `lo` to `p`: the blocks on the way are
    there, and those that are new were free. -/
structure Reached (m0 m : Mem) (f lo p : Nat) : Prop where
  keep : ∀ k ≤ 1034, slot m0 f k ≠ 0 → slot m f k = slot m0 f k
  fresh : ∀ k ≤ 1034, slot m0 f k = 0 → slot m f k ≠ 0 → blockIsFree m0 (slot m f k) = true
  only : ∀ k < 1034, slot m0 f k = 0 → slot m f k ≠ 0 → lo / 4096 ≤ k ∧ k * 4096 < p ∧ lo < p
  range : ∀ q, lo ≤ q → q < p → q / 4096 < 1034
  present : ∀ q, lo ≤ q → q < p → slot m f (q / 4096) ≠ 0

theorem Reached.start (m : Mem) (f lo : Nat) : Reached m m f lo lo :=
  ⟨fun _ _ _ => rfl, fun _ _ h h' => absurd h h', fun _ _ h h' => absurd h h',
    fun _ h h' => absurd h' (by omega), fun _ h h' => absurd h' (by omega)⟩

/-- A block that is new and free now was free at the start, as the blocks of
    the start are in use. -/
theorem Reached.fresh_of_grows {f : Nat} (h : Reached m0 m f lo p) (ho : Owns m f)
    (hpool : ∀ b, Pool m f b → Pool m0 f b) (hg : Grows m m' f) (k : Nat) (hk : k ≤ 1034)
    (h0 : slot m0 f k = 0) (hne : slot m' f k ≠ 0) :
    blockIsFree m0 (slot m' f k) = true := by
  by_cases hm : slot m f k = 0
  · have hfree := hg.fresh k hk hm hne
    rcases hpool _ (.inl hfree) with hf | ⟨h0', k', hk', he⟩
    · exact hf
    · have hs := h.keep k' hk' (by rwa [he])
      have hused := (ho.valid k' hk' (by rwa [hs, he])).2.2.1
      rw [hs, he, hfree] at hused
      cases hused
  · rw [hg.keep k hk hm]
    exact h.fresh k hk h0 hm

theorem Reached.keep_of_grows {f : Nat} (h : Reached m0 m f lo p) (hg : Grows m m' f) (k : Nat)
    (hk : k ≤ 1034) (hne : slot m0 f k ≠ 0) :
    slot m' f k = slot m0 f k := by
  have hs := h.keep k hk hne
  rw [hg.keep k hk (by rwa [hs]), hs]

/-- A turn of the loop at `p`. -/
theorem Reached.turn {f stop : Nat} (h : Reached m0 m f lo p) (hlo : lo ≤ p) (hstop : p < stop)
    (ho : Owns m f) (hpool : ∀ b, Pool m f b → Pool m0 f b) (hg : GotBlock m m' f (p / 4096)) :
    Reached m0 m' f lo (next p stop) := by
  have hnext := next_spec hstop
  refine ⟨h.keep_of_grows hg.grows, h.fresh_of_grows ho hpool hg.grows, ?_, ?_, ?_⟩
  · intro k hk h0 hne
    by_cases hkp : k = p / 4096
    · exact ⟨hkp ▸ Nat.div_le_div_right hlo, by omega, by omega⟩
    · rw [hg.others k hk hkp] at hne
      have hold := h.only k hk h0 hne
      exact ⟨hold.1, by omega, by omega⟩
  · intro q hq hq'
    by_cases hqp : q < p
    · exact h.range q hq hqp
    · rw [next_block (by omega) hq']
      exact hg.lt
  · intro q hq hq'
    by_cases hqp : q < p
    · have hs := h.present q hq hqp
      rwa [hg.grows.keep _ (Nat.le_of_lt (h.range q hq hqp)) hs]
    · rw [next_block (by omega) hq']
      exact hg.here

/-- A failed turn leaves the slots of data blocks. -/
theorem Reached.stay {f : Nat} (h : Reached m0 m f lo p) (ho : Owns m f)
    (hpool : ∀ b, Pool m f b → Pool m0 f b) (hg : Grows m m' f) (hsame : SameSlots m m' f) :
    Reached m0 m' f lo p := by
  refine ⟨h.keep_of_grows hg, h.fresh_of_grows ho hpool hg, ?_, h.range, ?_⟩
  · intro k hk h0 hne
    rw [hsame k hk] at hne
    exact h.only k hk h0 hne
  · intro q hq hq'
    rw [hsame _ (h.range q hq hq')]
    exact h.present q hq hq'

/-- A file that grows keeps the bytes it has. -/
theorem Grows.byteAt {f : Nat} (h : Grows m m' f) (hq : q / 4096 < 1034)
    (hne : slot m f (q / 4096) ≠ 0) : byteAt m' f q = byteAt m f q := by
  have hs := h.keep _ hq.le hne
  unfold Fs.byteAt
  rw [h.data hq (by rwa [hs]) (Nat.mod_lt q (by decide)), hs]

/-- Blocks that are free afterwards keep their bytes. -/
theorem Grows.idle {f : Nat} (h : Grows m m' f) (hs : Sane m) (b o : Nat)
    (hb : blockIsFree m' b = true) (ho : o < 4096) : m' (b * 4096 + o) = m (b * 4096 + o) := by
  have hblock : (b * 4096 + o) / 4096 = b := by omega
  refine h.bytes _ ?_ ?_ ?_
  · unfold InBitmap
    intro hbm
    have := hs.free_ge (by omega) (h.pool b hb)
    omega
  · intro hf
    have hfits := h.owns.home.fits
    have hhome : f / 4096 = b := by omega
    have hused := h.owns.home.used
    rw [hhome, hb] at hused
    cases hused
  · rw [hblock]
    refine or_iff_not_imp_left.2 fun hz he => ?_
    have hused := (h.owns.indirect_valid hz).2.2.1
    rw [← he, hb] at hused
    cases hused

/-! ## Reading -/

/-- The number of bytes that `file_read` can give. -/
def readable (m : Mem) (f : Nat) (count : BitVec 64) (offset : BitVec 32) : Nat :=
  if (fSize m f).sle offset then 0 else min count.toNat ((fSize m f).toNat - offset.toNat)

/-- `f_size` as a number, where the offset is not negative and before it. -/
theorem toNat_of_not_sle (hoff : offset.toNat < 2 ^ 31) (h : ¬size.sle offset = true) :
    offset.toNat < size.toNat ∧ size.toNat < 2 ^ 31 := by
  rw [BitVec.sle_iff_toInt_le, toInt_eq_toNat_cond, toInt_eq_toNat_cond] at h
  have := size.isLt
  split at h <;> split at h <;> omega

theorem asInt_of_lt (n : BitVec 64) (h : n.toNat < 2 ^ 31) : asInt n = n.toNat := by
  unfold asInt
  have hw : (n.setWidth 32).toNat = n.toNat := by
    rw [toNat_setWidth]
    omega
  rw [toInt_eq_toNat_of_lt (by omega), hw]

/-- A read as a run of the loop over the natural numbers. -/
theorem fileReadBy_loop (act : Mem → Nat → Nat → σ → Mem × σ) {f : Nat} (count : BitVec 64) (x : σ)
    (hoff : offset.toNat < 2 ^ 31) (hlt : ¬(fSize m f).sle offset = true) :
    ∃ stop count' : BitVec 64, stop.toNat = offset.toNat + readable m f count offset ∧
      asInt count' = readable m f count offset ∧
      fileReadBy act m f count offset x =
        (fileLoop act f stop 1036 offset (m, x)).map (counted count') := by
  have hsize := toNat_of_not_sle hoff hlt
  have hrest : ((fSize m f - offset).signExtend 64).toNat = (fSize m f).toNat - offset.toNat := by
    have hsub : (fSize m f - offset).toNat = (fSize m f).toNat - offset.toNat := by
      rw [toNat_sub]
      omega
    rw [toNat_signExtend (by omega), hsub]
  have hn : readable m f count offset = min count.toNat ((fSize m f).toNat - offset.toNat) :=
    if_neg hlt
  unfold fileReadBy
  rw [if_neg hlt]
  simp only [BitVec.le_def, hrest]
  by_cases hc : count.toNat ≤ (fSize m f).toNat - offset.toNat
  · simp only [if_pos hc]
    refine ⟨offset.signExtend 64 + count, count, ?_, ?_, rfl⟩
    · rw [toNat_add, toNat_signExtend hoff]
      omega
    · rw [asInt_of_lt _ (by omega), hn, Nat.min_eq_left hc]
  · simp only [if_neg hc]
    refine ⟨offset.signExtend 64 + (fSize m f - offset).signExtend 64,
      (fSize m f - offset).signExtend 64, ?_, ?_, rfl⟩
    · rw [toNat_add, toNat_signExtend hoff, hrest]
      omega
    · rw [asInt_of_lt _ (by omega), hrest, hn, Nat.min_eq_right (by omega)]

theorem bytes_append (m : Mem) {lo p n : Nat} (f : Nat) (h : p % 4096 + n ≤ 4096) (hlo : lo ≤ p) :
    ((List.range (p - lo)).map fun i => byteAt m f (lo + i)) ++
      bytes m (slot m f (p / 4096) * 4096 + p % 4096) n =
    (List.range (p + n - lo)).map fun i => byteAt m f (lo + i) := by
  have hlen : p + n - lo = (p - lo) + n := by omega
  rw [hlen, List.range_add, List.map_append, List.map_map, List.append_cancel_left_eq]
  unfold bytes
  refine List.map_congr_left fun i hi => ?_
  rw [List.mem_range] at hi
  have hq : lo + (p - lo + i) = p + i := by omega
  have hdiv : (p + i) / 4096 = p / 4096 := by omega
  have hmod : (p + i) % 4096 = p % 4096 + i := by omega
  rw [Function.comp_apply, byteAt, hq, hdiv, hmod, Nat.add_assoc]

/-- The file has all its blocks from `lo` up to `hi`. -/
def Solid (m : Mem) (f lo hi : Nat) : Prop :=
  ∀ q, lo ≤ q → q < hi → q / 4096 < 1034 ∧ slot m f (q / 4096) ≠ 0

/-- What `file_read` returns: all bytes there are up to the end of the file, or
    an error. Either way the file may have got further blocks, but not if it had
    them all. -/
theorem fileRead_spec {f : Nat} (count : BitVec 64) (hs : Sane m) (ho : Owns m f)
    (hoff : offset.toNat < 2 ^ 31) :
    ∃ r out m' p, fileRead m f count offset = some (r, out, m') ∧ Grows m m' f ∧ Sane m' ∧
      Reached m m' f offset.toNat p ∧ p ≤ offset.toNat + readable m f count offset ∧
      (r < 0 ∨ r = readable m f count offset ∧ p = offset.toNat + readable m f count offset ∧
        out = (List.range (readable m f count offset)).map fun i =>
          byteAt m' f (offset.toNat + i)) ∧
      (Solid m f offset.toNat (offset.toNat + readable m f count offset) → 0 ≤ r ∧ m' = m) := by
  by_cases hend : (fSize m f).sle offset = true
  · have hn : readable m f count offset = 0 := if_pos hend
    refine ⟨0, [], m, offset.toNat, ?_, Grows.refl ho, hs, Reached.start m f _, by omega,
      .inr ⟨by rw [hn]; rfl, by rw [hn]; rfl, by rw [hn]; rfl⟩, fun _ => ⟨le_rfl, rfl⟩⟩
    unfold fileRead fileReadBy
    rw [if_pos hend]
    rfl
  · rcases fileReadBy_loop readChunk count [] hoff hend with
      ⟨stop, count', hstop, hcount, hread⟩
    unfold fileRead
    rw [hread]
    -- the bytes before the position are out, and they are those of the file as it is now
    have hloop := fileLoop_rule readChunk f stop
      (fun p m1 out => offset.toNat ≤ p ∧ Grows m m1 f ∧ Reached m m1 f offset.toNat p ∧
        p ≤ stop.toNat ∧ (Solid m f offset.toNat stop.toNat → m1 = m) ∧
        out = (List.range (p - offset.toNat)).map fun i => byteAt m1 f (offset.toNat + i))
      (fun e m1 _ => e < 0 ∧ Grows m m1 f ∧ ¬Solid m f offset.toNat stop.toNat ∧
        ∃ p ≤ stop.toNat, Reached m m1 f offset.toNat p) False
      ?_ 1036 offset m [] hoff (by omega) (.inl (by omega))
      ⟨le_rfl, Grows.refl ho, Reached.start m f _, by omega, fun _ => rfl,
        by rw [Nat.sub_self]; rfl⟩
    · rw [← hstop]
      rcases hloop.ends with ⟨e, ⟨m', out⟩, hres, hneg, hg, hnot, p, hp, hr⟩ |
        ⟨_, ⟨m', out⟩, hres, p, hp, -, -, hg, hr, hp', hsame, hout⟩
      · rw [hres]
        exact ⟨e, out, m', p, rfl, hg, hg.sane hs, hr, hp, .inl hneg,
          fun hall => absurd hall hnot⟩
      · have hpe : p = stop.toNat := by omega
        rw [hres]
        refine ⟨asInt count', out, m', p, rfl, hg, hg.sane hs, hr, hp', .inr ⟨hcount, hpe, ?_⟩,
          fun hall => ⟨hcount ▸ Int.natCast_nonneg _, hsame hall⟩⟩
        refine hout.trans ?_
        rw [hpe, hstop, Nat.add_sub_cancel_left]
    · rintro p m1 out hp ⟨hlo, hg, hr, -, hwhole, hout⟩
      have hpool : ∀ b, Pool m1 f b → Pool m f b := hg.fileStep.pool
      have hget := fileGetBlock_spec (p / 4096) (hg.sane hs) hg.owns
      refine hget.mono ?_ ?_ id
      · rintro blk m2 ⟨rfl, hgot⟩
        have hnext := next_spec hp
        refine ⟨hgot.lt, by omega, hg.trans hgot.grows, hr.turn hlo hp hg.owns hpool hgot,
          hnext.2.1, fun hall => ?_, ?_⟩
        · have hm1 := hwhole hall
          exact (hgot.same (hm1 ▸ (hall p hlo hp).2)).trans hm1
        have hsame : ((List.range (p - offset.toNat)).map fun i => byteAt m1 f (offset.toNat + i)) =
            (List.range (p - offset.toNat)).map fun i => byteAt m2 f (offset.toNat + i) := by
          refine List.map_congr_left fun i hi => ?_
          rw [List.mem_range] at hi
          exact (hgot.grows.byteAt (hr.range _ (by omega) (by omega))
            (hr.present _ (by omega) (by omega))).symm
        have happ := bytes_append m2 f hnext.2.2 hlo
        rwa [show p + (next p stop.toNat - p) = next p stop.toNat by omega, ← hsame, ← hout] at happ
      · rintro e m2 ⟨he, hg', hsame, h0, -⟩
        refine ⟨?_, hg.trans hg', fun hall => ?_, p, by omega, hr.stay hg.owns hpool hg' hsame⟩
        · rcases he with rfl | rfl <;> decide
        · rcases hall p hlo hp with ⟨hlt, hne⟩
          exact hne (hwhole hall ▸ h0 hlt)

/-- If all the blocks are there, a read returns their bytes and changes nothing. -/
theorem fileRead_present {f : Nat} {count : BitVec 64} (hs : Sane m) (ho : Owns m f)
    (hoff : offset.toNat < 2 ^ 31)
    (hall : Solid m f offset.toNat (offset.toNat + readable m f count offset)) :
    fileRead m f count offset = some ((readable m f count offset : Int),
      (List.range (readable m f count offset)).map (fun i => byteAt m f (offset.toNat + i)),
      m) := by
  rcases fileRead_spec count hs ho hoff with ⟨r, out, m', p, hrun, -, -, -, -, hres, hsame⟩
  rcases hsame hall with ⟨hr, rfl⟩
  rcases hres with hneg | ⟨rfl, -, rfl⟩
  · omega
  · exact hrun

/-! ## Writing -/

/-- The contents when a write at `lo` has come to `p`: the bytes of `buf` are
    there, and all others are those at the same place on the disk. -/
structure Wrote (m0 m : Mem) (f lo : Nat) (buf : List (BitVec 8)) (p : Nat) : Prop where
  step : FileStep m0 m f
  sane : Sane m
  reached : Reached m0 m f lo p
  size : fSize m f = fSize m0 f
  fields : ∀ a, f ≤ a → a < f + 256 → ¬(f + 136 ≤ a ∧ a < f + 180) → m a = m0 a
  idle : ∀ b o, blockIsFree m b = true → o < 4096 → m (b * 4096 + o) = m0 (b * 4096 + o)
  bytes : ∀ q, q / 4096 < 1034 → slot m f (q / 4096) ≠ 0 → byteAt m f q =
    if lo ≤ q ∧ q < p then buf.getD (q - lo) 0 else m0 (slot m f (q / 4096) * 4096 + q % 4096)

theorem Wrote.start {f : Nat} (hs : Sane m) (ho : Owns m f) :
    Wrote m m f lo buf lo :=
  ⟨FileStep.refl ho, hs, Reached.start m f lo, rfl, fun _ _ _ _ => rfl, fun _ _ _ _ => rfl,
    fun q _ _ => by rw [if_neg (by omega)]; rfl⟩

/-- `file_get_block` changes no contents: a new block has those it had. -/
theorem Wrote.grow {f : Nat} (h : Wrote m0 m f lo buf p) (hg : Grows m m' f) (q : Nat)
    (hq : q / 4096 < 1034) (hne : slot m' f (q / 4096) ≠ 0)
    (hnew : slot m f (q / 4096) = 0 → ¬(lo ≤ q ∧ q < p)) :
    byteAt m' f q =
      if lo ≤ q ∧ q < p then buf.getD (q - lo) 0
      else m0 (slot m' f (q / 4096) * 4096 + q % 4096) := by
  by_cases h0 : slot m f (q / 4096) = 0
  · rw [if_neg (hnew h0)]
    unfold byteAt
    rw [hg.data hq hne (Nat.mod_lt q (by decide))]
    exact h.idle _ _ (hg.fresh _ hq.le h0 hne) (Nat.mod_lt q (by decide))
  · rw [hg.byteAt hq h0, hg.keep _ hq.le h0]
    exact h.bytes q hq h0

/-- The bytes of a file after bytes were copied into one of its blocks. -/
theorem byteAt_copy {f k : Nat} {o : Nat} {bs : List (BitVec 8)} (hs : Sane m) (ho : Owns m f)
    (hk : k < 1034) (hne : slot m f k ≠ 0) (hfit : o + bs.length ≤ 4096) (hq : q / 4096 < 1034)
    (hqne : slot m f (q / 4096) ≠ 0) :
    byteAt (copy m (slot m f k * 4096 + o) bs) f q =
      if q / 4096 = k ∧ o ≤ q % 4096 ∧ q % 4096 < o + bs.length then bs.getD (q % 4096 - o) 0
      else byteAt m f q := by
  have hout : ∀ a, a / 4096 ≠ slot m f k → copy m (slot m f k * 4096 + o) bs a = m a :=
    fun a ha => if_neg (by omega)
  unfold byteAt
  rw [(FileStep.of_data hs ho hk hne hout).2.1 _ hq.le]
  unfold copy
  by_cases hqk : q / 4096 = k
  · rw [hqk]
    by_cases hin : o ≤ q % 4096 ∧ q % 4096 < o + bs.length
    · rw [if_pos (by omega), if_pos ⟨rfl, hin⟩]
      congr 1
      omega
    · rw [if_neg (by omega), if_neg fun h => hin h.2]
  · -- another block of the file is another block of the disk
    have hother : slot m f (q / 4096) ≠ slot m f k := fun he =>
      hqk (ho.inj _ k hq.le hk.le hqne he)
    rw [if_neg (by omega), if_neg fun h => hqk h.1]

theorem Wrote.turn {f : Nat} (h : Wrote m0 m f lo buf p) (hlo : lo ≤ p) (hp : p < lo + buf.length)
    (hg : GotBlock m m' f (p / 4096)) :
    Wrote m0 (copy m' (slot m' f (p / 4096) * 4096 + p % 4096)
      ((buf.drop (p - lo)).take (next p (lo + buf.length) - p))) f lo buf
      (next p (lo + buf.length)) := by
  have hnext := next_spec hp
  have hlen : ((buf.drop (p - lo)).take (next p (lo + buf.length) - p)).length =
      next p (lo + buf.length) - p := by
    rw [List.length_take, List.length_drop]
    omega
  have hs' := hg.grows.sane h.sane
  have hout : ∀ a, a / 4096 ≠ slot m' f (p / 4096) →
      copy m' (slot m' f (p / 4096) * 4096 + p % 4096)
        ((buf.drop (p - lo)).take (next p (lo + buf.length) - p)) a = m' a := by
    intro a ha
    refine if_neg ?_
    rw [hlen]
    omega
  rcases FileStep.of_data hs' hg.grows.owns hg.lt hg.here hout with ⟨hstep, hslot, hfree, hsize⟩
  have hr := h.reached.turn hlo hp h.step.owns h.step.pool hg
  refine ⟨(h.step.trans hg.grows.fileStep).trans hstep, hstep.sane hg.grows.owns hs', ?_, ?_, ?_,
    ?_,
    ?_⟩
  · refine ⟨?_, ?_, ?_, hr.range, ?_⟩
    · intro k hk hne
      rw [hslot k hk]
      exact hr.keep k hk hne
    · intro k hk h0 hne
      rw [hslot k hk] at hne ⊢
      exact hr.fresh k hk h0 hne
    · intro k hk h0 hne
      rw [hslot k (by omega)] at hne
      exact hr.only k hk h0 hne
    · intro q hq hq'
      rw [hslot _ (Nat.le_of_lt (hr.range q hq hq'))]
      exact hr.present q hq hq'
  · rw [hsize, hg.grows.size, h.size]
  · -- the block that is written to does not hold the structure
    intro a hlo hhi hslots
    have hne := (hg.grows.owns.valid _ hg.lt.le hg.here).2.2.2
    have hfits := hg.grows.owns.home.fits
    rw [hout a (by omega), hg.grows.fields a hlo hhi hslots, h.fields a hlo hhi hslots]
  · intro b o hb ho
    rw [hfree] at hb
    have hne : b ≠ slot m' f (p / 4096) := by
      rintro rfl
      rw [(hg.grows.owns.valid _ hg.lt.le hg.here).2.2.1] at hb
      cases hb
    rw [hout _ (by omega), hg.grows.idle h.sane b o hb ho]
    exact h.idle b o (hg.grows.pool b hb) ho
  · intro q hq hne
    rw [hslot _ hq.le] at hne
    rw [byteAt_copy hs' hg.grows.owns hg.lt hg.here (by rw [hlen]; exact hnext.2.2)
      hq hne, hslot _ hq.le, hlen]
    by_cases hin : p ≤ q ∧ q < next p (lo + buf.length)
    · -- the bytes of this turn
      have hblock := next_block hin.1 hin.2
      rw [if_pos (by omega), if_pos (by omega), List.getD_eq_getElem?_getD,
        List.getElem?_take_of_lt (by omega), List.getElem?_drop, ← List.getD_eq_getElem?_getD]
      congr 1
      omega
    · have hrest : ¬(q / 4096 = p / 4096 ∧ p % 4096 ≤ q % 4096 ∧
          q % 4096 < p % 4096 + (next p (lo + buf.length) - p)) := by omega
      rw [if_neg hrest, h.grow hg.grows q hq hne]
      · have hiff : (lo ≤ q ∧ q < p) ↔ (lo ≤ q ∧ q < next p (lo + buf.length)) := by omega
        simp only [hiff]
      · intro h0 hq'
        exact h.reached.present q hq'.1 hq'.2 h0

/-- The disk after `file_write` has made room for `n` bytes. -/
def extended (m : Mem) (f n : Nat) : Mem :=
  if (fSize m f).toNat < n then setSize m f (ofNat 32 n) else m

theorem extended_step {f : Nat} (ho : Owns m f) (n : Nat) :
    FileStep m (extended m f n) f ∧ (∀ k ≤ 1034, slot (extended m f n) f k = slot m f k) ∧
      ∀ b, blockIsFree (extended m f n) b = blockIsFree m b := by
  unfold extended
  split
  · exact setSize_step ho _
  · exact ⟨FileStep.refl ho, fun _ _ => rfl, fun _ => rfl⟩

/-- Extending a file changes no byte outside of its structure. -/
theorem extended_bytes (m : Mem) (f n a : Nat) (ha : ¬(f + 128 ≤ a ∧ a < f + 132)) :
    extended m f n a = m a := by
  unfold extended
  split
  · exact store_off m _ (by omega)
  · rfl

theorem fSize_extended (m : Mem) (f n : Nat) (hn : n < 2 ^ 31) :
    (fSize (extended m f n) f).toNat = max (fSize m f).toNat n := by
  unfold extended
  split
  · rw [fSize_setSize, toNat_ofNat]
    omega
  · omega

/-- Where a request ends. -/
theorem toNat_stop {count : BitVec 64} (hoff : offset.toNat < 2 ^ 31)
    (hcount : count.toNat < 2 ^ 63) :
    (offset.signExtend 64 + count).toNat = offset.toNat + count.toNat := by
  rw [toNat_add, toNat_signExtend hoff]
  omega

/-- `file_write` as a run of the loop over the natural numbers. -/
theorem fileWriteBy_loop (act : Mem → Nat → Nat → σ → Mem × σ) {f : Nat} (count : BitVec 64)
    (offset : BitVec 32) (x : σ) (hend : offset.toNat + count.toNat < 2 ^ 31)
    (hsize : (fSize m f).toNat < 2 ^ 31) :
    ∃ stop : BitVec 64, stop.toNat = offset.toNat + count.toNat ∧
      fileWriteBy act m f count offset x =
        (fileLoop act f stop 1036 offset (extended m f (offset.toNat + count.toNat), x)).map
          (counted count) := by
  have hstop := toNat_stop (show offset.toNat < 2 ^ 31 by omega)
    (show count.toNat < 2 ^ 63 by omega)
  have hnew : (offset.signExtend 64 + count).setWidth 32 =
      ofNat 32 (offset.toNat + count.toNat) := by
    apply BitVec.eq_of_toNat_eq
    rw [toNat_setWidth, hstop, toNat_ofNat]
  refine ⟨_, hstop, ?_⟩
  unfold fileWriteBy extended
  simp only [BitVec.lt_def, hstop, toNat_signExtend hsize, hnew]
  by_cases hlt : (fSize m f).toNat < offset.toNat + count.toNat
  · -- the file is extended, so nothing is cut off
    have hslt : (ofNat 32 (offset.toNat + count.toNat)).slt (fSize m f) = false := by
      rw [Bool.eq_false_iff]
      intro hs
      rw [BitVec.slt_iff_toInt_lt, toInt_eq_toNat_of_lt (by rw [toNat_ofNat]; omega),
        toInt_eq_toNat_of_lt (by omega), toNat_ofNat] at hs
      omega
    have hset : fileSetSize m f (ofNat 32 (offset.toNat + count.toNat)) =
        some (setSize m f (ofNat 32 (offset.toNat + count.toNat))) := by
      unfold fileSetSize
      rw [hslt]
      rfl
    rw [if_pos hlt, if_pos hlt, hset, Option.bind_some]
  · rw [if_neg hlt, if_neg hlt, Option.bind_some]

/-- What `file_write` leaves: all bytes are written, or those up to some place
    where no block could be had. The log has as many bytes. -/
theorem fileWriteBy_spec (m : Mem) {f : Nat} (buf : List (BitVec 8)) (offset : BitVec 32)
    (hs : Sane m) (ho : Owns m f) (hend : offset.toNat + buf.length < 2 ^ 31)
    (hsize : (fSize m f).toNat < 2 ^ 31) :
    ∃ r m' log rest p, fileWriteBy (logged writeChunk) m f (ofNat 64 buf.length) offset
        ([], buf) = some (r, m', log, rest) ∧
      offset.toNat ≤ p ∧ p ≤ offset.toNat + buf.length ∧
      Wrote (extended m f (offset.toNat + buf.length)) m' f offset.toNat buf p ∧
      total log = p - offset.toNat ∧ (r < 0 ∨ r = buf.length ∧ p = offset.toNat + buf.length) := by
  have hcount : (ofNat 64 buf.length).toNat = buf.length := by
    rw [toNat_ofNat]
    omega
  have hret : asInt (ofNat 64 buf.length) = (buf.length : Int) := by
    rw [asInt_of_lt _ (by omega), hcount]
  rcases fileWriteBy_loop (logged writeChunk) (ofNat 64 buf.length) offset ([], buf)
    (by rwa [hcount]) hsize with ⟨stop, hstop, hwrite⟩
  rw [hcount] at hstop hwrite
  rw [hwrite]
  -- the size comes first, so that the loop runs on a disk that has it
  have hext := extended_step ho (offset.toNat + buf.length)
  generalize extended m f (offset.toNat + buf.length) = m0 at *
  have hs0 := hext.1.sane ho hs
  have hloop := fileLoop_rule (logged writeChunk) f stop
    (fun p m1 x => offset.toNat ≤ p ∧ p ≤ stop.toNat ∧ Wrote m0 m1 f offset.toNat buf p ∧
      total x.1 = p - offset.toNat ∧ x.2 = buf.drop (p - offset.toNat))
    (fun e m1 x => e < 0 ∧ ∃ p, offset.toNat ≤ p ∧ p ≤ stop.toNat ∧
      Wrote m0 m1 f offset.toNat buf p ∧ total x.1 = p - offset.toNat) False
    ?_ 1036 offset m0 ([], buf) (by omega) (by omega) (.inl (by omega))
    ⟨le_rfl, by omega, Wrote.start hs0 hext.1.owns, by rw [Nat.sub_self]; rfl,
      by rw [Nat.sub_self]; rfl⟩
  · rcases hloop.ends with ⟨e, ⟨m', log, rest⟩, hres, hneg, p, hlo, hhi, hw, htot⟩ |
      ⟨_, ⟨m', log, rest⟩, hres, p, hp, -, hlo, hhi, hw, htot, -⟩
    · rw [hres]
      exact ⟨e, m', log, rest, p, rfl, hlo, by omega, hw, htot, .inl hneg⟩
    · rw [hres]
      exact ⟨_, m', log, rest, p, rfl, hlo, by omega, hw, htot, .inr ⟨hret, by omega⟩⟩
  · rintro p m1 ⟨log, rest⟩ hp ⟨hlo, -, hw, htot, hrest⟩
    simp only at htot hrest
    refine (fileGetBlock_spec (p / 4096) hw.sane hw.step.owns).mono ?_ ?_ id
    · rintro blk m2 ⟨rfl, hgot⟩
      have hnext := next_spec hp
      have hturn := hw.turn hlo (by omega) hgot
      rw [← hstop] at hturn
      simp only [logged, writeChunk, hrest, total_append, List.drop_drop]
      refine ⟨hgot.lt, by omega, hnext.2.1, hturn, by omega, ?_⟩
      congr 1
      omega
    · rintro e m2 ⟨he, hg, hsame, -⟩
      refine ⟨by rcases he with rfl | rfl <;> decide, p, hlo, by omega, ?_, htot⟩
      refine ⟨hw.step.trans hg.fileStep, hg.sane hw.sane,
        hw.reached.stay hw.step.owns hw.step.pool hg hsame, by rw [hg.size, hw.size], ?_, ?_, ?_⟩
      · intro a hlo hhi hslots
        rw [hg.fields a hlo hhi hslots, hw.fields a hlo hhi hslots]
      · intro b o hb ho'
        rw [hg.idle hw.sane b o hb ho']
        exact hw.idle b o (hg.pool b hb) ho'
      · intro q hq hne
        refine hw.grow hg q hq hne fun h0 => ?_
        rw [hsame _ hq] at hne
        exact absurd h0 hne

theorem fileWrite_logged (m : Mem) (f : Nat) (buf : List (BitVec 8)) (offset : BitVec 32) :
    fileWrite m f buf offset = (fileWriteBy (logged writeChunk) m f (ofNat 64 buf.length)
      offset ([], buf)).map fun r => (r.1, r.2.1) := by
  unfold fileWrite
  rw [← fileWriteBy_logged writeChunk m f _ offset [] buf, Option.map_map]
  rfl

theorem fileWrite_spec (m : Mem) (f : Nat) (buf : List (BitVec 8)) (offset : BitVec 32)
    (hs : Sane m) (ho : Owns m f) (hend : offset.toNat + buf.length < 2 ^ 31)
    (hsize : (fSize m f).toNat < 2 ^ 31) :
    ∃ r m' p, fileWrite m f buf offset = some (r, m') ∧ offset.toNat ≤ p ∧
      p ≤ offset.toNat + buf.length ∧
      Wrote (extended m f (offset.toNat + buf.length)) m' f offset.toNat buf p ∧
      (r < 0 ∨ r = buf.length ∧ p = offset.toNat + buf.length) := by
  rcases fileWriteBy_spec m buf offset hs ho hend hsize with
    ⟨r, m', log, rest, p, hrun, hlo, hhi, hw, -, hr⟩
  refine ⟨r, m', p, ?_, hlo, hhi, hw, hr⟩
  rw [fileWrite_logged, hrun]
  rfl

end Jos.Fs
