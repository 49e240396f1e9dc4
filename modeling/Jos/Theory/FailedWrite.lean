import Jos.Theory.Offsets
import Jos.Theory.Supply
import Jos.Theory.Truncate

/-!
# Writes that Fail

`file_write` gives the file its new size before it has a block for it, and `serve_write`
adds whatever it is given to the seek position, also an error code. So a write that fails
leaves its traces. It fails exactly if the file cannot have one of the blocks or there are
not enough free ones. For a negative position the division and the size take their own
turns: just in front of the file the first block is asked for, after the file may have
been cut to a negative size, which gives blocks back.

## Main definitions

* `Extends`: `file_write` sets a new size.
* `NoFirst`: No first block can be had just in front of the file.
* `Fails`: The requests that fail.
* `SizeKept`, `OffsetKept`: What a failed request leaves as it was.

## Theorems

* `fileLoop_enough`: The loop finds all its blocks exactly if there are enough.
* `fileWriteBy_outcome`: The outcome of `file_write`.
* `failedWrite_iff`: When a request leaves no trace.
-/

namespace Jos.Fs

open Lib.Bytes (load store store_off load_store_off load_store_at)
open BitVec (ofNat toNat_add toNat_setWidth toInt_eq_toNat_cond)
open Option (map_some some.injEq)

variable {σ : Type} {act : Mem → Nat → Nat → σ → Mem × σ} {size offset : BitVec 32} {m m1 m' : Mem}
  {f : Nat} {count : BitVec 64} {e : Int}

/-! ## The loop -/

/-- The loop finds all its blocks exactly if there are enough. -/
theorem fileLoop_enough (hact : Local act) (stop : BitVec 64) (x : σ) (hs : Sane m) (ho : Owns m f)
    (hoff : offset.toNat < 2 ^ 31) (hlt : offset.toNat < stop.toNat) :
    (fileLoop act f stop 1036 offset (m, x)).Sat
      (fun _ _ => Enough m f (offset.toNat / 4096) ((stop.toNat - 1) / 4096))
      (fun e s => (e = eInval ∨ e = eNoDisk) ∧ fSize s.1 f = fSize m f ∧
        ¬Enough m f (offset.toNat / 4096) ((stop.toNat - 1) / 4096)) False := by
  generalize hlo : offset.toNat = lo at *
  -- the blocks on the way are there, and only places for these were filled
  have hloop := fileLoop_rule act f stop
    (fun p m1 _ => lo ≤ p ∧ p ≤ stop.toNat ∧ Stocked m m1 f ∧ Sane m1 ∧
      fSize m1 f = fSize m f ∧
      (∀ j ∈ filled m m1 f, Wanted (lo / 4096) ((stop.toNat - 1) / 4096) j) ∧
      ∀ q, lo ≤ q → q < p → q / 4096 < 1034 ∧ slot m1 f (q / 4096) ≠ 0)
    (fun e m1 _ => (e = eInval ∨ e = eNoDisk) ∧ fSize m1 f = fSize m f ∧
      ¬Enough m f (lo / 4096) ((stop.toNat - 1) / 4096)) False
    ?_ 1036 offset m x (by omega) (by omega) (.inl (by omega))
    ⟨by omega, by omega, Stocked.refl ho, hs, rfl, ?_, ?_⟩
  · refine hloop.mono ?_ (fun e s h => h) id
    rintro - s ⟨p, hp, -, -, hle, hst, -, -, -, hthere⟩
    have hpe : p = stop.toNat := by omega
    rw [hpe] at hthere
    have hlast := hthere (stop.toNat - 1) (by omega) (by omega)
    refine ⟨hlast.1, hst.enough fun k hk hw => ?_⟩
    rcases hw with ⟨hlok, hhik, -⟩ | ⟨hk', hfar⟩
    · -- the block holds a position of the request
      by_cases hfirst : k * 4096 ≤ lo
      · have hq := (hthere lo le_rfl hlt).2
        rwa [show lo / 4096 = k by omega] at hq
      · have hq := (hthere (k * 4096) (by omega) (by omega)).2
        rwa [Nat.mul_div_cancel k (by decide)] at hq
    · rw [hk']
      exact slot_indirect_ne hfar hlast.1 hlast.2
  · rintro p m1 x1 hp ⟨hlop, -, hst, hs1, hsize, honly, hthere⟩
    have hnext := next_spec hp
    have hblock : lo / 4096 ≤ p / 4096 ∧ p / 4096 ≤ (stop.toNat - 1) / 4096 :=
      ⟨Nat.div_le_div_right hlop, Nat.div_le_div_right (by omega)⟩
    have hhere : ∀ j, Wanted (p / 4096) (p / 4096) j →
        Wanted (lo / 4096) ((stop.toNat - 1) / 4096) j := by
      intro j hj
      unfold Wanted at hj ⊢
      omega
    have hjoin : ∀ m2, (∀ j ∈ filled m1 m2 f, Wanted (p / 4096) (p / 4096) j) →
        ∀ j ∈ filled m m2 f, Wanted (lo / 4096) ((stop.toNat - 1) / 4096) j := by
      intro m2 honly2 j hj
      rcases filled_split m1 hj with hj | hj
      · exact honly j hj
      · exact hhere j (honly2 j hj)
    refine (fileGetBlock_stocked (p / 4096) hs1 hst.new).mono ?_ ?_ id
    · rintro blk m2 ⟨hblk, hgot, hst2, honly2⟩
      rw [hblk]
      have hs2 := hgot.grows.sane hs1
      have hout : ∀ a, a / 4096 ≠ slot m2 f (p / 4096) →
          (act m2 (slot m2 f (p / 4096) * 4096 + p % 4096) (next p stop.toNat - p) x1).1 a =
            m2 a := fun a ha => hact _ _ _ _ _ (by omega)
      rcases FileStep.of_data hs2 hgot.grows.owns hgot.lt hgot.here hout with
        ⟨hstep, hslot, hfree, hsize3⟩
      have hst3 := Stocked.of_same hgot.grows.owns hstep.owns hslot hfree
      refine ⟨hgot.lt, by omega, hnext.2.1, (hst.trans hst2).trans hst3,
        hstep.sane hgot.grows.owns hs2, ?_, ?_, ?_⟩
      · rw [hsize3, hgot.grows.size, hsize]
      · intro j hj
        rcases mem_filled.1 hj with ⟨hle, h0, hne⟩
        rw [hslot j hle] at hne
        exact hjoin m2 honly2 j (mem_filled.2 ⟨hle, h0, hne⟩)
      · intro q hq hq'
        by_cases hqp : q < p
        · rcases hthere q hq hqp with ⟨hlt', hne⟩
          refine ⟨hlt', ?_⟩
          rwa [hslot _ hlt'.le, hst2.keep _ hlt'.le hne]
        · rw [next_block (by omega) hq', hslot _ hgot.lt.le]
          exact ⟨hgot.lt, hgot.here⟩
    · rintro e m2 ⟨he, hg, hst2, honly2, hempty⟩
      refine ⟨he, by rw [hg.size, hsize], ?_⟩
      rintro ⟨hin, hle⟩
      rcases hempty (by omega) with ⟨h0, hnone⟩
      have hshort := (hst.trans hst2).short hnone (hjoin m2 honly2) (by omega)
        (hhere (p / 4096) (.inl ⟨le_rfl, le_rfl, by omega⟩)) h0
      omega
  · intro j hj
    rcases mem_filled.1 hj with ⟨-, h0, hne⟩
    exact absurd h0 hne
  · intro q hq hq'
    omega

/-! ## The size -/

/-- `file_write` sets a new size: `offset + count > f->f_size` in a `size_t`. -/
def Extends (m : Mem) (f : Nat) (offset : BitVec 32) (count : BitVec 64) : Prop :=
  (fSize m f).signExtend 64 < offset.signExtend 64 + count

instance (m : Mem) (f : Nat) (offset : BitVec 32) (count : BitVec 64) :
    Decidable (Extends m f offset count) := inferInstanceAs (Decidable (_ < _))

theorem toNat_signExtend_cases (a : BitVec 32) :
    (a.toNat < 2 ^ 31 ∧ (a.signExtend 64).toNat = a.toNat) ∨
      (2 ^ 31 ≤ a.toNat ∧ (a.signExtend 64).toNat = 2 ^ 64 - 2 ^ 32 + a.toNat) := by
  by_cases h : a.toNat < 2 ^ 31
  · exact .inl ⟨h, toNat_signExtend h⟩
  · exact .inr ⟨by omega, toNat_signExtend_neg a (by omega)⟩

/-- The size that is set is another one. -/
theorem Extends.ne (h : Extends m f offset count) (hcount : count.toNat ≤ 4084) :
    (offset.signExtend 64 + count).setWidth 32 ≠ fSize m f := by
  intro heq
  have hnat := congrArg BitVec.toNat heq
  have hoff := offset.isLt
  have hsize := (fSize m f).isLt
  unfold Extends at h
  rw [BitVec.lt_def] at h
  rw [toNat_setWidth] at hnat
  rw [toNat_add] at h hnat
  have ho := toNat_signExtend_cases offset
  have hf := toNat_signExtend_cases (fSize m f)
  omega

/-- The disk when `file_write` comes to its loop. -/
structure Begun (m : Mem) (f : Nat) (offset : BitVec 32) (count : BitVec 64) (m1 : Mem) : Prop where
  run : (if (fSize m f).signExtend 64 < offset.signExtend 64 + count then
    fileSetSize m f ((offset.signExtend 64 + count).setWidth 32) else some m) = some m1
  step : FileStep m m1 f
  size : fSize m1 f = if Extends m f offset count then
    (offset.signExtend 64 + count).setWidth 32 else fSize m f

theorem fSize_of_fileSetSize (h : fileSetSize m f size = some m1) : fSize m1 f = size := by
  unfold fileSetSize at h
  rcases Option.map_eq_some_iff.1 h with ⟨m2, -, hset⟩
  rw [← hset]
  exact fSize_setSize m2 f size

theorem begun (ho : Owns m f) (offset : BitVec 32) (count : BitVec 64) :
    ∃ m1, Begun m f offset count m1 := by
  rcases extend_step (offset.signExtend 64 + count) ho with ⟨m1, hrun, hstep⟩
  refine ⟨m1, hrun, hstep, ?_⟩
  by_cases hext : (fSize m f).signExtend 64 < offset.signExtend 64 + count
  · rw [if_pos hext] at hrun
    exact (fSize_of_fileSetSize hrun).trans (if_pos hext).symm
  · rw [if_neg hext, some.injEq] at hrun
    exact (congrArg (fSize · f) hrun.symm).trans (if_neg hext).symm

theorem Begun.fileWriteBy_eq (h : Begun m f offset count m1) (act : Mem → Nat → Nat → σ → Mem × σ)
    (x : σ) :
    fileWriteBy act m f count offset x =
      (fileLoop act f (offset.signExtend 64 + count) 1036 offset (m1, x)).map (counted count) := by
  unfold fileWriteBy
  simp only [h.run, Option.bind_some]

/-- A size that is not smaller changes neither the slots nor the bitmap. -/
theorem fileSetSize_grown (ho : Owns m f) (hslt : ¬size.slt (fSize m f) = true)
    (h : fileSetSize m f size = some m1) :
    (∀ k ≤ 1034, slot m1 f k = slot m f k) ∧ ∀ b, blockIsFree m1 b = blockIsFree m b := by
  unfold fileSetSize at h
  rw [if_neg hslt, map_some] at h
  cases h
  exact (setSize_step ho size).2

/-- At a position that is not negative the blocks are those of the disk before. -/
theorem Begun.enough_iff (h : Begun m f offset count m1) (ho : Owns m f)
    (hoff : offset.toNat < 2 ^ 31) (hcount : count.toNat ≤ 4084) (hpos : 0 < count.toNat) :
    Enough m1 f (offset.toNat / 4096) ((offset.toNat + count.toNat - 1) / 4096) ↔
      Enough m f (offset.toNat / 4096) ((offset.toNat + count.toNat - 1) / 4096) := by
  by_cases hin : (offset.toNat + count.toNat - 1) / 4096 < 1034
  · have hrun := h.run
    by_cases hext : (fSize m f).signExtend 64 < offset.signExtend 64 + count
    · rw [if_pos hext] at hrun
      have hstop := toNat_stop hoff (show count.toNat < 2 ^ 63 by omega)
      have hnew : ((offset.signExtend 64 + count).setWidth 32).toNat =
          offset.toNat + count.toNat := by
        rw [toNat_setWidth, hstop]
        omega
      rw [BitVec.lt_def, hstop] at hext
      have hsame := fileSetSize_grown ho (by
        rcases toNat_signExtend_cases (fSize m f) with ⟨hf, hfe⟩ | ⟨hf, hfe⟩
        · rw [slt_iff (by omega) hf]
          omega
        · omega) hrun
      exact enough_congr hsame.1 hsame.2
    · rw [if_neg hext, some.injEq] at hrun
      rw [hrun]
  · exact iff_of_false (fun he => hin he.1) (fun he => hin he.1)

/-! ## Just in front of the file -/

/-- Just in front of the file no first block can be had: there is none, no block is free,
    and none is given back when the file is cut to a negative size, which happens if its
    size is not negative. -/
structure NoFirst (m : Mem) (f : Nat) : Prop where
  first : slot m f 0 = 0
  full : supply m = ∅
  cut : 0 ≤ (fSize m f).toInt →
    ∀ k ≤ 1034, k < sizeBlocks (fSize m f) ∨ k = 1034 → slot m f k = 0

/-- A cut to no blocks leaves none free exactly if none was and there was none to free. -/
theorem Cut.supply_iff {old : Nat} {log : List Nat} (ho : Owns m f) (hn : sNblocks m' = sNblocks m)
    (hold : old ≤ 1034) (h : Cut m m' f 0 old log) : supply m' = ∅ ↔ supply m = ∅ ∧ log = [] := by
  -- what is freed are blocks that the file had
  have hlog : ∀ b ∈ log, 1 ≤ b ∧ b < sNblocks m := by
    intro b hb
    have hslot : ∃ k ≤ 1034, b ≠ 0 ∧ slot m f k = b := by
      rw [h.calls, List.mem_append, Nat.sub_zero] at hb
      rcases hb with hb | hb
      · rcases mem_held.1 hb with ⟨h0, k, -, hk, hs⟩
        exact ⟨k, by omega, h0, hs⟩
      · by_cases hi : 0 ≤ 10 ∧ fIndirect m f ≠ 0
        · rw [if_pos hi, List.mem_singleton] at hb
          exact ⟨1034, le_rfl, hb ▸ hi.2, hb.symm⟩
        · rw [if_neg hi] at hb
          exact absurd hb List.not_mem_nil
    rcases hslot with ⟨k, hk, h0, hs⟩
    have hv := (ho.valid k hk (by rwa [hs])).2.1
    rw [hs] at hv
    exact ⟨by omega, hv⟩
  have hfree : ∀ b, b < sNblocks m →
      (blockIsFree m' b = true ↔ blockIsFree m b = true ∨ b ∈ log) := by
    intro b hb
    have hbit := h.bits b (by unfold nbitblocks; omega)
    unfold bit at hbit
    unfold blockIsFree
    rw [hn, hbit, decide_eq_true hb, Bool.true_and, Bool.true_and, Bool.or_eq_true,
      decide_eq_true_eq]
  rw [supply_eq_empty, supply_eq_empty]
  refine ⟨fun hnone => ⟨fun b h1 => ?_, ?_⟩, fun hboth b h1 => ?_⟩
  · rw [Bool.eq_false_iff]
    intro hb
    exact Bool.eq_false_iff.1 (hnone b h1) ((hfree b (free_lt hb)).2 (.inl hb))
  · rw [List.eq_nil_iff_forall_not_mem]
    intro b hb
    rcases hlog b hb with ⟨h1, hlt⟩
    exact Bool.eq_false_iff.1 (hnone b h1) ((hfree b hlt).2 (.inr hb))
  · rw [Bool.eq_false_iff]
    intro hb
    have hlt : b < sNblocks m := by
      rw [← hn]
      exact free_lt hb
    rcases (hfree b hlt).1 hb with hm | hin
    · exact Bool.eq_false_iff.1 (hboth.1 b h1) hm
    · rw [hboth.2] at hin
      exact absurd hin List.not_mem_nil

/-- The size of a cut just in front of the file is that of no blocks. -/
theorem sizeBlocks_near (size : BitVec 32) (hlo : 2 ^ 32 < size.toNat + 4096) :
    sizeBlocks size = 0 := by
  have hlt := size.isLt
  have hadd : (size + 4095).toNat = size.toNat + 4095 - 2 ^ 32 := by
    rw [toNat_add, show (4095 : BitVec 32).toNat = 4095 from rfl]
    omega
  unfold sizeBlocks
  refine (toNat_sdiv (by omega)).trans ?_
  rw [hadd]
  omega

/-- Just in front of the file the first block fails exactly if it did on the disk before. -/
theorem Begun.noFirst_iff (h : Begun m f offset count m1) (ho : Owns m f)
    (hnear : 2 ^ 32 < offset.toNat + 4096) (hpos : 0 < count.toNat)
    (hlt : offset.toNat + count.toNat < 2 ^ 32) :
    (slot m1 f 0 = 0 ∧ supply m1 = ∅) ↔ NoFirst m f := by
  have hrun := h.run
  have hstop : (offset.signExtend 64 + count).toNat =
      2 ^ 64 - 2 ^ 32 + offset.toNat + count.toNat := by
    rw [toNat_add, toNat_signExtend_neg offset (by omega)]
    omega
  have hnew : ((offset.signExtend 64 + count).setWidth 32).toNat =
      offset.toNat + count.toNat := by
    rw [toNat_setWidth, hstop]
    omega
  by_cases hsize : 0 ≤ (fSize m f).toInt
  · -- the file is cut to no blocks
    have hf := toNat_of_nonneg hsize
    have hext : (fSize m f).signExtend 64 < offset.signExtend 64 + count := by
      rw [BitVec.lt_def, hstop, toNat_signExtend hf]
      omega
    rw [if_pos hext] at hrun
    have hslt : ((offset.signExtend 64 + count).setWidth 32).slt (fSize m f) = true := by
      rw [BitVec.slt_iff_toInt_lt, toInt_eq_toNat_cond, if_neg (by omega)]
      have := BitVec.isLt ((offset.signExtend 64 + count).setWidth 32)
      omega
    have hzero := sizeBlocks_near ((offset.signExtend 64 + count).setWidth 32) (by omega)
    rcases fileTruncateBlocks_cut ((offset.signExtend 64 + count).setWidth 32) ho
      (by rw [hzero]; exact Nat.zero_le _) with ⟨m2, log, hcutrun, hcut⟩
    rw [hzero] at hcut
    have hm1 : m1 = setSize m2 f ((offset.signExtend 64 + count).setWidth 32) := by
      rw [← fileSetSizeLogged_erase, fileSetSizeLogged, if_pos hslt, hcutrun, map_some,
        map_some, some.injEq] at hrun
      exact hrun.symm
    have hcut1 := hcut.setSize ho ((offset.signExtend 64 + count).setWidth 32)
    rw [← hm1] at hcut1
    have hsup := hcut1.supply_iff ho h.step.nblocks (Nat.min_le_right _ _)
    have hfirst := hcut1.direct 0 (by omega)
    rw [← slot_direct m1 f (by omega), ← slot_direct m f (by omega)] at hfirst
    -- no block is freed exactly if the places that are cut are empty
    have hlog : log = [] ↔
        ∀ k ≤ 1034, k < sizeBlocks (fSize m f) ∨ k = 1034 → slot m f k = 0 := by
      rw [hcut1.calls, Nat.sub_zero, List.append_eq_nil_iff]
      refine ⟨fun hnil k hk hin => ?_, fun hall => ⟨?_, ?_⟩⟩
      · by_cases hlast : k = 1034
        · rw [hlast, slot_indirect]
          by_contra hi
          rw [if_pos ⟨by omega, hi⟩] at hnil
          cases hnil.2
        · by_contra hne
          have hmem : slot m f k ∈ held m f 0 (min (sizeBlocks (fSize m f)) 1034) :=
            mem_held.2 ⟨hne, k, Nat.zero_le k, by omega, rfl⟩
          rw [hnil.1] at hmem
          exact absurd hmem List.not_mem_nil
      · rw [List.eq_nil_iff_forall_not_mem]
        intro b hb
        rcases mem_held.1 hb with ⟨h0, k, -, hk, hs⟩
        exact h0 (hs.symm.trans (hall k (by omega) (.inl (by omega))))
      · rw [if_neg]
        intro hi
        exact hi.2 (hall 1034 le_rfl (.inr rfl))
    rw [hsup, hlog]
    refine ⟨fun hall => ⟨?_, hall.2.1, fun _ => hall.2.2⟩, fun hno => ⟨?_, hno.full, hno.cut hsize⟩⟩
    · by_cases hin : 0 < min (sizeBlocks (fSize m f)) 1034
      · exact hall.2.2 0 (by omega) (.inl (by omega))
      · rw [if_neg (by omega)] at hfirst
        exact hfirst.symm.trans hall.1
    · rw [hfirst, hno.first, ite_self]
  · -- a negative size only grows
    have hf : 2 ^ 31 ≤ (fSize m f).toNat := by
      by_contra hlt'
      rw [BitVec.toInt_eq_toNat_of_lt (by omega)] at hsize
      omega
    have hsame : (∀ k ≤ 1034, slot m1 f k = slot m f k) ∧
        ∀ b, blockIsFree m1 b = blockIsFree m b := by
      by_cases hext : (fSize m f).signExtend 64 < offset.signExtend 64 + count
      · rw [if_pos hext] at hrun
        rw [BitVec.lt_def, hstop, toNat_signExtend_neg _ hf] at hext
        refine fileSetSize_grown ho ?_ hrun
        rw [BitVec.slt_iff_toInt_lt, toInt_eq_toNat_cond, toInt_eq_toNat_cond,
          if_neg (by omega), if_neg (by omega)]
        omega
      · rw [if_neg hext, some.injEq] at hrun
        rw [hrun]
        exact ⟨fun _ _ => rfl, fun _ => rfl⟩
    rw [hsame.1 0 (by omega), supply_congr hsame.2]
    exact ⟨fun hno => ⟨hno.1, hno.2, fun hf' => absurd hf' hsize⟩, fun hno => ⟨hno.first, hno.full⟩⟩

/-- The loop just in front of the file without a first block. -/
theorem fileLoop_near_error (act : Mem → Nat → Nat → σ → Mem × σ) (x : σ)
    (h : 2 ^ 32 < offset.toNat + 4096) (hpos : 0 < count.toNat)
    (hlt : offset.toNat + count.toNat < 2 ^ 32) (hget : fileGetBlock m f 0 = some (.error e, m')) :
    fileLoop act f (offset.signExtend 64 + count) 1036 offset (m, x) =
      some (.error e, (m', x)) := by
  unfold fileLoop
  rw [if_pos ((guard_neg offset count (by omega)).2 ⟨hpos, hlt⟩), sdiv_near offset h, hget]

/-! ## The requests that fail -/

/-- A request for `n` bytes that fails: a block of the file that there cannot be, or not
    enough free blocks; in front of the file, any block but the first, or no first block. -/
def Fails (m : Mem) (f : Nat) (offset : BitVec 32) (n : Nat) : Prop :=
  0 < n ∧
    if 0 ≤ offset.toInt then
      ¬Enough m f (offset.toNat / 4096) ((offset.toNat + n - 1) / 4096)
    else offset.toInt + n < 0 ∧ (offset.toInt ≤ -4096 ∨ NoFirst m f)

/-- How `file_write` ends: with the number of bytes, or with a code for a request that
    fails and the size that was set before. -/
structure Ended (m : Mem) (f : Nat) (offset : BitVec 32) (count : BitVec 64) (r : Int)
    (m' : Mem) : Prop where
  fails : r < 0 ↔ Fails m f offset count.toNat
  code : r < 0 → r = eInval ∨ r = eNoDisk
  size : r < 0 → fSize m' f = if Extends m f offset count then
    (offset.signExtend 64 + count).setWidth 32 else fSize m f

namespace Ended

variable {m m1 m' : Mem} {f : Nat} {offset : BitVec 32} {count : BitVec 64}

theorem done (hcount : count.toNat ≤ 4084) (hno : ¬Fails m f offset count.toNat) :
    Ended m f offset count (asInt count) m' := by
  have hr : ¬asInt count < 0 := by
    rw [asInt_of_lt count (by omega)]
    omega
  exact ⟨iff_of_false hr hno, fun h => absurd h hr, fun h => absurd h hr⟩

theorem failed (h : Begun m f offset count m1) (he : e = eInval ∨ e = eNoDisk)
    (hsize : fSize m' f = fSize m1 f) (hyes : Fails m f offset count.toNat) :
    Ended m f offset count e m' := by
  have hr : e < 0 := by
    rcases he with he | he
    · rw [he]
      decide
    · rw [he]
      decide
  exact ⟨iff_of_true hr hyes, fun _ => he, fun _ => hsize.trans h.size⟩

end Ended

/-- `file_write` at a position that is not negative. -/
theorem fileWriteBy_forward (hact : Local act) (h : Begun m f offset count m1) (x : σ) (hs : Sane m)
    (ho : Owns m f) (hoff : offset.toNat < 2 ^ 31) (hcount : count.toNat ≤ 4084) :
    ∃ r m' x', fileWriteBy act m f count offset x = some (r, m', x') ∧
      Ended m f offset count r m' := by
  have hint : 0 ≤ offset.toInt := by
    rw [BitVec.toInt_eq_toNat_of_lt (by omega)]
    exact Int.natCast_nonneg _
  have hstop := toNat_stop hoff (show count.toNat < 2 ^ 63 by omega)
  rw [h.fileWriteBy_eq]
  by_cases hpos : 0 < count.toNat
  · have hfails : Fails m f offset count.toNat ↔ ¬Enough m1 f (offset.toNat / 4096)
        (((offset.signExtend 64 + count).toNat - 1) / 4096) := by
      unfold Fails
      rw [if_pos hint, hstop, h.enough_iff ho hoff hcount hpos]
      exact and_iff_right hpos
    have hloop := fileLoop_enough hact (offset.signExtend 64 + count) x
      (h.step.sane ho hs) h.step.owns hoff (by omega)
    rcases hloop.ends with ⟨e, ⟨m', x'⟩, hres, he, hsize, hno⟩ | ⟨_, ⟨m', x'⟩, hres, hyes⟩
    · rw [hres]
      exact ⟨e, m', x', rfl, Ended.failed h he hsize (hfails.2 hno)⟩
    · rw [hres]
      exact ⟨_, m', x', rfl, Ended.done hcount fun hf => hfails.1 hf hyes⟩
  · -- nothing is asked for
    have hskip : fileLoop act f (offset.signExtend 64 + count) 1036 offset (m1, x) =
        some (.ok (), (m1, x)) := by
      unfold fileLoop
      rw [if_neg]
      rw [BitVec.lt_def, hstop, toNat_signExtend hoff]
      omega
    rw [hskip]
    exact ⟨_, m1, x, rfl, Ended.done hcount fun hf => hpos hf.1⟩

/-- `file_write` at a negative position. -/
theorem fileWriteBy_backward (act : Mem → Nat → Nat → σ → Mem × σ) (h : Begun m f offset count m1)
    (x : σ) (hs : Sane m) (ho : Owns m f) (hneg : 2 ^ 31 ≤ offset.toNat)
    (hcount : count.toNat ≤ 4084) :
    ∃ r m' x', fileWriteBy act m f count offset x = some (r, m', x') ∧
      Ended m f offset count r m' := by
  have hlt := offset.isLt
  have hint := toInt_of_ge offset hneg
  rw [h.fileWriteBy_eq]
  have hfails : Fails m f offset count.toNat ↔ 0 < count.toNat ∧
      offset.toNat + count.toNat < 2 ^ 32 ∧ (offset.toNat + 4096 ≤ 2 ^ 32 ∨ NoFirst m f) := by
    unfold Fails
    rw [if_neg (by omega), hint]
    refine and_congr_right fun _ => and_congr (by omega) (or_congr_left (by omega))
  by_cases hskip : count.toNat = 0 ∨ 2 ^ 32 ≤ offset.toNat + count.toNat
  · -- the comparison of the loop fails at once
    rw [fileLoop_skip offset count act m1 f x hneg hskip 1035]
    refine ⟨_, m1, x, rfl, Ended.done hcount fun hf => ?_⟩
    have hf' := hfails.1 hf
    omega
  have hpos : 0 < count.toNat := by omega
  have hend : offset.toNat + count.toNat < 2 ^ 32 := by omega
  by_cases hfar : offset.toNat + 4096 ≤ 2 ^ 32
  · rw [fileLoop_far offset count act m1 f x hneg hfar hpos hend 1035]
    exact ⟨_, m1, x, rfl, Ended.failed h (.inl rfl) rfl (hfails.2 ⟨hpos, hend, .inl hfar⟩)⟩
  · have hfirst := h.noFirst_iff ho (by omega) hpos hend
    have hs1 := h.step.sane ho hs
    rcases ((fileGetBlock_stocked 0 hs1 h.step.owns).and
      (fileGetBlock_spec 0 hs1 h.step.owns)).ends with
      ⟨e, m2, hres, ⟨he, hg, -⟩, -, -, -, h0, hfull⟩ | ⟨blk, m2, hres, ⟨-, hgot, hst, -⟩, -⟩
    · rw [fileLoop_near_error act x (by omega) hpos hend hres]
      refine ⟨e, m2, x, rfl, Ended.failed h he hg.size (hfails.2 ⟨hpos, hend, .inr ?_⟩)⟩
      exact hfirst.1 ⟨h0 (by omega), supply_eq_empty.2 (hfull (by omega))⟩
    · rw [fileLoop_near offset count act m1 f x (by omega) hpos hend hres]
      refine ⟨_, _, _, rfl, Ended.done hcount fun hf => ?_⟩
      rcases (hfails.1 hf).2.2 with hfar' | hno
      · exact hfar hfar'
      · -- a first block that is new was free
        rcases hfirst.2 hno with ⟨h0, hnone⟩
        have hfree := hst.fresh 0 (by omega) h0 hgot.here
        have hmem := mem_supply.2 ⟨Nat.one_le_iff_ne_zero.2 hgot.here, hfree⟩
        rw [hnone] at hmem
        exact absurd hmem (Finset.notMem_empty _)

/-- The outcome of `file_write` for any position. -/
theorem fileWriteBy_outcome (hact : Local act) (offset : BitVec 32) (x : σ) (hs : Sane m)
    (ho : Owns m f) (hcount : count.toNat ≤ 4084) :
    ∃ r m' x', fileWriteBy act m f count offset x = some (r, m', x') ∧
      Ended m f offset count r m' := by
  rcases begun ho offset count with ⟨m1, h⟩
  by_cases hoff : offset.toNat < 2 ^ 31
  · exact fileWriteBy_forward hact h x hs ho hoff hcount
  · exact fileWriteBy_backward act h x hs ho (by omega) hcount

/-! ## The requests of clients -/

/-- If `file_write` fails on a request, the size is as before. -/
def SizeKept (s : Server) (page : Mem) (f : Nat) (fd : Fd) : Prop :=
  ∀ r m', fileWrite s.disk f (writeBytes s page) fd.offset = some (r, m') → r < 0 →
    fSize m' f = fSize s.disk f

/-- If `serve_write` fails on a request, the seek position is as before. -/
def OffsetKept (s : Server) (page : Mem) (i : Nat) (fd : Fd) : Prop :=
  ∀ r s', serveWrite s page = some (r, s') → r < 0 → (s'.fd i).map Fd.offset = some fd.offset

theorem writeBytes_count (s : Server) (page : Mem) :
    ofNat 64 (writeBytes s page).length = writeCount page := by
  unfold writeBytes bytes
  rw [List.length_map, List.length_range, BitVec.ofNat_toNat, BitVec.setWidth_eq]

namespace Opened

variable {s : Server} {page : Mem} {i f : Nat} {fd : Fd}

section

variable (h : Opened s page i f fd)
include h

/-- The outcome of `file_write` in a request. -/
theorem write_ended :
    ∃ r m' x', fileWriteBy writeChunk s.disk f (writeCount page) fd.offset (writeBytes s page) =
        some (r, m', x') ∧ Ended s.disk f fd.offset (writeCount page) r m' :=
  fileWriteBy_outcome writeChunk_local fd.offset _ h.sane h.owns
    (by rw [toNat_writeCount]; exact Nat.min_le_right _ _)

theorem sizeKept_iff :
    SizeKept s page f fd ↔ ¬(Fails s.disk f fd.offset (writeCount page).toNat ∧
      Extends s.disk f fd.offset (writeCount page)) := by
  rcases h.write_ended with ⟨r, m', x', hrun, hend⟩
  have hwrite : fileWrite s.disk f (writeBytes s page) fd.offset = some (r, m') := by
    unfold fileWrite
    rw [writeBytes_count, hrun, map_some]
  unfold SizeKept
  rw [hwrite]
  refine ⟨fun hkept hboth => ?_, fun hno r' m'' heq hneg => ?_⟩
  · have hneg := hend.fails.2 hboth.1
    have hsize := hkept r m' rfl hneg
    rw [hend.size hneg, if_pos hboth.2] at hsize
    refine hboth.2.ne ?_ hsize
    rw [toNat_writeCount]
    exact Nat.min_le_right _ _
  · rw [some.injEq, Prod.mk.injEq] at heq
    rw [← heq.1] at hneg
    rw [← heq.2, hend.size hneg, if_neg fun hext => hno ⟨hend.fails.1 hneg, hext⟩]

theorem fd_advance (m' : Mem) (r : Int) :
    (((s.setDisk m').advance i r).fd i).map Fd.offset =
      some (fd.offset + BitVec.ofInt 32 r) := by
  have hdesc := h.desc
  unfold Server.fd at hdesc
  rcases Option.map_eq_some_iff.1 hdesc with ⟨p, hp, hfd⟩
  have hpage : (s.setDisk m').fdPage i = some p := hp
  unfold Server.advance
  rw [hpage]
  simp only [Server.fd, Server.setPage, if_pos, map_some, hfd]

theorem offsetKept_iff :
    OffsetKept s page i fd ↔ ¬Fails s.disk f fd.offset (writeCount page).toNat := by
  rcases h.write_ended with ⟨r, m', x', hrun, hend⟩
  have hserve : serveWrite s page = some (r, (s.setDisk m').advance i r) := by
    unfold serveWrite
    rw [h.serveWriteBy_eq, hrun, map_some, map_some]
  unfold OffsetKept
  rw [hserve]
  refine ⟨fun hkept hfails => ?_, fun hno r' s' heq hneg => ?_⟩
  · -- an error code is not 0 modulo 2 ^ 32
    have hneg := hend.fails.2 hfails
    have hoff := hkept r _ rfl hneg
    rw [h.fd_advance, some.injEq] at hoff
    have hzero : BitVec.ofInt 32 r = 0#32 := by
      have hcancel := congrArg (· - fd.offset) hoff
      simpa [BitVec.add_comm fd.offset] using hcancel
    rcases hend.code hneg with hr | hr
    · rw [hr] at hzero
      cases hzero
    · rw [hr] at hzero
      cases hzero
  · cases heq
    exact absurd (hend.fails.1 hneg) hno

end

end Opened

/-- A request leaves no trace when it fails exactly if it does not fail, and the size alone
    is kept if it fails without a new size. -/
theorem failedWrite_iff (s : Server) (page : Mem) (i f : Nat) (fd : Fd) (h : Opened s page i f fd) :
    ((SizeKept s page f fd ∧ OffsetKept s page i fd) ↔
      ¬Fails s.disk f fd.offset (writeCount page).toNat) ∧
    (SizeKept s page f fd ↔ ¬(Fails s.disk f fd.offset (writeCount page).toNat ∧
      Extends s.disk f fd.offset (writeCount page))) := by
  refine ⟨?_, h.sizeKept_iff⟩
  rw [h.sizeKept_iff, h.offsetKept_iff]
  exact ⟨fun hboth => hboth.2, fun hno => ⟨fun hf => hno hf.1, hno⟩⟩

/-- One byte at the beginning of the empty file. -/
theorem failedWrite_iff_oneFile : ¬Fails oneFile 12288 0 1 ∧
    SizeKept (openAt 0) (asking 1) 12288 ⟨102, 0, 2, 1024⟩ ∧
    OffsetKept (openAt 0) (asking 1) 0 ⟨102, 0, 2, 1024⟩ := by
  have hno : ¬Fails oneFile 12288 0 1 := by
    rintro ⟨-, hf⟩
    rw [if_pos (by decide)] at hf
    refine hf ⟨by decide, ?_⟩
    have hsub : lacking oneFile 12288 0 0 ⊆ {0} := by
      intro k hk
      rcases mem_lacking.1 hk with ⟨-, hw, -⟩
      rw [Finset.mem_singleton]
      unfold Wanted at hw
      omega
    have hmem : 4 ∈ supply oneFile := mem_supply.2 ⟨by decide, oneFile_free⟩
    calc (lacking oneFile 12288 0 0).card ≤ ({0} : Finset Nat).card := Finset.card_le_card hsub
      _ = 1 := Finset.card_singleton 0
      _ ≤ (supply oneFile).card := Finset.card_pos.2 ⟨4, hmem⟩
  have hcount : (writeCount (asking 1)).toNat = 1 := by
    rw [toNat_writeCount, reqN_asking]
    decide
  have h := failedWrite_iff (openAt 0) (asking 1) 0 12288 _
    (opened_openAt 0 (reqFileid_asking 1))
  rw [hcount] at h
  exact ⟨hno, h.1.2 hno⟩

/-- One byte behind the largest size there is: the file has a larger one afterwards, and
    the seek position moves back. -/
theorem failedWrite_traces : ∃ fd, Opened (openAt 4235264) (asking 1) 0 12288 fd ∧
    ¬SizeKept (openAt 4235264) (asking 1) 12288 fd ∧
    ¬OffsetKept (openAt 4235264) (asking 1) 0 fd := by
  have h := opened_openAt 4235264 (reqFileid_asking 1)
  have hcount : (writeCount (asking 1)).toNat = 1 := by
    rw [toNat_writeCount, reqN_asking]
    decide
  have hfails : Fails oneFile 12288 4235264 1 := by
    refine ⟨by decide, ?_⟩
    rw [if_pos (by decide)]
    exact fun he => absurd he.1 (by decide)
  have hext : Extends oneFile 12288 4235264 (writeCount (asking 1)) := by
    rw [show writeCount (asking 1) = 1 from BitVec.eq_of_toNat_eq hcount, Extends, oneFile_size]
    decide
  refine ⟨_, h, ?_, ?_⟩
  · rw [h.sizeKept_iff, hcount]
    exact fun hno => hno ⟨hfails, hext⟩
  · rw [h.offsetKept_iff, hcount]
    exact fun hno => hno hfails

end Jos.Fs
