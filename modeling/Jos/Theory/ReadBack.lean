import Jos.Theory.FileIo

/-!
# Reading What Was Written

A `file_write` that returns the number of its bytes is seen by a `file_read` of
the same range, and by nothing else: the other bytes of the file and the other
files stay. The exception is the directory of the file, which holds the size
that the write may change.

## Main definitions

* `oneFile`: A disk with one empty file.

## Theorems

* `fileRead_fileWrite`: A read after a write.
-/

namespace Jos.Fs

open Lib.Bytes (load store)

/-! ## A disk with one file -/

/-- A disk of five blocks. The root directory has one block, number 3, with one
    entry: an empty file with the name `a`. Block 4 is free. -/
def oneFile : Mem :=
  let m := store (fun _ => 0) 4 4100 5
  let m := store m 4 8192 0x10
  let m := store m 4 (sRoot + 128) 4096
  let m := store m 4 (sRoot + 132) 1
  let m := store m 4 (sRoot + 136) 3
  copy m 12288 [97]

theorem oneFile_sane : Sane oneFile := by
  have hnb : nbitblocks oneFile = 1 := by decide
  refine ⟨by decide, fun b h1 hlt => ?_⟩
  rw [hnb] at hlt
  have hall : ∀ b < 3, 1 ≤ b → blockIsFree oneFile b = false := by decide
  exact hall b hlt h1

theorem oneFile_root : Owns oneFile sRoot :=
  Owns.of_direct ⟨by decide, by decide, .inl (by decide), by decide⟩ (by decide +kernel)
    (by decide) (by decide +kernel)

theorem oneFile_entry : Owns oneFile 12288 ∧ ∀ b, ¬Owned oneFile 12288 b := by
  have hzero : ∀ k ≤ 1034, slot oneFile 12288 k = 0 :=
    slot_blank oneFile 12288 (by decide)
  refine ⟨Owns.of_empty ⟨by decide, by decide, .inr (by decide), by decide +kernel⟩ hzero,
    ?_⟩
  rintro b ⟨h0, k, hk, rfl⟩
  exact h0 (hzero k hk)

theorem oneFile_apart : Apart oneFile 12288 sRoot :=
  ⟨by decide, fun b hb => absurd hb (oneFile_entry.2 b), oneFile_entry.2 _,
    fun hi => absurd (by decide) hi⟩

/-- A byte is written at the start of the only file. -/
theorem oneFile_write : ∃ m', fileWrite oneFile 12288 [7] 0 = some (1, m') ∧
    byteAt m' sRoot 128 = 1 := by
  have hrun : (fileWrite oneFile 12288 [7] 0).map (fun r => (r.1, byteAt r.2 sRoot 128)) =
      some (1, 1) := by decide
  rcases Option.map_eq_some_iff.1 hrun with ⟨⟨r, m'⟩, hw, hr⟩
  simp only [Prod.mk.injEq] at hr
  exact ⟨m', by rw [hw, hr.1], hr.2⟩

/-! ## Reading back -/

variable {m m0 : Mem} {buf : List (BitVec 8)}

/-- A read of the range that a write has filled. -/
theorem Wrote.read {f : Nat} {offset : BitVec 32}
    (h : Wrote m0 m f offset.toNat buf (offset.toNat + buf.length))
    (hend : offset.toNat + buf.length < 2 ^ 31)
    (hsize : offset.toNat + buf.length ≤ (fSize m f).toNat) (hpos : (fSize m f).toNat < 2 ^ 31) :
    fileRead m f (BitVec.ofNat 64 buf.length) offset = some ((buf.length : Int), buf, m) := by
  have hcount : readable m f (BitVec.ofNat 64 buf.length) offset = buf.length := by
    unfold readable
    rw [BitVec.toNat_ofNat]
    split
    · next hle =>
      -- the file ends at the offset, so that nothing was asked for
      rw [BitVec.sle_iff_toInt_le, BitVec.toInt_eq_toNat_of_lt (by omega),
        BitVec.toInt_eq_toNat_of_lt (by omega)] at hle
      omega
    · omega
  rw [fileRead_present h.sane h.step.owns (by omega), hcount]
  · have hout : ((List.range buf.length).map fun i => byteAt m f (offset.toNat + i)) = buf := by
      refine List.ext_getElem (by simp) fun i hi hi' => ?_
      rw [List.getElem_map, List.getElem_range,
        h.bytes _ (h.reached.range _ (by omega) (by omega))
          (h.reached.present _ (by omega) (by omega)), if_pos (by omega), Nat.add_sub_cancel_left,
        List.getD_eq_getElem?_getD, List.getElem?_eq_getElem hi', Option.getD_some]
    rw [hout]
  · rw [hcount]
    intro q hlo hhi
    exact ⟨h.reached.range q hlo hhi, h.reached.present q hlo hhi⟩

/-- The bytes of the file outside of the range that was written. -/
theorem Wrote.rest {f lo p : Nat} (h : Wrote m0 m f lo buf p) (q : Nat) (hq : q / 4096 < 1034)
    (hne : slot m0 f (q / 4096) ≠ 0) (hout : ¬(lo ≤ q ∧ q < p)) : byteAt m f q = byteAt m0 f q := by
  have hs := h.reached.keep _ hq.le hne
  rw [h.bytes q hq (by rwa [hs]), if_neg hout, hs]
  rfl

/-- The bytes of another file, if those in the structure of `f` stay. -/
theorem FileStep.others {m' : Mem} {f g : Nat} (h : FileStep m m' f) (hg : Owns m g)
    (hap : Apart m f g) (q : Nat) (hq : q / 4096 < 1034) (hne : slot m g (q / 4096) ≠ 0)
    (hin : f ≤ slot m g (q / 4096) * 4096 + q % 4096 →
      slot m g (q / 4096) * 4096 + q % 4096 < f + 256 →
      m' (slot m g (q / 4096) * 4096 + q % 4096) = m (slot m g (q / 4096) * 4096 + q % 4096)) :
    byteAt m' g q = byteAt m g q := by
  have hblock : (slot m g (q / 4096) * 4096 + q % 4096) / 4096 = slot m g (q / 4096) := by omega
  have hown : Owned m g (slot m g (q / 4096)) := ⟨hne, _, Nat.le_of_lt hq, rfl⟩
  unfold byteAt
  rw [(h.other hg hap).slots _ hq.le]
  by_cases hf : f ≤ slot m g (q / 4096) * 4096 + q % 4096 ∧
      slot m g (q / 4096) * 4096 + q % 4096 < f + 256
  · exact hin hf.1 hf.2
  · refine h.bytes _ (hg.block_off_bitmap (by rwa [hblock])) hf ?_
    rw [hblock]
    exact hap.not_pool hg (.inr hown)

/-- A read after a write returns what was written. The bytes of the file outside
    of the range and those of other files stay, except for `f_size`, `f_direct` and
    `f_indirect` of the file in the blocks of its directory. -/
theorem fileRead_fileWrite (m m' : Mem) (f : Nat) (buf : List (BitVec 8)) (offset : BitVec 32)
    (hs : Sane m) (ho : Owns m f) (hsize : (fSize m f).toNat < 2 ^ 31)
    (hend : offset.toNat + buf.length ≤ 1034 * 4096)
    (hw : fileWrite m f buf offset = some ((buf.length : Int), m')) :
    fileRead m' f (BitVec.ofNat 64 buf.length) offset = some ((buf.length : Int), buf, m') ∧
    (∀ q < (fSize m f).toNat, q / 4096 < 1034 → slot m f (q / 4096) ≠ 0 →
      ¬(offset.toNat ≤ q ∧ q < offset.toNat + buf.length) →
      slot m' f (q / 4096) = slot m f (q / 4096) ∧ byteAt m' f q = byteAt m f q) ∧
    ∀ g, Owns m g → Apart m f g → fSize m' g = fSize m g ∧
      ∀ q, q / 4096 < 1034 → slot m' g (q / 4096) = slot m g (q / 4096) ∧
        (slot m g (q / 4096) ≠ 0 →
          ¬(f + 128 ≤ slot m g (q / 4096) * 4096 + q % 4096 ∧
            slot m g (q / 4096) * 4096 + q % 4096 < f + 132) →
          ¬(f + 136 ≤ slot m g (q / 4096) * 4096 + q % 4096 ∧
            slot m g (q / 4096) * 4096 + q % 4096 < f + 180) →
          byteAt m' g q = byteAt m g q) := by
  rcases fileWrite_spec m f buf offset hs ho (by omega) hsize with
    ⟨r, m1, p, hrun, -, -, hwrote, hr⟩
  rw [hrun] at hw
  cases hw
  rcases hr with hneg | ⟨-, rfl⟩
  · omega
  have hext := extended_step ho (offset.toNat + buf.length)
  have hfinal := fSize_extended m f (offset.toNat + buf.length) (by omega)
  refine ⟨?_, ?_, ?_⟩
  · refine hwrote.read (by omega) ?_ ?_
    · rw [hwrote.size, hfinal]
      exact Nat.le_max_right _ _
    · rw [hwrote.size, hfinal]
      omega
  · intro q _ hq hne hout
    have hs0 := hext.2.1 _ hq.le
    have hne0 : slot (extended m f (offset.toNat + buf.length)) f (q / 4096) ≠ 0 := by
      rwa [hs0]
    refine ⟨(hwrote.reached.keep _ hq.le hne0).trans hs0, ?_⟩
    rw [hwrote.rest q hq hne0 hout]
    unfold byteAt
    rw [hs0]
    -- the new size is in the structure, which is in none of the file's blocks
    refine extended_bytes m f _ _ ?_
    have hv := (ho.valid _ hq.le hne).2.2.2
    have hfits := ho.home.fits
    omega
  · intro g hg hap
    have hstep := hext.1.trans hwrote.step
    have hu := hstep.other hg hap
    refine ⟨hu.size, fun q hq => ⟨hu.slots _ hq.le, fun hne hout hslots => ?_⟩⟩
    refine hstep.others hg hap q hq hne fun hlo hhi => ?_
    rw [hwrote.fields _ hlo hhi hslots, extended_bytes m f _ _ hout]

theorem fileRead_fileWrite_oneFile : ∃ m', fileWrite oneFile 12288 [7] 0 = some (1, m') ∧
    fileRead m' 12288 1 0 = some (1, [7], m') ∧ fSize m' sRoot = fSize oneFile sRoot := by
  rcases oneFile_write with ⟨m', hw, -⟩
  have h := fileRead_fileWrite oneFile m' 12288 [7] 0 oneFile_sane oneFile_entry.1
    (by decide) (by decide) hw
  exact ⟨m', hw, h.1, (h.2.2 sRoot oneFile_root oneFile_apart).1⟩

/-- The directory of a file that is extended does change: it holds the size. -/
theorem fileWrite_changes_directory : ∃ m', Sane oneFile ∧ Owns oneFile 12288 ∧
    Owns oneFile sRoot ∧ (∀ b, Owned oneFile 12288 b → ¬Owned oneFile sRoot b) ∧
    fileWrite oneFile 12288 [7] 0 = some (1, m') ∧ 128 < (fSize oneFile sRoot).toNat ∧
    slot oneFile sRoot 0 ≠ 0 ∧ byteAt m' sRoot 128 ≠ byteAt oneFile sRoot 128 := by
  rcases oneFile_write with ⟨m', hw, hbyte⟩
  refine ⟨m', oneFile_sane, oneFile_entry.1, oneFile_root, oneFile_apart.owned, hw,
    by decide, by decide +kernel, ?_⟩
  rw [hbyte]
  decide

end Jos.Fs
