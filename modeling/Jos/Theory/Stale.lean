import Jos.Theory.Exclusive

/-!
# Bytes That Were Never Written

A byte of a file that was not written since the file was created, or since it
was cut off, should read as zero. The file system does not make sure of that:
`file_get_block` hands out blocks as their last owner left them,
`file_truncate_blocks` keeps the end of the last block, and `file_create` takes
over an entry with whatever a stale pointer has done to it. This module follows
which bytes were written along a run, and shows that the property holds as long
as none of the three happens.

## Main definitions

* `Traced`: A run with the positions that were written.
* `Kept`: What is known of one file.
* `Traced.Clean`: No old bytes come into a file.

## Theorems

* `Traced.Inv.step`: Each operation keeps what is known.
* `unwritten_zero`: What a read returns.
-/

namespace Jos.Fs

open Format
open Option (bind_eq_some_iff map_eq_some_iff map_some some.injEq)
open Lib.Bytes (load load_zero store_off load_same)

variable {g lo hi p n f q : Nat} {w : Nat → Bool} {buf path : List (BitVec 8)}
  {offset size : BitVec 32} {files : List Input} {m m' : Mem}

/-! ## One file -/

/-- What is known of a file, where `w` are the positions that were written: it
    has no blocks behind its end, all other bytes are zero, and without a name
    it is empty. -/
structure Kept (m : Mem) (w : Nat → Bool) (f : Nat) : Prop where
  size : (fSize m f).toNat < 2 ^ 31 - 4096
  beyond : ∀ k < 1034, ((fSize m f).toNat + 4095) / 4096 ≤ k → slot m f k = 0
  zero : ∀ q, q / 4096 < 1034 → slot m f (q / 4096) ≠ 0 → w q = false → byteAt m f q = 0
  unnamed : m f = 0 → fSize m f = 0

/-- The blocks of a range are there. -/
def Present (m : Mem) (f lo hi : Nat) : Prop :=
  ∀ q, lo ≤ q → q < hi → q / 4096 < 1034 → slot m f (q / 4096) ≠ 0

/-- The bytes of a file: its structure and its blocks. -/
def SameBytes (m m' : Mem) (g : Nat) : Prop :=
  ∀ a, (g ≤ a ∧ a < g + 256) ∨ Owned m g (a / 4096) → m' a = m a

theorem SameBytes.byteAt (h : SameBytes m m' g) (hu : Untouched m m' g) (hq : q / 4096 < 1034)
    (hne : slot m g (q / 4096) ≠ 0) : byteAt m' g q = byteAt m g q := by
  unfold Fs.byteAt
  rw [hu.slots _ hq.le]
  refine h _ (.inr ?_)
  rw [show (slot m g (q / 4096) * 4096 + q % 4096) / 4096 = slot m g (q / 4096) by omega]
  exact ⟨hne, _, Nat.le_of_lt hq, rfl⟩

/-- A file that an operation does not reach. -/
theorem Kept.untouched (h : Kept m w g) (hu : Untouched m m' g) (hb : SameBytes m m' g) :
    Kept m' w g := by
  refine ⟨hu.size ▸ h.size, ?_, ?_, ?_⟩
  · intro k hk hle
    rw [hu.size] at hle
    rw [hu.slots k (by omega)]
    exact h.beyond k hk hle
  · intro q hq hne hw
    rw [hu.slots _ hq.le] at hne
    rw [hb.byteAt hu hq hne]
    exact h.zero q hq hne hw
  · intro hz
    rw [hu.size]
    refine h.unnamed ?_
    rwa [← hb g (.inl ⟨le_rfl, by omega⟩)]

/-- A file without size and blocks. -/
theorem Kept.of_empty (w : Nat → Bool) (hsize : fSize m f = 0)
    (hslots : ∀ k < 1034, slot m f k = 0) : Kept m w f :=
  ⟨by rw [hsize]; decide, fun k hk _ => hslots k hk, fun q hq hne _ => absurd (hslots _ hq) hne,
    fun _ => hsize⟩

theorem Kept.of_blank (w : Nat → Bool) (h : ∀ t < 256, m (f + t) = 0) : Kept m w f := by
  have hstruct := blank_struct h
  exact Kept.of_empty w hstruct.2.1 fun k hk => hstruct.1 k (by omega)

/-- The bytes of another file are not reached by an operation on `f`. -/
theorem FileStep.sameBytes (h : FileStep m m' f) (hg : Owns m g) (hap : Apart m f g)
    (hap' : Apart m g f) : SameBytes m m' g := by
  rintro a (ha | ha)
  · exact h.frame hg hap (.inl ha)
  · refine h.frame hg hap (.inr ⟨ha, fun he => hap'.home ?_⟩)
    rwa [← he]

/-- The slots that the loop has filled are in the range; if they were not there,
    the free blocks are blank. -/
theorem Reached.spare {m0 : Mem} {k : Nat} (h : Reached m0 m f lo p) (hp : p ≤ hi)
    (hsafe : Spare m0 ∨ Present m0 f lo hi) (hk : k < 1034) (h0 : slot m0 f k = 0)
    (hne : slot m f k ≠ 0) : Spare m0 := by
  rcases hsafe with hs | hpresent
  · exact hs
  · -- some position of the range is in the block
    have honly := h.only k hk h0 hne
    refine absurd h0 ?_
    have hq : (max lo (k * 4096)) / 4096 = k := by omega
    have := hpresent (max lo (k * 4096)) (by omega) (by omega) (by omega)
    rwa [hq] at this

/-- Reading a file. -/
theorem Kept.read (h : Kept m w f) (hg : Grows m m' f) (hr : Reached m m' f lo p) (hp : p ≤ hi)
    (hhi : hi ≤ max lo (fSize m f).toNat) (hsafe : Spare m ∨ Present m f lo hi) : Kept m' w f := by
  refine ⟨hg.size ▸ h.size, ?_, ?_, ?_⟩
  · intro k hk hle
    rw [hg.size] at hle
    have h0 := h.beyond k hk hle
    by_contra hne
    have := hr.only k hk h0 hne
    omega
  · intro q hq hne hw
    by_cases h0 : slot m f (q / 4096) = 0
    · have hs := hr.spare hp hsafe hq h0 hne
      exact hg.blank hs _ hq h0 hne _ (Nat.mod_lt q (by decide))
    · rw [hg.byteAt hq h0]
      exact h.zero q hq h0 hw
  · intro hz
    rw [hg.size]
    refine h.unnamed ?_
    rwa [← hg.fields f le_rfl (by omega) (by omega)]

/-- Writing to a file. -/
theorem Kept.write (h : Kept m w f) (ho : Owns m f) (hname : m f ≠ 0)
    (hend : lo + buf.length < 2 ^ 31 - 4096)
    (hw : Wrote (extended m f (lo + buf.length)) m' f lo buf p) (hp : p ≤ lo + buf.length)
    (hsafe : Spare m ∨ Present m f lo (lo + buf.length)) :
    Kept m' (fun q => w q || decide (lo ≤ q ∧ q < p)) f := by
  have hext := extended_step ho (lo + buf.length)
  have hsize := fSize_extended m f (lo + buf.length) (by omega)
  have hbytes := fun a ha => extended_bytes m f (lo + buf.length) a ha
  have hold := h.size
  -- extending the file changes neither free blocks nor the blocks of the range
  have hsafe' : Spare (extended m f (lo + buf.length)) ∨
      Present (extended m f (lo + buf.length)) f lo (lo + buf.length) := by
    rcases hsafe with hs | hpresent
    · refine .inl fun b o hb ho' => ?_
      rw [hext.2.2] at hb
      rw [hbytes]
      · exact hs b o hb ho'
      · intro ha
        have hfits := ho.home.fits
        have hused := ho.home.used
        rw [show f / 4096 = b by omega, hb] at hused
        cases hused
    · refine .inr fun q hlo hhi hq => ?_
      rw [hext.2.1 _ hq.le]
      exact hpresent q hlo hhi hq
  have hfirst : m' f = m f := by
    rw [hw.fields f le_rfl (by omega) (by omega), hbytes f (by omega)]
  refine ⟨by rw [hw.size, hsize]; omega, ?_, ?_, fun hz => absurd (hfirst.symm.trans hz) hname⟩
  · intro k hk hle
    rw [hw.size, hsize] at hle
    have h0 := h.beyond k hk (by omega)
    by_contra hne
    have := hw.reached.only k hk (by rwa [hext.2.1 k (by omega)]) hne
    omega
  · intro q hq hne hwq
    rw [Bool.or_eq_false_iff, decide_eq_false_iff_not] at hwq
    rw [hw.bytes q hq hne, if_neg hwq.2]
    by_cases h0 : slot (extended m f (lo + buf.length)) f (q / 4096) = 0
    · have hs := hw.reached.spare hp hsafe' hq h0 hne
      exact hs _ _ (hw.reached.fresh _ hq.le h0 hne) (Nat.mod_lt q (by decide))
    · -- a block the file had
      have hkeep := hw.reached.keep _ hq.le h0
      rw [hext.2.1 _ hq.le] at h0 hkeep
      rw [hkeep, hbytes]
      · exact h.zero q hq h0 hwq.1
      · have hv := (ho.valid _ hq.le h0).2.2.2
        have hfits := ho.home.fits
        omega

/-! ## Changing the size -/

section

variable {m m' : Mem} {f : Nat} {P : Nat → Prop} (h : Trimmed m m' f P)
include h

/-- Giving blocks back leaves the bytes of the others. -/
theorem Trimmed.byteAt (ho : Owns m f) (hq : q / 4096 < 1034)
    (hP : ¬P (q / 4096)) (hne : slot m f (q / 4096) ≠ 0) : byteAt m' f q = byteAt m f q := by
  have hblock : (slot m f (q / 4096) * 4096 + q % 4096) / 4096 = slot m f (q / 4096) := by omega
  have hv := (ho.valid _ hq.le hne).2.2.2
  have hfits := ho.home.fits
  unfold Fs.byteAt
  rw [h.kept _ hq hP]
  refine h.bytes _ (ho.block_off_bitmap ?_) (by omega) (.inr ?_)
  · rw [hblock]
    exact ⟨hne, _, Nat.le_of_lt hq, rfl⟩
  · rw [hblock]
    exact ho.ne_indirect hq hne

theorem Trimmed.head (ho : Owns m f) {a : Nat} (hlo : f ≤ a) (hhi : a < f + 136) : m' a = m a := by
  have hfits := ho.home.fits
  exact h.bytes a (ho.off_bitmap a (.inl ⟨hlo, by omega⟩)) (by omega)
    (ho.off_indirect (by omega))

end

/-- The size is written, and the name stays. -/
theorem setSize_head (m : Mem) (f : Nat) (size : BitVec 32) : setSize m f size f = m f :=
  store_off m _ (by omega)

theorem setSize_byteAt (ho : Owns m f) (size : BitVec 32) (hq : q / 4096 < 1034)
    (hne : slot m f (q / 4096) ≠ 0) : byteAt (setSize m f size) f q = byteAt m f q := by
  have hv := (ho.valid _ hq.le hne).2.2.2
  have hfits := ho.home.fits
  unfold byteAt
  rw [(setSize_step ho size).2.1 _ hq.le]
  exact store_off m _ (by omega)

section

variable (h : Kept m w f) (ho : Owns m f)
include h ho

/-- A file is made longer, or keeps its size. -/
theorem Kept.extend (hname : m f ≠ 0)
    (hsize : size.toNat < 2 ^ 31 - 4096) (hle : (fSize m f).toNat ≤ size.toNat) :
    Kept (setSize m f size) w f := by
  have hslots := (setSize_step ho size).2.1
  refine ⟨by rwa [fSize_setSize], ?_, ?_, ?_⟩
  · intro k hk hk'
    rw [fSize_setSize] at hk'
    rw [hslots k (by omega)]
    exact h.beyond k hk (by omega)
  · intro q hq hne hw
    rw [hslots _ hq.le] at hne
    rw [setSize_byteAt ho size hq hne]
    exact h.zero q hq hne hw
  · intro hz
    rw [setSize_head] at hz
    exact absurd hz hname

/-- A file is cut off, with nothing behind its new end in the last block. -/
theorem Kept.cut (hname : m f ≠ 0)
    (hlt : size.toNat < (fSize m f).toNat)
    (htail : ∀ q, size.toNat ≤ q → q / 4096 = size.toNat / 4096 → size.toNat % 4096 ≠ 0 →
      q / 4096 < 1034 → slot m f (q / 4096) ≠ 0 → byteAt m f q = 0)
    (hrun : fileTruncateBlocks m f size = some m') :
    Kept (setSize m' f size) (fun q => w q && decide (q < size.toNat)) f := by
  have hold := h.size
  rcases fileTruncateBlocks_spec m f size ho with ⟨m1, hm1, ht⟩
  rw [hm1, some.injEq] at hrun
  subst hrun
  rw [sizeBlocks_eq (show size.toNat < 2 ^ 31 - 4096 by omega), sizeBlocks_eq hold] at ht
  have ho1 := ht.step.owns
  have hslots := (setSize_step ho1 size).2.1
  -- a block that is left was there, and is not behind the new end
  have hleft : ∀ k < 1034, slot m1 f k ≠ 0 → k < (size.toNat + 4095) / 4096 ∧
      ¬((size.toNat + 4095) / 4096 ≤ k ∧ k < ((fSize m f).toNat + 4095) / 4096 ∨
        (size.toNat + 4095) / 4096 ≤ 10 ∧ 10 ≤ k) ∧ slot m f k ≠ 0 := by
    intro k hk hne
    have hP : ¬((size.toNat + 4095) / 4096 ≤ k ∧ k < ((fSize m f).toNat + 4095) / 4096 ∨
        (size.toNat + 4095) / 4096 ≤ 10 ∧ 10 ≤ k) := fun hP => hne (ht.cleared k hk hP)
    have hs : slot m f k ≠ 0 := by
      rwa [← ht.kept k hk hP]
    refine ⟨?_, hP, hs⟩
    by_contra hge
    have hin : ¬((fSize m f).toNat + 4095) / 4096 ≤ k := fun hb => hs (h.beyond k hk hb)
    omega
  refine ⟨by rw [fSize_setSize]; omega, ?_, ?_, ?_⟩
  · intro k hk hle
    rw [fSize_setSize] at hle
    rw [hslots k (by omega)]
    by_contra hne
    have := (hleft k hk hne).1
    omega
  · intro q hq hne hw
    rw [hslots _ hq.le] at hne
    rcases hleft _ hq hne with ⟨hin, hP, hs⟩
    rw [setSize_byteAt ho1 size hq hne, ht.byteAt ho hq hP hs]
    rw [Bool.and_eq_false_iff, decide_eq_false_iff_not] at hw
    rcases hw with hw | hge
    · exact h.zero q hq hs hw
    · exact htail q (by omega) (by omega) (by omega) hq hs
  · intro hz
    rw [setSize_head, ht.head ho le_rfl (by omega)] at hz
    exact absurd hz hname

/-- A file is removed. -/
theorem Kept.remove (w' : Nat → Bool)
    (hrun : fileTruncateBlocks m f 0 = some m') : Kept (setSize (copy m' f [0]) f 0) w' f := by
  rcases fileTruncateBlocks_spec m f 0 ho with ⟨m1, hm1, ht⟩
  rw [hm1, some.injEq] at hrun
  subst hrun
  rw [sizeBlocks_eq h.size, sizeBlocks_eq (show (0 : BitVec 32).toNat < 2 ^ 31 - 4096 by decide),
    show ((0 : BitVec 32).toNat + 4095) / 4096 = 0 from rfl] at ht
  have hout : ∀ a, ¬(f ≤ a ∧ a < f + 132) → copy m1 f [0] a = m1 a := fun a ha =>
    if_neg (by rw [List.length_singleton]; omega)
  have hstruct := FileStep.of_struct ht.step.owns hout
  refine Kept.of_empty w' (fSize_setSize _ f 0) fun k hk => ?_
  rw [(setSize_step hstruct.1.owns 0).2.1 k (by omega), hstruct.2.1 k (by omega)]
  by_cases hin : k < ((fSize m f).toNat + 4095) / 4096
  · exact ht.cleared k hk (.inl ⟨Nat.zero_le _, hin⟩)
  · by_cases hten : 10 ≤ k
    · exact ht.cleared k hk (.inr ⟨Nat.zero_le _, hten⟩)
    · rw [ht.kept k hk (by omega)]
      exact h.beyond k hk (by omega)

/-- An entry without a name gets one. -/
theorem Kept.create {name : List (BitVec 8)} (hz : m f = 0)
    (hlen : name.length < 128) (w' : Nat → Bool) : Kept (copy m f (name ++ [0])) w' f := by
  have hsize := h.unnamed hz
  have hslots :=
    (FileStep.of_struct ho fun a ha => copyName_out (m := m) (f := f) hlen (by omega)).2.1
  refine Kept.of_empty w' ?_ fun k hk => ?_
  · rw [← hsize]
    unfold fSize
    rw [load_same m fun a hlo hhi => copyName_out (f := f) hlen (by omega)]
  · rw [hslots k (by omega)]
    refine h.beyond k hk ?_
    rw [hsize]
    exact Nat.zero_le k

end

/-! ## Runs -/

/-- A session with the positions of each file that were written since it was
    created, or since they were cut off. -/
structure Traced where
  session : Session
  written : Nat → Nat → Bool

namespace Traced

abbrev mem (t : Traced) : Mem := t.session.mem

/-- Give the positions of one file. -/
def mark (w : Nat → Nat → Bool) (f : Nat) (p : Nat → Bool) : Nat → Nat → Bool := fun f' =>
  if f' = f then p else w f'

/-- The number of bytes that `file_write` copies, also if it fails in the end. -/
def copied (m : Mem) (f : Nat) (buf : List (BitVec 8)) (offset : BitVec 32) : Nat :=
  match fileWriteBy (logged writeChunk) m f (BitVec.ofNat 64 buf.length) offset ([], buf) with
  | some r => total r.2.2.1
  | none => 0

/-- The positions that were written, after an operation. -/
def note (t : Traced) : Op → Nat → Nat → Bool
  | .create path =>
    match fileCreate t.mem path with
    | some (.ok f, _) => mark t.written f fun _ => false
    | _ => t.written
  | .write f buf offset =>
    mark t.written f fun q => t.written f q ||
      decide (offset.toNat ≤ q ∧ q < offset.toNat + copied t.mem f buf offset)
  | .setSize f size =>
    if size.slt (fSize t.mem f) then
      mark t.written f fun q => t.written f q && decide ((q : Int) < size.toInt)
    else t.written
  | .remove path =>
    match fileOpen t.mem path with
    | some (.ok f, _) => mark t.written f fun _ => false
    | _ => t.written
  | _ => t.written

def step (t : Traced) (op : Op) : Option Traced :=
  (t.session.step op).map fun s => ⟨s, t.note op⟩

/-- A disk at the start: the files have their contents. -/
def start (m : Mem) : Traced := ⟨⟨m, []⟩, fun f q => decide (q < (fSize m f).toNat)⟩

/-- No old bytes come into a file: blocks that are taken over are blank, a file
    is cut off where nothing follows in its last block, and only files that have
    a name are changed. Positions and sizes are in the range of `off_t`. -/
def Clean (t : Traced) : Op → Prop
  | .create _ => Roomy t.mem ∨ Spare t.mem
  | .openFile _ => Ready t.mem
  | .read f count offset => f ≠ sRoot ∧ 0 ≤ offset.toInt ∧
      (Spare t.mem ∨
        Present t.mem f offset.toNat (offset.toNat + readable t.mem f count offset))
  | .write f buf offset => f ≠ sRoot ∧ 0 ≤ offset.toInt ∧ t.mem f ≠ 0 ∧
      offset.toNat + buf.length < 2 ^ 31 - 4096 ∧
      (Spare t.mem ∨ Present t.mem f offset.toNat (offset.toNat + buf.length))
  | .setSize f size => f ≠ sRoot ∧ t.mem f ≠ 0 ∧ size.toNat < 2 ^ 31 - 4096 ∧
      (size.toNat < (fSize t.mem f).toNat →
        ∀ q, size.toNat ≤ q → q / 4096 = size.toNat / 4096 → size.toNat % 4096 ≠ 0 →
          q / 4096 < 1034 → slot t.mem f (q / 4096) ≠ 0 → byteAt t.mem f q = 0)
  | .remove path => skipSlash path ≠ [] ∧ Ready t.mem

/-- The invariant. -/
structure Inv (t : Traced) : Prop where
  base : t.session.Inv
  kept : ∀ f, Entry t.mem f → Kept t.mem (t.written f) f

namespace Inv

variable {t : Traced}

/-- The directory was looked through. -/
theorem widened (h : Inv t) (hw : Widened t.mem m) (f : Nat) (hf : Entry m f) :
    Kept m (t.written f) f := by
  rcases hw.new f hf with hold | hz
  · have ho := hw.old f hold
    exact (h.kept f hold).untouched ho.2.1 ho.2.2
  · exact Kept.of_blank _ hz

end Inv

/-- An operation on one entry leaves the others. -/
theorem kept_step {w : Nat → Nat → Bool} {f : Nat} {p : Nat → Bool} (ht : Tidy m)
    (hk : ∀ g, Entry m g → Kept m (w g) g) (hf : Entry m f) (hs : FileStep m m' f)
    (hkf : Kept m' p f) (g : Nat) (hg : Entry m' g) : Kept m' (mark w f p g) g := by
  have hroot := hs.other ht.root (ht.top f hf)
  rw [entry_congr hroot.slots] at hg
  unfold mark
  by_cases hgf : g = f
  · rwa [if_pos hgf, hgf]
  · rw [if_neg hgf]
    have hap := ht.apart f g hf hg (Ne.symm hgf)
    exact (hk g hg).untouched (hs.other (ht.entry g hg) hap)
      (hs.sameBytes (ht.entry g hg) hap (ht.apart g f hg hf hgf))

namespace Inv

variable {t t' : Traced}

theorem create (h : Inv t) (hc : Roomy t.mem ∨ Spare t.mem) (hs : t.step (.create path) = some t') :
    Inv t' := by
  simp only [Traced.step, Session.step, Option.map_map, map_eq_some_iff] at hs
  rcases hs with ⟨r, hrun, rfl⟩
  refine ⟨h.base.create hc hrun, ?_⟩
  rcases r with ⟨r, m'⟩
  simp only [Function.comp_apply, note, hrun]
  rcases fileCreate_spec h.base.tidy hc hrun with
    ⟨m1, hw, ⟨⟨e, rfl⟩, rfl⟩ | ⟨f, name, rfl, hf, hz, hlen, rfl⟩⟩
  · exact h.widened hw
  · have ho := hw.tidy.entry f hf
    exact kept_step hw.tidy (h.widened hw) hf (copyName_step ho hlen)
      ((h.widened hw f hf).create ho hz hlen _)

theorem openFile (h : Inv t) (hc : Ready t.mem) (hs : t.step (.openFile path) = some t') :
    Inv t' := by
  simp only [Traced.step, Session.step, Option.map_map, map_eq_some_iff] at hs
  rcases hs with ⟨r, hrun, rfl⟩
  refine ⟨h.base.openFile hc hrun, ?_⟩
  rcases r with ⟨e | f, m'⟩
  · exact h.widened (fileOpen_spec h.base.tidy hc hrun).1
  · exact h.widened (fileOpen_spec h.base.tidy hc hrun).1

/-- An operation on an entry through a file that was returned. -/
theorem fileStep (h : Inv t) {p : Nat → Bool} (hf : Entry t.mem f) (hs : FileStep t.mem m f)
    (hk : Kept m p f) : Inv ⟨⟨m, t.session.given⟩, mark t.written f p⟩ :=
  ⟨h.base.fileStep hf hs, kept_step h.base.tidy h.kept hf hs hk⟩

theorem mark_self (w : Nat → Nat → Bool) (f : Nat) : mark w f (w f) = w := by
  funext g
  unfold mark
  by_cases hg : g = f
  · rw [if_pos hg, hg]
  · rw [if_neg hg]

/-- The range of a read is within the file. -/
theorem readable_le (m : Mem) (f : Nat) (count : BitVec 64) (offset : BitVec 32) :
    offset.toNat + readable m f count offset ≤ max offset.toNat (fSize m f).toNat := by
  unfold readable
  split <;> omega

variable (h : Inv t)
include h

theorem read {count : BitVec 64} (hc : t.Clean (.read f count offset))
    (hs : t.step (.read f count offset) = some t') : Inv t' := by
  rcases hc with ⟨hne, hoff, hsafe⟩
  simp only [Traced.step, Session.step] at hs
  split at hs
  · next hgiven =>
    have hf := (h.base.given f hgiven).resolve_left hne
    rcases fileRead_spec count h.base.tidy.sane (h.base.tidy.entry f hf)
      (toNat_of_nonneg hoff) with ⟨r, out, m', p, hrun, hg, -, hr, hp, -⟩
    rw [hrun, map_some, map_some] at hs
    cases hs
    have hk := (h.kept f hf).read hg hr hp (readable_le _ _ _ _) hsafe
    have hi := h.fileStep hf hg.fileStep hk
    rwa [mark_self] at hi
  · cases hs

theorem write (hc : t.Clean (.write f buf offset))
    (hs : t.step (.write f buf offset) = some t') : Inv t' := by
  rcases hc with ⟨hne, hoff, hname, hend, hsafe⟩
  simp only [Traced.step, Session.step] at hs
  split at hs
  · next hgiven =>
    have hf := (h.base.given f hgiven).resolve_left hne
    have ho := h.base.tidy.entry f hf
    have hsize := (h.kept f hf).size
    rcases fileWriteBy_spec t.mem buf offset h.base.tidy.sane ho (by omega) (by omega) with
      ⟨r, m', log, rest, p, hrun, hlo, hhi, hw, htot, -⟩
    rw [fileWrite_logged, hrun, map_some, map_some, map_some,
      some.injEq] at hs
    rw [← hs]
    have hp : offset.toNat + copied t.mem f buf offset = p := by
      unfold copied
      rw [hrun]
      simp only
      omega
    have hk := (h.kept f hf).write ho hname hend hw hhi hsafe
    simp only [note, hp]
    exact h.fileStep hf ((extended_step ho _).1.trans hw.step) hk
  · cases hs

theorem setSize (hc : t.Clean (.setSize f size))
    (hs : t.step (.setSize f size) = some t') : Inv t' := by
  rcases hc with ⟨hne, hname, hsize, htail⟩
  simp only [Traced.step, Session.step] at hs
  split at hs
  · next hgiven =>
    have hf := (h.base.given f hgiven).resolve_left hne
    have ho := h.base.tidy.entry f hf
    have hk := h.kept f hf
    have hold := hk.size
    have hslt := slt_iff (a := size) (b := fSize t.mem f) (by omega) (by omega)
    rcases fileSetSize_step size ho with ⟨m', hrun, hstep⟩
    rw [hrun, map_some, map_some] at hs
    cases hs
    unfold fileSetSize at hrun
    simp only [note]
    by_cases hlt : size.toNat < (fSize t.mem f).toNat
    · rw [if_pos (hslt.2 hlt)] at hrun ⊢
      rcases map_eq_some_iff.1 hrun with ⟨m1, htrunc, rfl⟩
      have hcut := hk.cut ho hname hlt (htail hlt) htrunc
      have hint : size.toInt = size.toNat := BitVec.toInt_eq_toNat_of_lt (by omega)
      simp only [hint, Int.ofNat_lt]
      exact h.fileStep hf hstep hcut
    · have hnot : ¬size.slt (fSize t.mem f) = true := fun hs => hlt (hslt.1 hs)
      rw [if_neg hnot] at hrun ⊢
      rw [map_some] at hrun
      cases hrun
      have hi := h.fileStep hf hstep (hk.extend ho hname hsize (by omega))
      rwa [mark_self] at hi
  · cases hs

theorem remove (hc : t.Clean (.remove path)) (hs : t.step (.remove path) = some t') :
    Inv t' := by
  rcases hc with ⟨hpath, hready⟩
  simp only [Traced.step, Session.step, Option.map_map, map_eq_some_iff] at hs
  rcases hs with ⟨r, hrun, rfl⟩
  refine ⟨h.base.remove hpath hready hrun, ?_⟩
  rcases r with ⟨r, m'⟩
  rcases fileRemove_spec h.base.tidy hready hpath hrun with
    ⟨r1, m1, hopen, hw, ⟨⟨e, rfl⟩, rfl⟩ | ⟨f, m2, rfl, hf, htrunc, rfl⟩⟩
  · simp only [Function.comp_apply, note, hopen]
    exact h.widened hw
  · simp only [Function.comp_apply, note, hopen]
    have ho := hw.tidy.entry f hf
    exact kept_step hw.tidy (h.widened hw) hf (fileRemove_step ho htrunc)
      ((h.widened hw f hf).remove ho _ htrunc)

theorem step {op : Op} (hc : t.Clean op) (hs : t.step op = some t') : Inv t' := by
  cases op with
  | create path => exact h.create hc hs
  | openFile path => exact h.openFile hc hs
  | read f count offset => exact h.read hc hs
  | write f buf offset => exact h.write hc hs
  | setSize f size => exact h.setSize hc hs
  | remove path => exact h.remove hc hs

end Inv

end Traced

/-- The files of an image have their contents and zeros behind them. -/
theorem Image.kept (h : Image m n files)
    (hnames : ∀ file ∈ files, last file.name ≠ [] ∧ 0 ∉ last file.name) (hf : Entry m f) :
    Kept m ((Traced.start m).written f) f := by
  rcases h.entry_cases hf with ⟨i, rfl, -, ⟨file, hi⟩ | hz⟩
  · have hsize := h.size_place hi
    have hlaid : Laid m (Image.place files i) (last file.name) file.data (startOf 3 files i) :=
      (h.laid i file hi).2
    have hlen := (h.laid i file hi).1
    have hblocks : (file.data.length + 4095) / 4096 = blocks file.data := rfl
    -- a block of the file is one of those for its bytes
    have hlt : ∀ k < 1034, slot m (Image.place files i) k ≠ 0 → k < blocks file.data := by
      intro k hk hne
      have := hlaid.number (by omega) hne
      omega
    refine ⟨by omega, ?_, ?_, ?_⟩
    · intro k hk hle
      rw [hsize, hblocks] at hle
      by_contra hne
      have := hlt k hk hne
      omega
    · intro q hq hne hw
      simp only [Traced.start, decide_eq_false_iff_not, hsize] at hw
      have hblock := h.block_place hi (hlt _ hq hne)
      refine (hblock.2.2 (q % 4096) (Nat.mod_lt q (by decide))).trans ?_
      rw [List.getD_eq_getElem?_getD, List.getElem?_eq_none (by omega)]
      rfl
    · intro hz
      have hmem := hnames file (List.mem_of_getElem? hi)
      have hpos := List.length_pos_iff.2 hmem.1
      refine absurd hz ?_
      have hfirst := hlaid.name 0 hpos
      rw [Nat.add_zero] at hfirst
      rw [hfirst]
      exact getD_ne_zero hmem.2 hpos
  · exact Kept.of_blank _ hz

theorem Traced.Inv.start (hm : Formatted n files m)
    (hnames : ∀ file ∈ files, last file.name ≠ [] ∧ 0 ∉ last file.name) :
    Traced.Inv (Traced.start m) :=
  ⟨⟨hm.image.tidy, fun _ hf => absurd hf List.not_mem_nil⟩,
    fun _ hf => hm.image.kept hnames hf⟩

/-- In a run in which no old bytes come into a file, a position that was not
    written reads as zero. -/
theorem unwritten_zero (n : Nat) (files : List Input) (m : Mem) (t : Traced)
    (hm : Formatted n files m) (hnames : ∀ file ∈ files, last file.name ≠ [] ∧ 0 ∉ last file.name)
    (hrun : Lib.Run Traced.step Traced.Clean (Traced.start m) t) (f : Nat) (hf : Entry t.mem f)
    (count : BitVec 64) (offset : BitVec 32) (hc : t.Clean (.read f count offset)) (r : Int)
    (out : List (BitVec 8)) (m' : Mem) (hread : fileRead t.mem f count offset = some (r, out, m'))
    (hr : 0 ≤ r) (i : Nat) (hi : i < out.length)
    (hw : t.written f (offset.toNat + i) = false) : out.getD i 0 = 0 := by
  have hinv : t.Inv := Lib.Run.invariant Traced.Inv
    (fun s op s' hs hop hstep => hs.step hop hstep) hrun (Traced.Inv.start hm hnames)
  rcases hc with ⟨-, hoff, hsafe⟩
  rcases fileRead_spec count hinv.base.tidy.sane (hinv.base.tidy.entry f hf)
    (toNat_of_nonneg hoff) with ⟨r', out', m1, p, hrun', hg, -, hreach, hp, hres⟩
  rw [hread] at hrun'
  cases hrun'
  rcases hres.1 with hneg | ⟨-, rfl, hout⟩
  · omega
  have hk := (hinv.kept f hf).read hg hreach hp (Traced.Inv.readable_le _ _ _ _) hsafe
  rw [hout, List.length_map, List.length_range] at hi
  have hbyte := hk.zero (offset.toNat + i) (hreach.range _ (by omega) (by omega))
    (hreach.present _ (by omega) (by omega)) hw
  rwa [hout, List.getD_eq_getElem?_getD, List.getElem?_map, List.getElem?_range hi]

/-- A file of one byte is opened and made longer by one: the new byte is zero. -/
theorem unwritten_zero_single : ∃ m t1 t2 r, Formatted 6 [⟨[97], [7]⟩] m ∧
    (Traced.start m).step (.openFile [97]) = some t1 ∧
    t1.step (.setSize 16384 2) = some t2 ∧ t2.written 16384 1 = false ∧
    fileRead t2.mem 16384 2 0 = some r ∧ r.1 = 2 ∧ r.2.1.getD 1 0 = 0 := by
  have heval : ((fsformat 6 [⟨[97], [7]⟩]).bind fun m =>
      ((Traced.start m).step (.openFile [97])).bind fun t1 =>
        (t1.step (.setSize 16384 2)).bind fun t2 =>
          (fileRead t2.mem 16384 2 0).map fun r =>
            ((t1.mem 16384, fSize t1.mem 16384), (t2.written 16384 1, fSize t2.mem 16384),
              (slot t2.mem 16384 0, slot t2.mem sRoot 0), r.1, r.2.1.length)) =
      some ((97, 1), (false, 2), (3, 4), 2, 2) := by decide +kernel
  rcases bind_eq_some_iff.1 heval with ⟨m, hm, h1⟩
  rcases bind_eq_some_iff.1 h1 with ⟨t1, hopen, h2'⟩
  rcases bind_eq_some_iff.1 h2' with ⟨t2, hsize, h3⟩
  rcases map_eq_some_iff.1 h3 with ⟨⟨r, out, m'⟩, hread, hfacts⟩
  simp only [Prod.mk.injEq] at hfacts
  rcases hfacts with ⟨⟨hname, hold⟩, ⟨hw, hnew⟩, ⟨hslot, hroot⟩, hr, hlen⟩
  have hfmt : Formatted 6 [⟨[97], [7]⟩] m := ⟨hm, by decide, by decide⟩
  have hrun : Lib.Run Traced.step Traced.Clean (Traced.start m) t2 := by
    refine Relation.ReflTransGen.head ⟨.openFile [97], .inl hfmt.image.noGap, hopen⟩
      (Relation.ReflTransGen.single ⟨.setSize 16384 2, ?_, hsize⟩)
    refine ⟨by decide, by rw [hname]; decide, by decide, fun hlt => absurd hlt ?_⟩
    rw [hold]
    decide
  have hentry : Entry t2.mem 16384 :=
    ⟨0, by decide, 0, by decide, by rw [hroot]; decide, by rw [hroot]⟩
  refine ⟨m, t1, t2, _, hfmt, hopen, hsize, hw, hread, hr, ?_⟩
  refine unwritten_zero 6 [⟨[97], [7]⟩] m t2 hfmt (by decide) hrun 16384 hentry 2 0
    ⟨by decide, by decide, .inr ?_⟩ r out m' hread (by omega) 1 (by omega) hw
  intro q _ hq _
  have hle := Traced.Inv.readable_le t2.mem 16384 2 0
  have h2 : (2 : BitVec 32).toNat = 2 := rfl
  have h0 : (0 : BitVec 32).toNat = 0 := rfl
  rw [hnew] at hle
  rw [show q / 4096 = 0 by omega, hslot]
  decide

/-- A byte that was not written is read, and it is not zero. -/
def StaleRead (n : Nat) (files : List Input) : Prop :=
  ∃ m t f offset b m', fsformat n files = some m ∧
    Lib.Run Traced.step (fun _ op => op.Legal) (Traced.start m) t ∧ Listed t.mem f ∧
    t.written f offset.toNat = false ∧ fileRead t.mem f 1 offset = some (1, [b], m') ∧ b ≠ 0

/-- Executing the operations shows such a byte. -/
theorem StaleRead.of_events {n : Nat} (ops : List Op) (f k j : Nat) (offset : BitVec 32)
    (b : BitVec 8) (hops : ∀ op ∈ ops, op.Legal) (hk : k < 1034) (hj : j < 16) (hb : b ≠ 0)
    (heval : ((fsformat n files).bind fun m =>
      (Lib.runEvents Traced.step (Traced.start m) ops).bind fun t =>
        (fileRead t.mem f 1 offset).map fun r =>
          (r.1, r.2.1, t.written f offset.toNat, decide (slot t.mem sRoot k ≠ 0),
            decide (f = slot t.mem sRoot k * 4096 + 256 * j), decide (t.mem f ≠ 0))) =
      some (1, [b], false, true, true, true)) : StaleRead n files := by
  rcases bind_eq_some_iff.1 heval with ⟨m, hm, h1⟩
  rcases bind_eq_some_iff.1 h1 with ⟨t, ht, h2⟩
  rcases map_eq_some_iff.1 h2 with ⟨⟨r, out, m'⟩, hread, hfacts⟩
  simp only [Prod.mk.injEq, decide_eq_true_eq] at hfacts
  rcases hfacts with ⟨rfl, rfl, hw, hroot, hf, hname⟩
  refine ⟨m, t, f, offset, b, m', hm, ?_, ⟨⟨k, hk, j, hj, hroot, hf⟩, hname⟩, hw, hread, hb⟩
  exact Lib.Run.of_forall _ _ (fun op hop _ => hops op hop) ht

/-- A file reads what another one has left in a block, what it had itself behind
    the place where it was cut off, and what a stale pointer has put into its
    entry before it was created. -/
theorem stale_reads : StaleRead 7 [⟨[97], [7]⟩, ⟨[98], []⟩] ∧ StaleRead 7 [⟨[97], [7, 8]⟩] ∧
    StaleRead 7 [⟨[97], [7]⟩] := by
  refine ⟨?_, ?_, ?_⟩
  · refine StaleRead.of_events [.openFile [97], .openFile [98], .setSize 16384 0,
      .setSize 16640 1] 16640 0 1 0 7 ?_ (by decide) (by decide) (by decide) (by decide +kernel)
    simp [Op.Legal, sRoot]
  · refine StaleRead.of_events [.openFile [97], .setSize 16384 1, .setSize 16384 2] 16384 0 0 1 8
      ?_ (by decide) (by decide) (by decide) (by decide +kernel)
    simp [Op.Legal, sRoot]
  · refine StaleRead.of_events [.openFile [97], .remove [97], .write 16384 [9] 0, .create [98]]
      16384 0 0 0 9 ?_ (by decide) (by decide) (by decide) (by decide +kernel)
    have hpath : skipSlash [97#8] ≠ [] := by decide
    simp [Op.Legal, sRoot, hpath]

end Jos.Fs
