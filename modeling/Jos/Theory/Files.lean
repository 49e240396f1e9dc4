import Jos.Theory.Bitmap

/-!
# The Blocks of a File

A file holds block numbers in 1035 places: ten direct slots, the 1024 words of
its indirect block, and the field for the indirect block itself. `Owns` says
that the numbers of a file are different blocks that are in use, and none of
the blocks that hold the bookkeeping. The operations on a file keep this, and
change nothing but the bitmap, the file's own structure and blocks, and blocks
that were free.

## Main definitions

* `slot`: The block number in a place.
* `Owns`: The blocks of a file are its own.
* `Grows`: The file got further blocks.
* `FileStep`: An operation worked on the file.

## Theorems

* `fileGetBlock_spec`: The block of a file, old or new.
* `fileTruncateBlocks_spec`: The blocks that remain.
* `FileStep.other`: What remains of another file.
-/

namespace Jos.Fs

open Lib.Bytes (load store load_lt store_off load_store_off load_store_at load_same load_zero)

/-- The block number in place `k` of a file: the slots of its data blocks, and
    the field for the indirect block at 1034. -/
def slot (m : Mem) (f k : Nat) : Nat :=
  if k < 10 then load m 4 (f + 136 + 4 * k)
  else if k = 1034 then fIndirect m f
  else if fIndirect m f = 0 then 0
  else load m 4 (fIndirect m f * 4096 + 4 * (k - 10))

/-- The address of the slot of a data block. -/
def cell (m : Mem) (f k : Nat) : Nat :=
  if k < 10 then f + 136 + 4 * k else fIndirect m f * 4096 + 4 * (k - 10)

theorem slot_indirect (m : Mem) (f : Nat) : slot m f 1034 = fIndirect m f := rfl

theorem slot_direct (m : Mem) {k : Nat} (f : Nat) (h : k < 10) :
    slot m f k = load m 4 (f + 136 + 4 * k) :=
  if_pos h

variable {m m' : Mem} {f k b g a : Nat}

theorem slot_far (h : 10 ≤ k) (hk : k < 1034) (hi : fIndirect m f ≠ 0) :
    slot m f k = load m 4 (fIndirect m f * 4096 + 4 * (k - 10)) := by
  unfold slot
  rw [if_neg (by omega), if_neg (by omega), if_neg hi]

theorem slot_none (h : 10 ≤ k) (hk : k ≤ 1034) (hi : fIndirect m f = 0) : slot m f k = 0 := by
  unfold slot
  rw [if_neg (by omega), if_pos hi, hi, ite_self]

theorem load_cell (hk : k < 1034) (hi : k < 10 ∨ fIndirect m f ≠ 0) :
    load m 4 (cell m f k) = slot m f k := by
  unfold cell
  by_cases h : k < 10
  · rw [if_pos h, slot_direct m f h]
  · rw [if_neg h, slot_far (by omega) hk (hi.resolve_left h)]

/-- The slots of a memory with the same structure and the same indirect block. -/
theorem slot_congr {f : Nat} (hf : ∀ a, f + 136 ≤ a → a < f + 180 → m' a = m a)
    (hi : fIndirect m f ≠ 0 → ∀ a, a / 4096 = fIndirect m f → m' a = m a) (k : Nat)
    (hk : k ≤ 1034) : slot m' f k = slot m f k := by
  have hind : fIndirect m' f = fIndirect m f :=
    load_same m fun a hlo hhi => hf a (by omega) (by omega)
  by_cases h : k < 10
  · rw [slot_direct m' f h, slot_direct m f h]
    exact load_same m fun a hlo hhi => hf a (by omega) (by omega)
  · by_cases hz : fIndirect m f = 0
    · rw [slot_none (by omega) hk hz, slot_none (by omega) hk (hind.trans hz)]
    · by_cases h' : k = 1034
      · rw [h', slot_indirect, slot_indirect, hind]
      · rw [slot_far (by omega) (by omega) hz,
          slot_far (by omega) (by omega) (by rwa [hind]), hind]
        exact load_same m fun a hlo hhi => hi hz a (by omega)

/-- The file holds the number of block `b`. -/
def Owned (m : Mem) (f b : Nat) : Prop := b ≠ 0 ∧ ∃ k ≤ 1034, slot m f k = b

/-- The blocks an operation on the file may take over or give back. -/
def Pool (m : Mem) (f b : Nat) : Prop := blockIsFree m b = true ∨ Owned m f b

/-- The structure at `f` is inside a block that is in use and holds neither the
    bitmap nor, before `f`, the head of the super block. -/
structure Home (m : Mem) (f : Nat) : Prop where
  low : 4104 ≤ f
  fits : f % 4096 + 256 ≤ 4096
  off : f / 4096 = 1 ∨ 2 + nbitblocks m ≤ f / 4096
  used : blockIsFree m (f / 4096) = false

/-- The blocks of the file are different, in use, not reserved, and not the one
    with its own structure. -/
structure Owns (m : Mem) (f : Nat) : Prop where
  home : Home m f
  valid : ∀ k ≤ 1034, slot m f k ≠ 0 → 2 + nbitblocks m ≤ slot m f k ∧ slot m f k < sNblocks m ∧
    blockIsFree m (slot m f k) = false ∧ slot m f k ≠ f / 4096
  inj : ∀ k k', k ≤ 1034 → k' ≤ 1034 → slot m f k ≠ 0 → slot m f k = slot m f k' → k = k'

namespace Owns

variable {m m' : Mem} {f : Nat}

section

variable (h : Owns m f)

include h

theorem indirect_valid (hi : fIndirect m f ≠ 0) :
    2 + nbitblocks m ≤ fIndirect m f ∧ fIndirect m f < sNblocks m ∧
      blockIsFree m (fIndirect m f) = false ∧ fIndirect m f ≠ f / 4096 :=
  h.valid 1034 le_rfl hi

/-- A block that is reserved or has the structure is not the indirect block. -/
theorem off_indirect {a : Nat} (ha : a / 4096 < 2 + nbitblocks m ∨ a / 4096 = f / 4096) :
    fIndirect m f = 0 ∨ a / 4096 ≠ fIndirect m f := by
  refine or_iff_not_imp_left.2 fun hz => ?_
  have hv := h.indirect_valid hz
  omega

theorem indirect_ne (hi : fIndirect m f ≠ 0) : fIndirect m f ≠ f / 4096 :=
  (h.indirect_valid hi).2.2.2

/-- A data block is not the indirect block. -/
theorem ne_indirect (hk : k < 1034) (hs : slot m f k ≠ 0) :
    slot m f k ≠ fIndirect m f := by
  intro he
  have := h.inj k 1034 (by omega) le_rfl hs he
  omega

/-- The bytes of the slots are not in the bitmap. -/
theorem off_bitmap (a : Nat)
    (ha : (f ≤ a ∧ a < f + 256) ∨ (fIndirect m f ≠ 0 ∧ a / 4096 = fIndirect m f)) :
    ¬InBitmap m a := by
  unfold InBitmap
  rcases ha with ha | ⟨hi, ha⟩
  · have hfits := h.home.fits
    have hoff := h.home.off
    omega
  · have hv := (h.indirect_valid hi).1
    omega

/-- Slots do not depend on the bitmap. -/
theorem slot_of_bytes (hb : ∀ a, ¬InBitmap m a → m' a = m a) (k : Nat)
    (hk : k ≤ 1034) : slot m' f k = slot m f k := by
  refine slot_congr ?_ ?_ k hk
  · intro a hlo hhi
    exact hb a (h.off_bitmap a (.inl (by omega)))
  · intro hi a ha
    exact hb a (h.off_bitmap a (.inr ⟨hi, ha⟩))

theorem in_use (hb : b = f / 4096 ∨ Owned m f b) : blockIsFree m b = false := by
  rcases hb with rfl | ⟨h0, k, hk, rfl⟩
  · exact h.home.used
  · exact (h.valid k hk h0).2.2.1

/-- Blocks that are in use may change their contents and the file its slots. -/
theorem of_slots (hn : sNblocks m' = sNblocks m) (hhome : blockIsFree m' (f / 4096) = false)
    (hvalid : ∀ k ≤ 1034, slot m' f k ≠ 0 → 2 + nbitblocks m ≤ slot m' f k ∧
      slot m' f k < sNblocks m ∧ blockIsFree m' (slot m' f k) = false ∧ slot m' f k ≠ f / 4096)
    (hinj : ∀ k k', k ≤ 1034 → k' ≤ 1034 → slot m' f k ≠ 0 → slot m' f k = slot m' f k' → k = k') :
    Owns m' f := by
  have hnb := nbitblocks_congr hn
  refine ⟨⟨h.home.low, h.home.fits, ?_, hhome⟩, ?_, hinj⟩
  · rw [hnb]
    exact h.home.off
  · rwa [hnb, hn]

/-- The file keeps its slots, and its blocks stay in use. -/
theorem of_used (hn : sNblocks m' = sNblocks m)
    (hused : ∀ b, (b = f / 4096 ∨ Owned m f b) → blockIsFree m b = false →
      blockIsFree m' b = false) (hslot : ∀ k ≤ 1034, slot m' f k = slot m f k) : Owns m' f := by
  refine h.of_slots hn (hused _ (.inl rfl) h.home.used) ?_ ?_
  · intro k hk hne
    rw [hslot k hk] at hne ⊢
    have hv := h.valid k hk hne
    exact ⟨hv.1, hv.2.1, hused _ (.inr ⟨hne, k, hk, rfl⟩) hv.2.2.1, hv.2.2.2⟩
  · intro k k' hk hk' hne he
    rw [hslot k hk] at hne he
    rw [hslot k' hk'] at he
    exact h.inj k k' hk hk' hne he

end

/-- A file without an indirect block. -/
theorem of_direct (home : Home m f) (hi : fIndirect m f = 0)
    (hvalid : ∀ k < 10, slot m f k ≠ 0 → 2 + nbitblocks m ≤ slot m f k ∧
      slot m f k < sNblocks m ∧ blockIsFree m (slot m f k) = false ∧ slot m f k ≠ f / 4096)
    (hinj : ∀ k < 10, ∀ k' < 10, slot m f k ≠ 0 → slot m f k = slot m f k' → k = k') :
    Owns m f := by
  have hnear : ∀ k ≤ 1034, slot m f k ≠ 0 → k < 10 := by
    intro k hk hne
    by_contra hfar
    exact hne (slot_none (by omega) hk hi)
  refine ⟨home, fun k hk hne => hvalid k (hnear k hk hne) hne, ?_⟩
  intro k k' hk hk' hne he
  exact hinj k (hnear k hk hne) k' (hnear k' hk' (by rwa [← he])) hne he

/-- A file without blocks. -/
theorem of_empty (home : Home m f) (h : ∀ k ≤ 1034, slot m f k = 0) : Owns m f :=
  ⟨home, fun k hk hne => absurd (h k hk) hne, fun k _ hk _ hne => absurd (h k hk) hne⟩

end Owns

/-- A structure in which the bytes for block numbers are zero. -/
theorem slot_blank (m : Mem) (f : Nat) (h : ∀ i < 44, m (f + 136 + i) = 0) (k : Nat)
    (hk : k ≤ 1034) : slot m f k = 0 := by
  have hload : ∀ j < 11, load m 4 (f + 136 + 4 * j) = 0 := by
    intro j hj
    refine load_zero _ fun a hlo hhi => ?_
    have := h (a - (f + 136)) (by omega)
    rwa [show f + 136 + (a - (f + 136)) = a by omega] at this
  have hi : fIndirect m f = 0 := hload 10 (by omega)
  by_cases h1 : k < 10
  · rw [slot_direct m f h1]
    exact hload k (by omega)
  · exact slot_none (by omega) hk hi

/-! ## Getting further blocks -/

/-- The file got further blocks, all of which were free: what changed is the
    bitmap, its slots, and the indirect block it has now. -/
structure Grows (m m' : Mem) (f : Nat) : Prop where
  bytes : ∀ a, ¬InBitmap m a → ¬(f + 136 ≤ a ∧ a < f + 180) →
    (fIndirect m' f = 0 ∨ a / 4096 ≠ fIndirect m' f) → m' a = m a
  nblocks : sNblocks m' = sNblocks m
  pool : ∀ b, blockIsFree m' b = true → blockIsFree m b = true
  keep : ∀ k ≤ 1034, slot m f k ≠ 0 → slot m' f k = slot m f k
  fresh : ∀ k ≤ 1034, slot m f k = 0 → slot m' f k ≠ 0 → blockIsFree m (slot m' f k) = true
  owns : Owns m' f

namespace Grows

variable {m m' m'' : Mem} {f : Nat}

theorem refl (h : Owns m f) : Grows m m f :=
  ⟨fun _ _ _ _ => rfl, rfl, fun _ hb => hb, fun _ _ _ => rfl,
    fun _ _ h0 h1 => absurd h0 h1, h⟩

section

variable (h : Grows m m' f)

include h

theorem trans (h' : Grows m' m'' f) : Grows m m'' f := by
  refine ⟨?_, h'.nblocks.trans h.nblocks, fun b hb => h.pool b (h'.pool b hb), ?_, ?_, h'.owns⟩
  · intro a hbm hf hi
    rw [h'.bytes a (by rwa [inBitmap_congr h.nblocks]) hf hi, h.bytes a hbm hf]
    refine or_iff_not_imp_left.2 fun hz => ?_
    -- an indirect block stays where it is
    have hsame : fIndirect m'' f = fIndirect m' f := h'.keep 1034 le_rfl hz
    rw [hsame] at hi
    exact hi.resolve_left hz
  · intro k hk hs
    have hs' := h.keep k hk hs
    rw [h'.keep k hk (by rwa [hs']), hs']
  · intro k hk h0 hs
    by_cases h1 : slot m' f k = 0
    · exact h.pool _ (h'.fresh k hk h1 hs)
    · rw [h'.keep k hk h1]
      exact h.fresh k hk h0 h1

theorem sane (hs : Sane m) : Sane m' :=
  hs.of_free h.nblocks fun b _ _ hf => h.pool b hf

/-- A block the file has afterwards it had before, or the block was free. -/
theorem owned (hb : Owned m' f b) : Pool m f b := by
  rcases hb with ⟨h0, k, hk, rfl⟩
  by_cases hs : slot m f k = 0
  · exact .inl (h.fresh k hk hs h0)
  · rw [h.keep k hk hs]
    exact .inr ⟨hs, k, hk, rfl⟩

/-- The data blocks keep their contents, also those that are new. -/
theorem data {o : Nat} (hk : k < 1034) (hs : slot m' f k ≠ 0) (ho : o < 4096) :
    m' (slot m' f k * 4096 + o) = m (slot m' f k * 4096 + o) := by
  have hv := h.owns.valid k (by omega) hs
  have hblock : (slot m' f k * 4096 + o) / 4096 = slot m' f k := by omega
  refine h.bytes _ ?_ ?_ (.inr ?_)
  · have hnb := nbitblocks_congr h.nblocks
    unfold InBitmap
    omega
  · have hfits := h.owns.home.fits
    have hne := hv.2.2.2
    omega
  · rw [hblock]
    exact h.owns.ne_indirect hk hs

/-- The other fields than the slots stay. -/
theorem fields (a : Nat) (hlo : f ≤ a) (hhi : a < f + 256)
    (hout : ¬(f + 136 ≤ a ∧ a < f + 180)) : m' a = m a := by
  have hfits := h.owns.home.fits
  refine h.bytes a ?_ hout (h.owns.off_indirect (by omega))
  rw [← inBitmap_congr h.nblocks]
  exact h.owns.off_bitmap a (.inl (by omega))

theorem size : fSize m' f = fSize m f := by
  unfold fSize
  rw [load_same m fun a hlo hhi => h.fields a (by omega) (by omega) (by omega)]

end

end Grows

/-- A block that is taken over changes its bit only: it was not in use. -/
structure Taken (m m1 : Mem) (b : Nat) : Prop where
  first : First m b
  marked : Marked m m1 b false

/-- Place `k` of a file got the first free block. -/
structure Drawn (m m' : Mem) (f k : Nat) : Prop where
  first : First m (slot m' f k)
  free : ∀ x, blockIsFree m' x = if x = slot m' f k then false else blockIsFree m x

/-- Place `k` of a file has a block, a new one if it was empty. -/
def Served (m m' : Mem) (f k : Nat) : Prop :=
  slot m f k ≠ 0 ∧ m' = m ∨ slot m f k = 0 ∧ Drawn m m' f k

namespace Taken

variable {m m1 m' : Mem} {b f : Nat}

section

variable (h : Taken m m1 b)
include h

theorem ne_used {x : Nat} (hx : blockIsFree m x = false) : x ≠ b := by
  rintro rfl
  rw [h.first.free] at hx
  cases hx

/-- The bits in a memory that differs outside of the bitmap. -/
theorem free (hn : sNblocks m' = sNblocks m) (hb : ∀ a, InBitmap m a → m' a = m1 a) (x : Nat) :
    blockIsFree m' x = if x = b then false else blockIsFree m x := by
  rw [← h.marked.free x]
  refine blockIsFree_congr (by rw [hn, h.marked.nblocks]) ?_ x
  intro a ha
  exact hb a ((inBitmap_congr h.marked.nblocks a).1 ha)

/-- Taking a block over does not touch the blocks of a file. -/
theorem owns (ho : Owns m f) : Owns m1 f := by
  refine ho.of_used h.marked.nblocks ?_ (ho.slot_of_bytes h.marked.bytes)
  intro x _ hx
  rw [h.marked.free, hx, ite_self]

/-- The numbers of blocks that can be taken over. -/
theorem number : b ≠ 0 ∧ b < sNblocks m ∧ b < 2 ^ 32 := by
  have hlt := free_lt h.first.free
  exact ⟨by have := h.first.pos; omega, hlt, lt_trans hlt (load_lt m 4 4100)⟩

/-- The file has the new block in place `k`. -/
theorem grows (hs : Sane m) (ho : Owns m f) (hk : k ≤ 1034) (h0 : slot m f k = 0)
    (hslot : ∀ k' ≤ 1034, slot m' f k' = if k' = k then b else slot m f k')
    (hbytes : ∀ a, ¬(f + 136 ≤ a ∧ a < f + 180) →
      (fIndirect m' f = 0 ∨ a / 4096 ≠ fIndirect m' f) → m' a = m1 a) :
    Grows m m' f ∧ Drawn m m' f k := by
  have hge := hs.free_ge h.first.pos h.first.free
  have hlt := free_lt h.first.free
  have hhome := h.ne_used ho.home.used
  have hvalid : ∀ k' ≤ 1034, slot m' f k' ≠ 0 → 2 + nbitblocks m ≤ slot m' f k' ∧
      slot m' f k' < sNblocks m ∧ (slot m' f k' = b ∨ blockIsFree m (slot m' f k') = false) ∧
      slot m' f k' ≠ f / 4096 := by
    intro k' hk' hne
    rw [hslot k' hk'] at hne ⊢
    by_cases hkk : k' = k
    · rw [if_pos hkk]
      exact ⟨hge, hlt, .inl rfl, Ne.symm hhome⟩
    · rw [if_neg hkk] at hne ⊢
      have hv := ho.valid k' hk' hne
      exact ⟨hv.1, hv.2.1, .inr hv.2.2.1, hv.2.2.2⟩
  -- neither the structure nor an indirect block reaches into the reserved blocks
  have hind : ∀ a, a / 4096 < 2 + nbitblocks m →
      fIndirect m' f = 0 ∨ a / 4096 ≠ fIndirect m' f := by
    intro a ha
    refine or_iff_not_imp_left.2 fun hz => ?_
    have := (hvalid 1034 le_rfl hz).1
    rw [slot_indirect] at this
    omega
  have hn : sNblocks m' = sNblocks m := by
    rw [← h.marked.nblocks]
    have := ho.home.low
    exact sNblocks_congr fun a _ ha => hbytes a (by omega) (hind a (by omega))
  have hfree : ∀ x, blockIsFree m' x = if x = b then false else blockIsFree m x := by
    refine h.free hn fun a ha => ?_
    have hfits := ho.home.fits
    have hoff := ho.home.off
    unfold InBitmap at ha
    exact hbytes a (by omega) (hind a (by omega))
  have hhere : slot m' f k = b := (hslot k hk).trans (if_pos rfl)
  refine ⟨⟨?_, hn, ?_, ?_, ?_, ?_⟩, hhere ▸ h.first, by rwa [hhere]⟩
  · intro a hbm hf hi
    rw [hbytes a hf hi, h.marked.bytes a hbm]
  · intro x hx
    rw [hfree x] at hx
    by_cases hxb : x = b
    · rw [if_pos hxb] at hx
      cases hx
    · rwa [if_neg hxb] at hx
  · intro k' hk' hne
    rw [hslot k' hk', if_neg]
    rintro rfl
    exact hne h0
  · intro k' hk' hz hne
    rw [hslot k' hk'] at hne ⊢
    by_cases hkk : k' = k
    · rw [if_pos hkk]
      exact h.first.free
    · rw [if_neg hkk] at hne
      exact absurd hz hne
  · refine ho.of_slots hn ?_ ?_ ?_
    · rw [hfree, if_neg hhome]
      exact ho.home.used
    · intro k' hk' hne
      have hv := hvalid k' hk' hne
      refine ⟨hv.1, hv.2.1, ?_, hv.2.2.2⟩
      rw [hfree]
      rcases hv.2.2.1 with he | he
      · rw [if_pos he]
      · rw [he, ite_self]
    · -- the new block is none of the old ones
      intro i j hi hj hne he
      rw [hslot i hi] at hne he
      rw [hslot j hj] at he
      by_cases hik : i = k <;> by_cases hjk : j = k
      · rw [hik, hjk]
      · rw [if_pos hik, if_neg hjk] at he
        rw [if_pos hik, he] at hne
        exact absurd he.symm (h.ne_used (ho.valid j hj hne).2.2.1)
      · rw [if_neg hik] at hne
        rw [if_neg hik, if_pos hjk] at he
        exact absurd he (h.ne_used (ho.valid i hi hne).2.2.1)
      · rw [if_neg hik] at hne
        rw [if_neg hik, if_neg hjk] at he
        exact ho.inj i j hi hj hne he

end

end Taken

/-- A word is written to the slot of a data block. -/
theorem slot_store {v : Nat} (hfits : f % 4096 + 256 ≤ 4096)
    (hne : fIndirect m f ≠ 0 → fIndirect m f ≠ f / 4096) (hk : k < 1034)
    (hi : k < 10 ∨ fIndirect m f ≠ 0) (hv : v < 2 ^ 32) {k' : Nat} (hk' : k' ≤ 1034) :
    slot (store m 4 (cell m f k) v) f k' = if k' = k then v else slot m f k' := by
  have hind : fIndirect (store m 4 (cell m f k) v) f = fIndirect m f := by
    refine load_store_off m v ?_
    unfold cell
    split
    · omega
    · have := hne (hi.resolve_left ‹_›)
      omega
  by_cases hkk : k' = k
  · rw [if_pos hkk, hkk, ← load_cell hk (by rwa [hind])]
    have hcell : cell (store m 4 (cell m f k) v) f k = cell m f k := by
      unfold cell at hind ⊢
      rw [hind]
    rw [hcell, load_store_at, Nat.mod_eq_of_lt (show v < 256 ^ 4 from hv)]
  · rw [if_neg hkk]
    by_cases h1 : k' < 10
    · rw [slot_direct _ f h1, slot_direct m f h1, load_store_off]
      unfold cell
      split
      · omega
      · have := hne (hi.resolve_left ‹_›)
        omega
    · by_cases hz : fIndirect m f = 0
      · rw [slot_none (by omega) hk' hz, slot_none (by omega) hk' (hind.trans hz)]
      · by_cases h2 : k' = 1034
        · rw [h2, slot_indirect, slot_indirect, hind]
        · rw [slot_far (by omega) (by omega) hz,
            slot_far (by omega) (by omega) (by rwa [hind]), hind, load_store_off]
          have := hne hz
          unfold cell
          split <;> omega

/-- The slots when the bitmap changed, too. -/
theorem Owns.slot_store {m1 : Mem} {v : Nat} (ho : Owns m f)
    (hb : ∀ a, ¬InBitmap m a → m1 a = m a) (hk : k < 1034) (hi : k < 10 ∨ fIndirect m f ≠ 0)
    (hv : v < 2 ^ 32) (k' : Nat) (hk' : k' ≤ 1034) :
    slot (store m1 4 (cell m f k) v) f k' = if k' = k then v else slot m f k' := by
  have hind : fIndirect m1 f = fIndirect m f := ho.slot_of_bytes hb 1034 le_rfl
  have hcell : cell m f k = cell m1 f k := by
    unfold cell
    rw [hind]
  rw [hcell, Fs.slot_store ho.home.fits (hind ▸ ho.indirect_ne) hk
    (by rwa [hind]) hv hk', ho.slot_of_bytes hb k' hk']

/-- A slot is in the structure or in the indirect block. -/
theorem store_cell {m1 : Mem} {a v : Nat} (hk : k < 1034) (hi : k < 10 ∨ fIndirect m f ≠ 0)
    (hf : ¬(f + 136 ≤ a ∧ a < f + 180)) (hia : fIndirect m f = 0 ∨ a / 4096 ≠ fIndirect m f) :
    store m1 4 (cell m f k) v a = m1 a := by
  refine store_off m1 v ?_
  unfold cell
  split
  · omega
  · have := hia.resolve_left (hi.resolve_left ‹_›)
    omega

/-- A new indirect block is empty. -/
theorem slot_newIndirect (ho : Owns m f) (h0 : fIndirect m f = 0) (hb : b ≠ 0) (hlt : b < 2 ^ 32)
    (hne : b ≠ f / 4096) (hk : k ≤ 1034) :
    slot (zero (setIndirect m f b) (b * 4096) 4096) f k =
      if k = 1034 then b else slot m f k := by
  have hfits := ho.home.fits
  have hzero : ∀ a, a / 4096 ≠ b → zero (setIndirect m f b) (b * 4096) 4096 a =
      setIndirect m f b a := fun a ha => if_neg (by omega)
  have hind : fIndirect (zero (setIndirect m f b) (b * 4096) 4096) f = b := by
    have hset : load (setIndirect m f b) 4 (f + 176) = b := by
      unfold setIndirect
      rw [load_store_at, Nat.mod_eq_of_lt (show b < 256 ^ 4 from hlt)]
    unfold fIndirect
    rw [← hset]
    refine (load_same _ fun a hlo hhi => ?_).trans (by rw [hset])
    rw [hset]
    exact hzero a (by omega)
  by_cases h1 : k < 10
  · rw [slot_direct _ f h1, if_neg (by omega), slot_direct m f h1]
    refine load_same m fun a hlo hhi => ?_
    rw [hzero a (by omega)]
    exact store_off m b (by omega)
  · by_cases h2 : k = 1034
    · rw [if_pos h2, h2, slot_indirect, hind]
    · rw [if_neg h2, slot_none (by omega) (by omega) h0,
        slot_far (by omega) (by omega) (by rwa [hind]), hind]
      exact load_zero _ fun a hlo hhi => if_pos (by omega)

theorem diskaddr_some (h0 : b ≠ 0) (hlt : b < sNblocks m) : diskaddr m b = some (b * 4096) :=
  if_neg (by omega)

/-- The data slots are what they were. -/
def SameSlots (m m' : Mem) (f : Nat) : Prop := ∀ k < 1034, slot m' f k = slot m f k

theorem needIndirect_spec (hs : Sane m) (ho : Owns m f) :
    (needIndirect m f true).Sat
      (fun _ m' => Grows m m' f ∧ SameSlots m m' f ∧ fIndirect m' f ≠ 0 ∧ Served m m' f 1034)
      (fun e m' => e = eNoDisk ∧ m' = m ∧ fIndirect m f = 0 ∧
        ∀ b, 1 ≤ b → blockIsFree m b = false) False := by
  unfold needIndirect
  by_cases hz : fIndirect m f = 0
  · rw [if_neg (not_not.2 hz), if_neg (by decide)]
    refine ((allocBlock_spec m hs.two_lt).mono (fun _ _ h => h)
      (fun e m' h => ⟨h.1, h.2.1, hz, h.2.2⟩) id).andThen ?_
    intro b m1 hb
    -- the new block is none of the file's, so that blanking it changes no slot
    have ht : Taken m m1 b := ⟨hb.1, hb.2⟩
    have hb0 := ht.number.1
    have hlt := ht.number.2.1
    have hb32 := ht.number.2.2
    have hhome := Ne.symm (ht.ne_used ho.home.used)
    have hslots := fun k hk => ho.slot_of_bytes ht.marked.bytes k hk
    have ho1 := ht.owns ho
    have hz1 : fIndirect m1 f = 0 := (hslots 1034 le_rfl).trans hz
    have hset : fIndirect (setIndirect m1 f b) f = b := by
      unfold fIndirect setIndirect
      rw [load_store_at, Nat.mod_eq_of_lt (show b < 256 ^ 4 from hb32)]
    have hnb : sNblocks (setIndirect m1 f b) = sNblocks m := by
      rw [← ht.marked.nblocks]
      have := ho.home.low
      exact load_store_off m1 b (by omega)
    have hslot : ∀ k ≤ 1034, slot (zero (setIndirect m1 f b) (b * 4096) 4096) f k =
        if k = 1034 then b else slot m f k := by
      intro k hk
      rw [slot_newIndirect ho1 hz1 hb0 hb32 hhome hk, hslots k hk]
    have hgrows : Grows m (zero (setIndirect m1 f b) (b * 4096) 4096) f ∧
        Drawn m (zero (setIndirect m1 f b) (b * 4096) 4096) f 1034 := by
      refine ht.grows hs ho le_rfl hz hslot ?_
      intro a hf hi
      have hib := hslot 1034 le_rfl
      rw [slot_indirect, if_pos rfl] at hib
      rw [hib] at hi
      have hout : zero (setIndirect m1 f b) (b * 4096) 4096 a = setIndirect m1 f b a :=
        if_neg (by have := hi.resolve_left hb0; omega)
      rw [hout]
      exact store_off m1 b (by omega)
    simp only [hset, diskaddr_some hb0 (by rwa [hnb]), Option.map_some]
    refine ⟨hgrows.1, ?_, ?_, .inr ⟨hz, hgrows.2⟩⟩
    · intro k hk
      rw [hslot k (by omega), if_neg (by omega)]
    · have hib := hslot 1034 le_rfl
      rw [slot_indirect, if_pos rfl] at hib
      rwa [hib]
  · rw [if_pos hz]
    exact ⟨Grows.refl ho, fun _ _ => rfl, hz, .inl ⟨hz, rfl⟩⟩

theorem fileBlockWalk_spec {f : Nat} (k : Nat) (hs : Sane m) (ho : Owns m f) :
    (fileBlockWalk m f k true).Sat
      (fun a m' => k < 1034 ∧ a = cell m' f k ∧ (k < 10 ∨ fIndirect m' f ≠ 0) ∧ Grows m m' f ∧
        SameSlots m m' f ∧ (k < 10 ∧ m' = m ∨ 10 ≤ k ∧ Served m m' f 1034))
      (fun e m' => (e = eInval ∨ e = eNoDisk) ∧ m' = m ∧ 10 ≤ k ∧
        (k < 1034 → slot m f k = 0 ∧ ∀ b, 1 ≤ b → blockIsFree m b = false)) False := by
  unfold fileBlockWalk
  by_cases hk : 1034 ≤ k
  · rw [if_pos hk]
    exact ⟨.inl rfl, rfl, by omega, fun h => absurd h (by omega)⟩
  · rw [if_neg hk]
    by_cases hd : k < 10
    · rw [if_pos hd]
      refine ⟨by omega, ?_, .inl hd, Grows.refl ho, fun _ _ => rfl, .inl ⟨hd, rfl⟩⟩
      unfold cell
      rw [if_pos hd]
    · rw [if_neg hd]
      refine ((needIndirect_spec hs ho).mono (fun _ _ h => h) (fun e m' h => ⟨.inr h.1, h.2.1,
        by omega, fun _ => ⟨slot_none (by omega) (by omega) h.2.2.1, h.2.2.2⟩⟩)
        id).andThen ?_
      rintro - m' ⟨hg, hsame, hi, hserved⟩
      have hv := hg.owns.indirect_valid hi
      simp only [diskaddr_some hi hv.2.1, Option.map_some]
      refine ⟨by omega, ?_, .inr hi, hg, hsame, .inr ⟨by omega, hserved⟩⟩
      unfold cell
      rw [if_neg hd]

theorem needBlock_spec (hs : Sane m) (ho : Owns m f) (hk : k < 1034)
    (hi : k < 10 ∨ fIndirect m f ≠ 0) :
    (needBlock m (cell m f k)).Sat
      (fun _ m' => Grows m m' f ∧ load m' 4 (cell m f k) = slot m' f k ∧ slot m' f k ≠ 0 ∧
        (∀ k' ≤ 1034, k' ≠ k → slot m' f k' = slot m f k') ∧ Served m m' f k)
      (fun e m' => e = eNoDisk ∧ m' = m ∧ slot m f k = 0 ∧ ∀ b, 1 ≤ b → blockIsFree m b = false)
      False := by
  have hload := load_cell hk hi
  unfold needBlock
  by_cases hz : slot m f k = 0
  · rw [if_neg (not_not.2 (hload.trans hz))]
    rcases (allocBlock_spec m hs.two_lt).ends with ⟨e, m1, hres, -, hm1, hfull⟩ |
      ⟨b, m1, hres, hfirst, hmarked⟩
    · rw [hres]
      exact ⟨rfl, hm1, hz, hfull⟩
    · rw [hres]
      have ht : Taken m m1 b := ⟨hfirst, hmarked⟩
      rcases ht.number with ⟨hb0, hlt, hb32⟩
      have hslot := ho.slot_store ht.marked.bytes hk hi hb32
      have hgrows : Grows m (store m1 4 (cell m f k) b) f ∧
          Drawn m (store m1 4 (cell m f k) b) f k := by
        refine ht.grows hs ho (by omega) hz hslot ?_
        intro a hf hia
        have hib := hslot 1034 le_rfl
        rw [if_neg (by omega), slot_indirect, slot_indirect] at hib
        rw [hib] at hia
        exact store_cell hk hi hf hia
      refine ⟨hgrows.1, ?_, ?_, ?_, .inr ⟨hz, hgrows.2⟩⟩
      · rw [load_store_at, Nat.mod_eq_of_lt (show b < 256 ^ 4 from hb32), hslot k (by omega),
          if_pos rfl]
      · rwa [hslot k (by omega), if_pos rfl]
      · intro k' hk' hne
        rw [hslot k' hk', if_neg hne]
  · rw [if_pos (by rwa [hload])]
    exact ⟨Grows.refl ho, hload, hz, fun _ _ _ => rfl, .inl ⟨hz, rfl⟩⟩

/-- The outcome of `file_get_block` for block `k`. -/
structure GotBlock (m m' : Mem) (f k : Nat) : Prop where
  lt : k < 1034
  grows : Grows m m' f
  here : slot m' f k ≠ 0
  others : ∀ k' < 1034, k' ≠ k → slot m' f k' = slot m f k'
  same : slot m f k ≠ 0 → m' = m

/-- `file_get_block` gives the block there is or a new one, and without room
    leaves the data slots alone. -/
theorem fileGetBlock_spec {f : Nat} (k : Nat) (hs : Sane m) (ho : Owns m f) :
    (fileGetBlock m f k).Sat
      (fun a m' => a = slot m' f k * 4096 ∧ GotBlock m m' f k)
      (fun e m' => (e = eInval ∨ e = eNoDisk) ∧ Grows m m' f ∧ SameSlots m m' f ∧
        (k < 1034 → slot m f k = 0) ∧ (k < 10 → ∀ b, 1 ≤ b → blockIsFree m b = false)) False := by
  unfold fileGetBlock
  refine ((fileBlockWalk_spec k hs ho).mono (fun _ _ h => h) ?_ id).andThen ?_
  · rintro e m' ⟨he, rfl, hk, h0⟩
    exact ⟨he, Grows.refl ho, fun _ _ => rfl, fun h => (h0 h).1, fun h => absurd h (by omega)⟩
  rintro a m1 ⟨hk, rfl, hi, hg, hsame, hind⟩
  -- a new indirect block is for a block that is not there
  have hid : k < 10 ∨ slot m f k ≠ 0 → m1 = m := by
    intro hc
    rcases hind with ⟨-, hm⟩ | ⟨hfar, ⟨-, hm⟩ | ⟨hz, -⟩⟩
    · exact hm
    · exact hm
    · exact absurd (slot_none hfar hk.le hz) (hc.resolve_left (by omega))
  refine ((needBlock_spec (hg.sane hs) hg.owns hk hi).mono (fun _ _ h => h) ?_
    id).andThen ?_
  · rintro e m' ⟨he, rfl, h0, hfull⟩
    refine ⟨.inr he, hg, hsame, fun _ => by rwa [← hsame k hk], fun hd => ?_⟩
    rwa [← hid (.inl hd)]
  rintro - m' ⟨hg', hload, hne, hothers, hserved⟩
  have hv := hg'.owns.valid k (by omega) hne
  simp only [hload, diskaddr_some hne hv.2.1, Option.map_some]
  refine ⟨rfl, hk, hg.trans hg', hne, ?_, ?_⟩
  · intro k' hk' hkk
    rw [hothers k' hk'.le hkk, hsame k' hk']
  · intro h
    rw [hid (.inr h)] at hserved
    rcases hserved with ⟨-, hm⟩ | ⟨hz, -⟩
    · exact hm
    · exact absurd hz h

/-- A block that is there is found, and nothing changes. -/
theorem fileGetBlock_present (hs : Sane m) (ho : Owns m f) (hk : k < 1034) (hne : slot m f k ≠ 0) :
    fileGetBlock m f k = some (.ok (slot m f k * 4096), m) := by
  rcases (fileGetBlock_spec k hs ho).ends with ⟨e, m', -, -, -, -, h0, -⟩ |
    ⟨a, m', hres, ha, hgot⟩
  · exact absurd (h0 hk) hne
  · rw [hres, ha, hgot.same hne]

/-! ## Operations on a file -/

/-- What any operation on the file may do: it changes the bitmap, the structure,
    blocks of the file and blocks that were free, and takes blocks from these
    only. -/
structure FileStep (m m' : Mem) (f : Nat) : Prop where
  bytes : ∀ a, ¬InBitmap m a → ¬(f ≤ a ∧ a < f + 256) → ¬Pool m f (a / 4096) → m' a = m a
  nblocks : sNblocks m' = sNblocks m
  pool : ∀ b, Pool m' f b → Pool m f b
  type : fType m' f = fType m f
  owns : Owns m' f

namespace FileStep

variable {m m' m'' : Mem} {f : Nat}

theorem refl (h : Owns m f) : FileStep m m f :=
  ⟨fun _ _ _ _ => rfl, rfl, fun _ hb => hb, rfl, h⟩

theorem trans (h : FileStep m m' f) (h' : FileStep m' m'' f) : FileStep m m'' f := by
  refine ⟨?_, h'.nblocks.trans h.nblocks, fun b hb => h.pool b (h'.pool b hb),
    h'.type.trans h.type, h'.owns⟩
  intro a hbm hf hp
  rw [h'.bytes a (by rwa [inBitmap_congr h.nblocks]) hf (fun hb => hp (h.pool _ hb)),
    h.bytes a hbm hf hp]

theorem sane (h : FileStep m m' f) (ho : Owns m f) (hs : Sane m) : Sane m' := by
  refine hs.of_free h.nblocks fun b h1 hlt hf => ?_
  rcases h.pool b (.inl hf) with hfree | ⟨h0, k, hk, rfl⟩
  · exact hfree
  · have := (ho.valid k hk h0).1
    omega

end FileStep

theorem Grows.fileStep (h : Grows m m' f) : FileStep m m' f := by
  refine ⟨?_, h.nblocks, ?_, ?_, h.owns⟩
  · intro a hbm hf hp
    refine h.bytes a hbm (by omega) ?_
    by_contra hi
    rw [not_or, not_not] at hi
    refine hp (h.owned ?_)
    rw [hi.2]
    exact ⟨hi.1, 1034, le_rfl, rfl⟩
  · rintro b (hb | hb)
    · exact .inl (h.pool b hb)
    · exact h.owned hb
  · exact load_same m fun a hlo hhi => h.fields a (by omega) (by omega) (by omega)

/-- The bits and the slots are the same if the bitmap, the slots and the head of
    the super block are. -/
theorem FileStep.of_bytes (ho : Owns m f) (hhead : ∀ a, a < 4104 ∨ InBitmap m a → m' a = m a)
    (htype : fType m' f = fType m f) (hslots : ∀ a, f + 136 ≤ a → a < f + 180 → m' a = m a)
    (hind : fIndirect m f ≠ 0 → ∀ a, a / 4096 = fIndirect m f → m' a = m a)
    (hbytes : ∀ a, ¬(f ≤ a ∧ a < f + 256) → ¬Owned m f (a / 4096) → m' a = m a) :
    FileStep m m' f ∧ (∀ k ≤ 1034, slot m' f k = slot m f k) ∧
      ∀ b, blockIsFree m' b = blockIsFree m b := by
  have hn : sNblocks m' = sNblocks m := sNblocks_congr fun a _ ha => hhead a (.inl ha)
  have hfree := blockIsFree_congr hn fun a ha => hhead a (.inr ha)
  have hslot := slot_congr hslots hind
  refine ⟨⟨?_, hn, ?_, htype, ?_⟩, hslot, hfree⟩
  · intro a _ hf hp
    exact hbytes a hf fun hb => hp (.inr hb)
  · rintro b (hb | ⟨h0, k, hk, hb⟩)
    · exact .inl (by rwa [← hfree])
    · exact .inr ⟨h0, k, hk, by rwa [← hslot k hk]⟩
  · exact ho.of_used hn (fun b _ hb => by rw [hfree, hb]) hslot

/-- The fields in front of the slots change, but not the type. -/
theorem FileStep.of_struct (ho : Owns m f) (h : ∀ a, ¬(f ≤ a ∧ a < f + 132) → m' a = m a) :
    FileStep m m' f ∧ (∀ k ≤ 1034, slot m' f k = slot m f k) ∧
      ∀ b, blockIsFree m' b = blockIsFree m b := by
  have hlow := ho.home.low
  have hfits := ho.home.fits
  refine FileStep.of_bytes ho ?_ ?_ ?_ ?_ ?_
  · rintro a (ha | ha)
    · exact h a (by omega)
    · refine h a fun hf => ho.off_bitmap a (.inl (by omega)) ha
  · exact load_same m fun a hlo hhi => h a (by omega)
  · intro a hlo hhi
    exact h a (by omega)
  · intro hi a ha
    have := (ho.indirect_valid hi).2.2.2
    exact h a (by omega)
  · intro a hf _
    exact h a (by omega)

theorem fSize_setSize (m : Mem) (f : Nat) (size : BitVec 32) :
    fSize (setSize m f size) f = size := by
  unfold fSize setSize
  rw [load_store_at, Nat.mod_eq_of_lt (show size.toNat < 256 ^ 4 from size.isLt),
    BitVec.ofNat_toNat, BitVec.setWidth_eq]

theorem setSize_step (ho : Owns m f) (size : BitVec 32) :
    FileStep m (setSize m f size) f ∧ (∀ k ≤ 1034, slot (setSize m f size) f k = slot m f k) ∧
      ∀ b, blockIsFree (setSize m f size) b = blockIsFree m b :=
  FileStep.of_struct ho fun a ha => store_off m _ (by omega)

/-- The contents of one data block change. -/
theorem FileStep.of_data (hs : Sane m) (ho : Owns m f) (hk : k < 1034) (hne : slot m f k ≠ 0)
    (h : ∀ a, a / 4096 ≠ slot m f k → m' a = m a) :
    FileStep m m' f ∧ (∀ k ≤ 1034, slot m' f k = slot m f k) ∧
      (∀ b, blockIsFree m' b = blockIsFree m b) ∧ fSize m' f = fSize m f := by
  have hv := ho.valid k (by omega) hne
  have hfits := ho.home.fits
  have hroom := hs.room
  have hstruct : ∀ a, f ≤ a → a < f + 256 → m' a = m a := fun a hlo hhi => h a (by omega)
  have hstep : FileStep m m' f ∧ (∀ k ≤ 1034, slot m' f k = slot m f k) ∧
      ∀ b, blockIsFree m' b = blockIsFree m b := by
    refine FileStep.of_bytes ho ?_ ?_ ?_ ?_ ?_
    · intro a ha
      refine h a ?_
      unfold InBitmap at ha
      omega
    · exact load_same m fun a hlo hhi => hstruct a (by omega) (by omega)
    · intro a hlo hhi
      exact hstruct a (by omega) (by omega)
    · intro _ a ha
      refine h a ?_
      rw [ha]
      exact Ne.symm (ho.ne_indirect hk hne)
    · intro a _ hnot
      refine h a fun he => hnot ?_
      rw [he]
      exact ⟨hne, k, by omega, rfl⟩
  refine ⟨hstep.1, hstep.2.1, hstep.2.2, ?_⟩
  unfold fSize
  rw [load_same m fun a hlo hhi => hstruct a (by omega) (by omega)]

/-! ## Giving blocks back -/

/-- The slots of a file were cleared where `P` says so, and the blocks are free. -/
structure Trimmed (m m' : Mem) (f : Nat) (P : Nat → Prop) : Prop where
  step : FileStep m m' f
  bytes : ∀ a, ¬InBitmap m a → ¬(f + 136 ≤ a ∧ a < f + 180) →
    (fIndirect m f = 0 ∨ a / 4096 ≠ fIndirect m f) → m' a = m a
  cleared : ∀ k < 1034, P k → slot m' f k = 0
  kept : ∀ k < 1034, ¬P k → slot m' f k = slot m f k

/-- A block of the file is marked free and its number erased. -/
theorem FileStep.release {m1 : Mem} (ho : Owns m f) (hk : k ≤ 1034) (hne : slot m f k ≠ 0)
    (hm : Marked m m1 (slot m f k) true)
    (hslot : ∀ k' ≤ 1034, slot m' f k' = slot m f k' ∨ slot m' f k' = 0) (h0 : slot m' f k = 0)
    (hbytes : ∀ a, ¬(f + 136 ≤ a ∧ a < f + 180) →
      (fIndirect m f = 0 ∨ a / 4096 ≠ fIndirect m f) → m' a = m1 a) : FileStep m m' f := by
  have hlow := ho.home.low
  have hfits := ho.home.fits
  have hoff := ho.home.off
  have hn : sNblocks m' = sNblocks m := by
    rw [← hm.nblocks]
    exact sNblocks_congr fun a _ ha => hbytes a (by omega) (ho.off_indirect (by omega))
  have hfree : ∀ x, blockIsFree m' x = if x = slot m f k then true else blockIsFree m x := by
    intro x
    rw [← hm.free x]
    refine blockIsFree_congr (by rw [hn, hm.nblocks]) ?_ x
    intro a ha
    rw [inBitmap_congr hm.nblocks, InBitmap] at ha
    exact hbytes a (by omega) (ho.off_indirect (by omega))
  refine ⟨?_, hn, ?_, ?_, ?_⟩
  · intro a hbm hf hp
    rw [hbytes a (by omega), hm.bytes a hbm]
    by_contra hi
    rw [not_or, not_not] at hi
    refine hp (.inr ?_)
    rw [hi.2]
    exact ⟨hi.1, 1034, le_rfl, rfl⟩
  · rintro b (hb | ⟨hb0, k', hk', hb⟩)
    · rw [hfree] at hb
      by_cases hbk : b = slot m f k
      · rw [hbk]
        exact .inr ⟨hne, k, hk, rfl⟩
      · rw [if_neg hbk] at hb
        exact .inl hb
    · rcases hslot k' hk' with hs | hs
      · exact .inr ⟨hb0, k', hk', by rwa [← hs]⟩
      · exact absurd (hb.symm.trans hs) hb0
  · refine load_same m fun a hlo hhi => ?_
    have hstruct : ¬InBitmap m a := ho.off_bitmap a (.inl (by omega))
    rw [hbytes a (by omega) (ho.off_indirect (by omega)), hm.bytes a hstruct]
  · -- what is left are other blocks, which are in use as before
    have hrest : ∀ k' ≤ 1034, slot m' f k' ≠ 0 →
        slot m' f k' = slot m f k' ∧ slot m f k' ≠ slot m f k := by
      intro k' hk' hs
      have he := (hslot k' hk').resolve_right hs
      refine ⟨he, fun hkk => hs ?_⟩
      rw [ho.inj k' k hk' hk (by rwa [← he]) hkk]
      exact h0
    refine ho.of_slots hn ?_ ?_ ?_
    · rw [hfree, if_neg (Ne.symm (ho.valid k hk hne).2.2.2)]
      exact ho.home.used
    · intro k' hk' hs
      rcases hrest k' hk' hs with ⟨he, hkk⟩
      rw [he] at hs ⊢
      have hv := ho.valid k' hk' hs
      rwa [hfree, if_neg hkk]
    · intro i j hi hj hs he
      have hsi := (hrest i hi hs).1
      have hsj := (hrest j hj (by rwa [← he])).1
      exact ho.inj i j hi hj (by rwa [← hsi]) (by rwa [← hsi, ← hsj])

/-- Without allocation, `file_block_walk` finds the slots there are. -/
theorem fileBlockWalk_find {f : Nat} (k : Nat) (ho : Owns m f) :
    (k < 1034 ∧ (k < 10 ∨ fIndirect m f ≠ 0)) ∧
      fileBlockWalk m f k false = some (.ok (cell m f k), m) ∨
    (k < 1034 → slot m f k = 0) ∧ ∃ e, fileBlockWalk m f k false = some (.error e, m) := by
  unfold fileBlockWalk cell
  by_cases hk : 1034 ≤ k
  · rw [if_pos hk]
    exact .inr ⟨fun h => absurd h (by omega), _, rfl⟩
  · rw [if_neg hk]
    by_cases hd : k < 10
    · rw [if_pos hd, if_pos hd]
      exact .inl ⟨⟨by omega, .inl hd⟩, rfl⟩
    · rw [if_neg hd, if_neg hd]
      unfold needIndirect
      by_cases hz : fIndirect m f = 0
      · rw [if_neg (not_not.2 hz), if_pos (by decide)]
        exact .inr ⟨fun _ => slot_none (by omega) (by omega) hz, _, rfl⟩
      · rw [if_pos hz]
        simp only [Lib.Outcome.andThen, diskaddr_some hz (ho.indirect_valid hz).2.1,
          Option.map_some]
        exact .inl ⟨⟨by omega, .inr hz⟩, trivial⟩

theorem fileFreeBlock_spec {f : Nat} (k : Nat) (ho : Owns m f) :
    ∃ m', fileFreeBlock m f k = some m' ∧ Trimmed m m' f (· = k) ∧
      fIndirect m' f = fIndirect m f := by
  have hnone : (k < 1034 → slot m f k = 0) → Trimmed m m f (· = k) := by
    intro h0
    refine ⟨FileStep.refl ho, fun _ _ _ _ => rfl, ?_, fun _ _ _ => rfl⟩
    rintro k' hk' rfl
    exact h0 hk'
  unfold fileFreeBlock
  rcases fileBlockWalk_find k ho with ⟨⟨hk, hi⟩, hwalk⟩ | ⟨h0, e, hwalk⟩
  · rw [hwalk]
    have hload := load_cell hk hi
    by_cases hz : slot m f k = 0
    · refine ⟨m, ?_, hnone fun _ => hz, rfl⟩
      simp only [hload, hz, ne_eq, not_true_eq_false, if_false]
    · have hv := ho.valid k (by omega) hz
      rcases freeBlock_spec hz hv.2.1 with ⟨m1, hfree, hm⟩
      have hslot := ho.slot_store hm.bytes hk hi (show 0 < 2 ^ 32 by decide)
      refine ⟨store m1 4 (cell m f k) 0, ?_, ⟨?_, ?_, ?_, ?_⟩, ?_⟩
      · simp only [hload, hz, ne_eq, not_false_eq_true, if_true, hfree, Option.map_some]
      · refine FileStep.release ho (by omega) hz hm ?_ (by rw [hslot k (by omega), if_pos rfl])
          fun a hf hia => store_cell hk hi hf hia
        intro k' hk'
        rw [hslot k' hk']
        by_cases hkk : k' = k
        · exact .inr (if_pos hkk)
        · exact .inl (if_neg hkk)
      · intro a hbm hf hia
        rw [store_cell hk hi hf hia, hm.bytes a hbm]
      · intro k' hk' hkk
        rw [hslot k' (by omega), if_pos hkk]
      · intro k' hk' hkk
        rw [hslot k' (by omega), if_neg hkk]
      · have := hslot 1034 le_rfl
        rwa [if_neg (by omega)] at this
  · rw [hwalk]
    exact ⟨m, rfl, hnone h0, rfl⟩

/-- `file_truncate_blocks` frees the blocks from the new number of blocks to the
    old one, and the indirect block if it is not needed. -/
theorem fileTruncateBlocks_spec (m : Mem) (f : Nat) (newsize : BitVec 32) (ho : Owns m f) :
    ∃ m', fileTruncateBlocks m f newsize = some m' ∧
      Trimmed m m' f fun k => (sizeBlocks newsize ≤ k ∧ k < sizeBlocks (fSize m f)) ∨
        (sizeBlocks newsize ≤ 10 ∧ 10 ≤ k) := by
  -- the invariant of the loop: the blocks before the counter are gone
  have hloop := Lib.forUpto_total
    (fun i m => fileFreeBlock m f (sizeBlocks newsize + i))
    (fun i m1 => Trimmed m m1 f (fun k => sizeBlocks newsize ≤ k ∧ k < sizeBlocks newsize + i) ∧
      fIndirect m1 f = fIndirect m f)
    (sizeBlocks (fSize m f) - sizeBlocks newsize) ?_ m
    ⟨⟨FileStep.refl ho, fun _ _ _ _ => rfl, fun _ _ h => absurd h.2 (by omega),
      fun _ _ _ => rfl⟩, rfl⟩
  · rcases hloop with ⟨m1, hrun, ht, hind⟩
    unfold fileTruncateBlocks
    simp only [hrun, Option.bind_some]
    by_cases hlast : sizeBlocks newsize ≤ 10 ∧ fIndirect m1 f ≠ 0
    · rw [if_pos hlast]
      have hv := ht.step.owns.indirect_valid hlast.2
      rcases freeBlock_spec hlast.2 hv.2.1 with ⟨m2, hfree, hm⟩
      have hslots := fun k hk => ht.step.owns.slot_of_bytes hm.bytes k hk
      have hz : fIndirect (setIndirect m2 f 0) f = 0 := by
        unfold fIndirect setIndirect
        rw [load_store_at]
        rfl
      have hnear : ∀ k < 10, slot (setIndirect m2 f 0) f k = slot m1 f k := by
        intro k hk
        rw [← hslots k (by omega), slot_direct _ f hk, slot_direct m2 f hk]
        exact load_store_off m2 0 (by omega)
      have hbytes : ∀ a, ¬(f + 136 ≤ a ∧ a < f + 180) → setIndirect m2 f 0 a = m2 a :=
        fun a ha => store_off m2 0 (by omega)
      have hstep : FileStep m1 (setIndirect m2 f 0) f := by
        refine FileStep.release ht.step.owns le_rfl hlast.2 hm ?_ hz
          fun a ha _ => hbytes a ha
        intro k hk
        by_cases h1 : k < 10
        · exact .inl (hnear k h1)
        · exact .inr (slot_none (by omega) hk hz)
      refine ⟨setIndirect m2 f 0, by rw [hfree, Option.map_some], ht.step.trans hstep, ?_, ?_, ?_⟩
      · intro a hbm hf hia
        rw [hbytes a hf, hm.bytes a (by rwa [inBitmap_congr ht.step.nblocks]),
          ht.bytes a hbm hf hia]
      · rintro k hk hgone
        by_cases h1 : k < 10
        · rw [hnear k h1]
          exact ht.cleared k hk (by omega)
        · exact slot_none (by omega) hk.le hz
      · intro k hk hkept
        rw [hnear k (by omega)]
        exact ht.kept k hk (by omega)
    · rw [if_neg hlast]
      refine ⟨m1, rfl, ht.step, ht.bytes, ?_, ?_⟩
      · intro k hk hgone
        by_cases hin : sizeBlocks newsize ≤ k ∧ k < sizeBlocks (fSize m f)
        · exact ht.cleared k hk (by omega)
        · have hfar := hgone.resolve_left hin
          refine slot_none hfar.2 hk.le ?_
          by_contra hz
          exact hlast ⟨hfar.1, hz⟩
      · intro k hk hkept
        exact ht.kept k hk (by omega)
  · rintro i m1 hi ⟨ht, hind⟩
    rcases fileFreeBlock_spec (sizeBlocks newsize + i) ht.step.owns with ⟨m2, hrun, ht2, hind2⟩
    refine ⟨m2, hrun, ⟨ht.step.trans ht2.step, ?_, ?_, ?_⟩, hind2.trans hind⟩
    · intro a hbm hf hia
      rw [ht2.bytes a (by rwa [inBitmap_congr ht.step.nblocks]) hf (by rwa [hind]),
        ht.bytes a hbm hf hia]
    · intro k hk hgone
      by_cases hki : k = sizeBlocks newsize + i
      · exact ht2.cleared k hk hki
      · rw [ht2.kept k hk hki]
        exact ht.cleared k hk (by omega)
    · intro k hk hkept
      rw [ht2.kept k hk (by omega)]
      exact ht.kept k hk (by omega)

/-! ## Other files -/

/-- Operations on `f` do not reach the file `g`: the two have no block and no
    byte of their structures in common, and neither the structure of `g` is in a
    block of `f` nor that of `f` in the indirect block of `g`. A data block of `g`
    may well hold the structure of `f`: a directory is a file. -/
structure Apart (m : Mem) (f g : Nat) : Prop where
  struct : f + 256 ≤ g ∨ g + 256 ≤ f
  owned : ∀ b, Owned m f b → ¬Owned m g b
  home : ¬Owned m f (g / 4096)
  indirect : fIndirect m g ≠ 0 → fIndirect m g ≠ f / 4096

theorem owned_congr {f : Nat} (h : ∀ k ≤ 1034, slot m' f k = slot m f k) (b : Nat) :
    Owned m' f b ↔ Owned m f b := by
  unfold Owned
  refine and_congr_right fun _ => exists_congr fun k => and_congr_right fun hk => ?_
  rw [h k hk]

theorem Apart.of_slots (h : Apart m f g) (hf : ∀ k ≤ 1034, slot m' f k = slot m f k)
    (hg : ∀ k ≤ 1034, slot m' g k = slot m g k) : Apart m' f g := by
  refine ⟨h.struct, ?_, ?_, ?_⟩
  · intro b hb hb'
    exact h.owned b ((owned_congr hf b).1 hb) ((owned_congr hg b).1 hb')
  · exact fun hb => h.home ((owned_congr hf _).1 hb)
  · have hi : fIndirect m' g = fIndirect m g := hg 1034 le_rfl
    rw [hi]
    exact h.indirect

/-- What is left of a file when its structure and its indirect block are. -/
structure Untouched (m m' : Mem) (g : Nat) : Prop where
  slots : ∀ k ≤ 1034, slot m' g k = slot m g k
  size : fSize m' g = fSize m g
  type : fType m' g = fType m g
  owns : Owns m' g

/-- A file whose structure and indirect block keep their bytes is untouched, if
    none of its blocks becomes free. -/
theorem Owns.untouched (hg : Owns m g) (hn : sNblocks m' = sNblocks m)
    (hstruct : ∀ a, g ≤ a → a < g + 256 → m' a = m a)
    (hind : fIndirect m g ≠ 0 → ∀ a, a / 4096 = fIndirect m g → m' a = m a)
    (hused : ∀ b, (b = g / 4096 ∨ Owned m g b) → blockIsFree m b = false →
      blockIsFree m' b = false) : Untouched m m' g := by
  have hslots := slot_congr (fun a hlo hhi => hstruct a (by omega) (by omega)) hind
  refine ⟨hslots, ?_, ?_, ?_⟩
  · unfold fSize
    rw [load_same m fun a hlo hhi => hstruct a (by omega) (by omega)]
  · exact load_same m fun a hlo hhi => hstruct a (by omega) (by omega)
  · exact hg.of_used hn hused hslots

/-- Neither the block with the structure of `g` nor its own blocks can be taken
    by an operation on `f`. -/
theorem Apart.not_pool (hap : Apart m f g) (hg : Owns m g) (hb : b = g / 4096 ∨ Owned m g b) :
    ¬Pool m f b := by
  rintro (hf | ho)
  · rw [hg.in_use hb] at hf
    cases hf
  · rcases hb with rfl | hb
    · exact hap.home ho
    · exact hap.owned b ho hb

theorem Owns.block_off_bitmap (hg : Owns m g) (ha : Owned m g (a / 4096)) : ¬InBitmap m a := by
  rcases ha with ⟨h0, k, hk, he⟩
  have hv := (hg.valid k hk (by rwa [he])).1
  unfold InBitmap
  omega

section

variable (h : FileStep m m' f) (hg : Owns m g) (hap : Apart m f g)
include h hg hap

/-- The bytes of `g` outside of the block with the structure of `f` are not
    reached by an operation on `f`. -/
theorem FileStep.frame
    (ha : (g ≤ a ∧ a < g + 256) ∨ (Owned m g (a / 4096) ∧ a / 4096 ≠ f / 4096)) : m' a = m a := by
  have hfits := h.owns.home.fits
  rcases ha with ha | ha
  · have hblock : a / 4096 = g / 4096 := by
      have := hg.home.fits
      omega
    refine h.bytes a (hg.off_bitmap a (.inl ha)) ?_ (hap.not_pool hg (.inl hblock))
    have := hap.struct
    omega
  · exact h.bytes a (hg.block_off_bitmap ha.1) (by omega) (hap.not_pool hg (.inr ha.1))

/-- An operation on `f` leaves `g` as it is. -/
theorem FileStep.other :
    Untouched m m' g := by
  refine hg.untouched h.nblocks (fun a hlo hhi => h.frame hg hap (.inl ⟨hlo, hhi⟩)) ?_ ?_
  · intro hi a ha
    refine h.frame hg hap (.inr ⟨?_, ?_⟩)
    · rw [ha]
      exact ⟨hi, 1034, le_rfl, rfl⟩
    · rw [ha]
      exact hap.indirect hi
  · intro b hb _
    by_contra hfree
    rw [Bool.not_eq_false] at hfree
    exact hap.not_pool hg hb (h.pool b (.inl hfree))

/-- A file that operations on `f` do not reach before is not reached after. -/
theorem FileStep.apart :
    Apart m' f g := by
  have hu := h.other hg hap
  refine ⟨hap.struct, ?_, ?_, ?_⟩
  · intro b hb hb'
    rw [owned_congr hu.slots] at hb'
    exact hap.not_pool hg (.inr hb') (h.pool b (.inr hb))
  · exact fun hb => hap.not_pool hg (.inl rfl) (h.pool _ (.inr hb))
  · have hi : fIndirect m' g = fIndirect m g := hu.slots 1034 le_rfl
    rw [hi]
    exact hap.indirect

/-- The same the other way round. -/
theorem FileStep.apart' (hap' : Apart m g f) : Apart m' g f := by
  have hu := h.other hg hap
  refine ⟨hap'.struct, ?_, ?_, ?_⟩
  · intro b hb hb'
    exact (h.apart hg hap).owned b hb' hb
  · rw [owned_congr hu.slots]
    exact hap'.home
  · intro hi he
    refine (h.apart hg hap).home ?_
    rw [← he]
    exact ⟨hi, 1034, le_rfl, rfl⟩

end

/-- A file that gets further blocks leaves `g` as it is, even if the structure
    of `g` is in one of its data blocks. -/
theorem Grows.other {r : Nat} (h : Grows m m' r) (hg : Owns m g) (hap : Apart m g r) :
    Untouched m m' g ∧ Apart m' g r ∧
      ∀ a, (g ≤ a ∧ a < g + 256) ∨ Owned m g (a / 4096) → m' a = m a := by
  -- the indirect block of `r` was there before and is apart, or it was free
  have hind : ∀ b, (b = g / 4096 ∨ Owned m g b) → fIndirect m' r = 0 ∨ b ≠ fIndirect m' r := by
    intro b hb
    refine or_iff_not_imp_left.2 fun hz he => ?_
    by_cases hold : fIndirect m r = 0
    · have hfree := h.fresh 1034 le_rfl hold hz
      rw [slot_indirect, ← he, hg.in_use hb] at hfree
      cases hfree
    · have hkeep : fIndirect m' r = fIndirect m r := h.keep 1034 le_rfl hold
      rcases hb with hb | hb
      · exact hap.indirect hold (by rw [← hkeep, ← he, hb])
      · exact hap.owned b hb ⟨by rwa [he], 1034, le_rfl, by rw [he, hkeep]; rfl⟩
  have hbytes : ∀ a, (g ≤ a ∧ a < g + 256) ∨ Owned m g (a / 4096) → m' a = m a := by
    rintro a (ha | ha)
    · have hblock : a / 4096 = g / 4096 := by
        have := hg.home.fits
        omega
      have hst := hap.struct
      exact h.bytes a (hg.off_bitmap a (.inl ha)) (by omega) (hind _ (.inl hblock))
    · refine h.bytes a (hg.block_off_bitmap ha) ?_ (hind _ (.inr ha))
      intro hr
      have hblock : a / 4096 = r / 4096 := by
        have := h.owns.home.fits
        omega
      rw [hblock] at ha
      exact hap.home ha
  have hu : Untouched m m' g := by
    refine hg.untouched h.nblocks (fun a hlo hhi => hbytes a (.inl ⟨hlo, hhi⟩)) ?_ ?_
    · intro hi a ha
      refine hbytes a (.inr ?_)
      rw [ha]
      exact ⟨hi, 1034, le_rfl, rfl⟩
    · intro b _ hb
      by_contra hfree
      rw [Bool.not_eq_false] at hfree
      rw [h.pool b hfree] at hb
      cases hb
  refine ⟨hu, ⟨hap.struct, ?_, ?_, ?_⟩, hbytes⟩
  · intro b hb hb'
    rw [owned_congr hu.slots] at hb
    rcases h.owned hb' with hfree | hold
    · rw [hg.in_use (.inr hb)] at hfree
      cases hfree
    · exact hap.owned b hb hold
  · rw [owned_congr hu.slots]
    exact hap.home
  · intro hz he
    exact (hind _ (.inl rfl)).resolve_left hz he.symm

end Jos.Fs
