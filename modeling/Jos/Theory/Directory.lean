import Jos.Theory.FileIo

/-!
# The Root Directory

The entries of the root directory are the structures in its blocks, 16 to a
block. `Tidy` says that all of them, with a name or without, are files of their
own: no two of them have a block in common, and none has one in common with the
directory. An operation on one entry keeps this, and so does a directory that
gets further blocks, as long as the new blocks are blank: their bytes are
entries from then on.

## Main definitions

* `Entry`, `Listed`: The entries, and those with a name.
* `Exclusive`: No block is referred to twice.
* `Tidy`: The entries are files of their own.
* `Spare`: The free blocks are blank.

## Theorems

* `Tidy.exclusive`: What `Tidy` means for the block numbers.
* `Tidy.step`, `Tidy.grow`: What keeps it.
* `dirScan_spec`, `walkPath_spec`: What looking for a file does.
-/

namespace Jos.Fs

open Lib.Bytes (load store load_same load_zero store_off)

variable {f k : Nat} {path name : List (BitVec 8)} {r : Except Int Nat} {m m' : Mem}

/-- A structure in one of the blocks of the root directory. -/
def Entry (m : Mem) (f : Nat) : Prop :=
  ∃ k < 1034, ∃ j < 16, slot m sRoot k ≠ 0 ∧ f = slot m sRoot k * 4096 + 256 * j

/-- An entry with a name. -/
def Listed (m : Mem) (f : Nat) : Prop := Entry m f ∧ m f ≠ 0

/-- The root directory and the files in it. -/
def Holder (m : Mem) (f : Nat) : Prop := f = sRoot ∨ Listed m f

/-- No block number occurs twice in the root directory and its files, and every
    one that occurs is that of a block in use which is not reserved. -/
structure Exclusive (m : Mem) : Prop where
  once : ∀ f g k k', Holder m f → Holder m g → k ≤ 1034 → k' ≤ 1034 → slot m f k ≠ 0 →
    slot m f k = slot m g k' → f = g ∧ k = k'
  used : ∀ f k, Holder m f → k ≤ 1034 → slot m f k ≠ 0 → blockIsFree m (slot m f k) = false ∧
    2 + nbitblocks m ≤ slot m f k ∧ slot m f k < sNblocks m

/-- The root directory and its entries are files that operations on one entry
    do not mix up. No entry is a directory, and the blocks of the directory are
    those its size stands for, though some may be missing. -/
structure Tidy (m : Mem) : Prop where
  sane : Sane m
  root : Owns m sRoot
  entry : ∀ f, Entry m f → Owns m f
  top : ∀ f, Entry m f → Apart m f sRoot
  apart : ∀ f g, Entry m f → Entry m g → f ≠ g → Apart m f g
  type : ∀ f, Entry m f → fType m f ≠ 1
  size : (fSize m sRoot).toNat ≤ 4096 * 1035
  whole : (fSize m sRoot).toNat % 4096 = 0
  inside : ∀ k < 1034, slot m sRoot k ≠ 0 → 4096 * k < (fSize m sRoot).toNat

theorem entry_congr (h : ∀ k ≤ 1034, slot m' sRoot k = slot m sRoot k) (f : Nat) :
    Entry m' f ↔ Entry m f := by
  unfold Entry
  refine exists_congr fun k => and_congr_right fun hk => ?_
  rw [h k (by omega)]

/-- Entries begin at multiples of their size. -/
theorem Entry.aligned (h : Entry m f) : f % 256 = 0 := by
  rcases h with ⟨k, -, j, -, -, rfl⟩
  omega

/-- The first entry of a block. -/
theorem Entry.first (hk : k < 1034) (hne : slot m sRoot k ≠ 0) : Entry m (slot m sRoot k * 4096) :=
  ⟨k, hk, 0, by decide, hne, by omega⟩

/-- The block of an entry belongs to the directory. -/
theorem Entry.block (h : Entry m f) :
    ∃ k < 1034, slot m sRoot k ≠ 0 ∧ f / 4096 = slot m sRoot k := by
  rcases h with ⟨k, hk, j, hj, hne, rfl⟩
  exact ⟨k, hk, hne, by omega⟩

/-- A structure that is blank has no blocks, no size and type 0. -/
theorem blank_struct (h : ∀ t < 256, m (f + t) = 0) :
    (∀ k ≤ 1034, slot m f k = 0) ∧ fSize m f = 0 ∧ fType m f = 0 := by
  have hload : ∀ o, o + 4 ≤ 256 → load m 4 (f + o) = 0 := by
    intro o ho
    refine load_zero _ fun a hlo hhi => ?_
    have := h (a - f) (by omega)
    rwa [show f + (a - f) = a by omega] at this
  refine ⟨slot_blank m f fun i hi => ?_, ?_, hload 132 (by omega)⟩
  · have := h (136 + i) (by omega)
    rwa [← Nat.add_assoc] at this
  · unfold fSize
    rw [hload 128 (by omega)]
    rfl

namespace Tidy

variable {m m' : Mem}

theorem exclusive (h : Tidy m) : Exclusive m := by
  have howns : ∀ f, Holder m f → Owns m f := by
    rintro f (rfl | hf)
    · exact h.root
    · exact h.entry f hf.1
  refine ⟨?_, ?_⟩
  · intro f g k k' hf hg hk hk' hne he
    have hof : Owned m f (slot m f k) := ⟨hne, k, hk, rfl⟩
    have hog : Owned m g (slot m f k) := ⟨hne, k', hk', he.symm⟩
    have hfg : f = g := by
      by_contra hdiff
      rcases hf with rfl | hf <;> rcases hg with rfl | hg
      · exact hdiff rfl
      · exact (h.top g hg.1).owned _ hog hof
      · exact (h.top f hf.1).owned _ hof hog
      · exact (h.apart f g hf.1 hg.1 hdiff).owned _ hof hog
    subst hfg
    exact ⟨rfl, (howns f hf).inj k k' hk hk' hne he⟩
  · intro f k hf hk hne
    have hv := (howns f hf).valid k hk hne
    exact ⟨hv.2.2.1, hv.1, hv.2.1⟩

/-- An operation on one entry. -/
theorem step (h : Tidy m) (hf : Entry m f) (hs : FileStep m m' f) : Tidy m' := by
  have hroot := hs.other h.root (h.top f hf)
  have hentry := entry_congr hroot.slots
  have hother : ∀ g, Entry m g → g ≠ f → Untouched m m' g := fun g hg hne =>
    hs.other (h.entry g hg) (h.apart f g hf hg hne.symm)
  -- in each part, the entry itself and then the others, which are untouched
  refine ⟨hs.sane (h.entry f hf) h.sane, hroot.owns, ?_, ?_, ?_, ?_, hroot.size ▸ h.size,
    hroot.size ▸ h.whole, ?_⟩
  · intro g hg
    rw [hentry] at hg
    by_cases hfg : g = f
    · rw [hfg]
      exact hs.owns
    · exact (hother g hg hfg).owns
  · intro g hg
    rw [hentry] at hg
    by_cases hfg : g = f
    · rw [hfg]
      exact hs.apart h.root (h.top f hf)
    · exact (h.top g hg).of_slots (hother g hg hfg).slots hroot.slots
  · intro g g' hg hg' hne
    rw [hentry] at hg hg'
    by_cases hfg : g = f
    · subst hfg
      exact hs.apart (h.entry g' hg') (h.apart g g' hg hg' hne)
    · by_cases hfg' : g' = f
      · subst hfg'
        exact hs.apart' (h.entry g hg) (h.apart g' g hg' hg hne.symm) (h.apart g g' hg hg' hne)
      · exact (h.apart g g' hg hg' hne).of_slots (hother g hg hfg).slots (hother g' hg' hfg').slots
  · intro g hg
    rw [hentry] at hg
    by_cases hfg : g = f
    · rw [hfg, hs.type]
      exact h.type f hf
    · rw [(hother g hg hfg).type]
      exact h.type g hg
  · intro k hk hne
    rw [hroot.slots k (by omega)] at hne
    rw [hroot.size]
    exact h.inside k hk hne

/-- An entry in a block that the directory got and that was blank: it has no
    blocks, and its own block was free. -/
theorem fresh_entry (hg : Grows m m' sRoot) {j : Nat} (hk : k < 1034) (hj : j < 16)
    (h0 : slot m sRoot k = 0) (hne : slot m' sRoot k ≠ 0)
    (hblank : ∀ o < 4096, m' (slot m' sRoot k * 4096 + o) = 0) :
    (∀ i ≤ 1034, slot m' (slot m' sRoot k * 4096 + 256 * j) i = 0) ∧
      Owns m' (slot m' sRoot k * 4096 + 256 * j) ∧
      fType m' (slot m' sRoot k * 4096 + 256 * j) = 0 ∧
      blockIsFree m ((slot m' sRoot k * 4096 + 256 * j) / 4096) = true ∧
      (slot m' sRoot k * 4096 + 256 * j) / 4096 = slot m' sRoot k := by
  have hv := hg.owns.valid k (by omega) hne
  have hblock : (slot m' sRoot k * 4096 + 256 * j) / 4096 = slot m' sRoot k := by omega
  have hstruct := blank_struct (m := m') (f := slot m' sRoot k * 4096 + 256 * j) fun t ht => by
    rw [Nat.add_assoc]
    exact hblank _ (by omega)
  refine ⟨hstruct.1, Owns.of_empty ⟨by omega, by omega, .inr ?_, ?_⟩ hstruct.1, hstruct.2.2, ?_,
    hblock⟩
  · rw [hblock]
    exact hv.1
  · rw [hblock]
    exact hv.2.2.1
  · rw [hblock]
    exact hg.fresh k (by omega) h0 hne

variable (h : Tidy m)
include h

/-- The directory gets further blocks up to its size, all of them blank. -/
theorem grow (hg : Grows m m' sRoot)
    (hinside : ∀ k < 1034, slot m sRoot k = 0 → slot m' sRoot k ≠ 0 →
      4096 * k < (fSize m sRoot).toNat)
    (hblank : ∀ k < 1034, slot m sRoot k = 0 → slot m' sRoot k ≠ 0 →
      ∀ o < 4096, m' (slot m' sRoot k * 4096 + o) = 0) : Tidy m' := by
  have hold := fun f hf => hg.other (h.entry f hf) (h.top f hf)
  -- an entry was there before, or it is empty and in a block that was free
  have hcases : ∀ f, Entry m' f → Entry m f ∨ ((∀ i ≤ 1034, slot m' f i = 0) ∧ Owns m' f ∧
      fType m' f = 0 ∧ blockIsFree m (f / 4096) = true ∧ fIndirect m' sRoot ≠ f / 4096) := by
    rintro f ⟨k, hk, j, hj, hne, rfl⟩
    by_cases h0 : slot m sRoot k = 0
    · rcases fresh_entry hg hk hj h0 hne (hblank k hk h0 hne) with ⟨h1, h2, h3, h4, h5⟩
      refine .inr ⟨h1, h2, h3, h4, ?_⟩
      rw [h5]
      exact Ne.symm (hg.owns.ne_indirect hk hne)
    · rw [hg.keep k (by omega) h0]
      exact .inl ⟨k, hk, j, hj, h0, rfl⟩
  have hempty : ∀ f, (∀ i ≤ 1034, slot m' f i = 0) → ∀ b, ¬Owned m' f b := by
    rintro f hz b ⟨h0, k, hk, rfl⟩
    exact h0 (hz k hk)
  -- the blocks of an old entry were in use
  have hused : ∀ f b, Entry m f → Owned m' f b → blockIsFree m b = false := by
    intro f b hf hb
    rw [owned_congr (hold f hf).1.slots] at hb
    rcases hb with ⟨h0, k, hk, rfl⟩
    exact ((h.entry f hf).valid k hk h0).2.2.1
  have hstruct : ∀ f g, Entry m' f → Entry m' g → f ≠ g → f + 256 ≤ g ∨ g + 256 ≤ f := by
    intro f g hf hg' hne
    have := hf.aligned
    have := hg'.aligned
    omega
  refine ⟨hg.sane h.sane, hg.owns, ?_, ?_, ?_, ?_, hg.size ▸ h.size,
    hg.size ▸ h.whole, ?_⟩
  · intro f hf
    rcases hcases f hf with hf | hf
    · exact (hold f hf).1.owns
    · exact hf.2.1
  · intro f hf
    rcases hcases f hf with hf' | ⟨hz, ho, -, -, hi⟩
    · exact (hold f hf').2.1
    · refine ⟨?_, fun b hb => absurd hb (hempty f hz b), hempty f hz _, fun _ => hi⟩
      have hroot : sRoot = 4104 := rfl
      rcases hf.block with ⟨k, hk, hne, he⟩
      have := (hg.owns.valid k (by omega) hne).1
      omega
  · intro f g hf hg' hne
    have hst := hstruct f g hf hg' hne
    rcases hcases f hf with hf' | ⟨hz, -, -, hfree, -⟩
    · rcases hcases g hg' with hg1 | ⟨hz, -, -, hfree, -⟩
      · exact (h.apart f g hf' hg1 hne).of_slots (hold f hf').1.slots (hold g hg1).1.slots
      · refine ⟨hst, fun b _ hb => hempty g hz b hb, fun hb => ?_, fun hi => ?_⟩
        · rw [hused f _ hf' hb] at hfree
          cases hfree
        · exact absurd (hz 1034 le_rfl) hi
    · refine ⟨hst, fun b hb => absurd hb (hempty f hz b), hempty f hz _, ?_⟩
      intro hi he
      rcases hcases g hg' with hg1 | ⟨hz', -⟩
      · have := hused g (fIndirect m' g) hg1 ⟨hi, 1034, le_rfl, rfl⟩
        rw [he, hfree] at this
        cases this
      · exact hi (hz' 1034 le_rfl)
  · intro f hf
    rcases hcases f hf with hf' | hf'
    · rw [(hold f hf').1.type]
      exact h.type f hf'
    · rw [hf'.2.2.1]
      decide
  · intro k hk hne
    rw [hg.size]
    by_cases h0 : slot m sRoot k = 0
    · exact hinside k hk h0 hne
    · exact h.inside k hk h0

/-- The blocks of the entries are behind the super block. -/
theorem entry_high (hf : Entry m f) :
    8192 ≤ f ∧ (fIndirect m f ≠ 0 → 2 ≤ fIndirect m f) := by
  rcases hf.block with ⟨k, hk, hne, he⟩
  have hv := (h.root.valid k (by omega) hne).1
  refine ⟨by omega, fun hi => ?_⟩
  have := ((h.entry f hf).indirect_valid hi).1
  omega

/-- The size of the directory is none of the entries' business. -/
theorem resize_entry (size : BitVec 32) (hf : Entry m f) :
    Untouched m (setSize m sRoot size) f ∧
      ∀ a, (f ≤ a ∧ a < f + 256) ∨ Owned m f (a / 4096) → setSize m sRoot size a = m a := by
  have hroot : sRoot = 4104 := rfl
  rcases setSize_step h.root size with ⟨hs, -, hfree⟩
  have hbytes : ∀ a, 8192 ≤ a → setSize m sRoot size a = m a :=
    fun a ha => store_off m _ (by omega)
  have hhigh := h.entry_high hf
  refine ⟨(h.entry f hf).untouched hs.nblocks (fun a hlo hhi => hbytes a (by omega)) ?_ ?_, ?_⟩
  · intro hi a ha
    have := hhigh.2 hi
    exact hbytes a (by omega)
  · intro b _ hb
    rwa [hfree]
  · rintro a (ha | ⟨h0, k, hk, he⟩)
    · exact hbytes a (by omega)
    · have := ((h.entry f hf).valid k hk (by rwa [he])).1
      exact hbytes a (by omega)

theorem resize (size : BitVec 32) (hle : (fSize m sRoot).toNat ≤ size.toNat)
    (hmax : size.toNat ≤ 4096 * 1035) (hwhole : size.toNat % 4096 = 0) :
    Tidy (setSize m sRoot size) := by
  rcases setSize_step h.root size with ⟨hs, hslots, -⟩
  have hentry := entry_congr hslots
  have hu : ∀ f, Entry m f → Untouched m (setSize m sRoot size) f := fun f hf =>
    (h.resize_entry size hf).1
  have hsize := fSize_setSize m sRoot size
  refine ⟨hs.sane h.root h.sane, hs.owns, ?_, ?_, ?_, ?_, by rwa [hsize],
    by rwa [hsize], ?_⟩
  · intro f hf
    exact (hu f ((hentry f).1 hf)).owns
  · intro f hf
    rw [hentry] at hf
    exact (h.top f hf).of_slots (hu f hf).slots hslots
  · intro f g hf hg hne
    rw [hentry] at hf hg
    exact (h.apart f g hf hg hne).of_slots (hu f hf).slots (hu g hg).slots
  · intro f hf
    rw [hentry] at hf
    rw [(hu f hf).type]
    exact h.type f hf
  · intro k hk hne
    rw [hslots k (by omega)] at hne
    rw [hsize]
    exact lt_of_lt_of_le (h.inside k hk hne) hle

theorem blocks_eq :
    ((fSize m sRoot).sdiv 4096#32).toNat = (fSize m sRoot).toNat / 4096 := by
  have hsize := h.size
  exact toNat_sdiv (by omega)

end Tidy

/-! ## Looking through the entries -/

theorem strEq_iff (m : Mem) (s : List (BitVec 8)) : ∀ a, strEq m a s = true ↔
    (∀ t < s.length, m (a + t) = s.getD t 0) ∧ m (a + s.length) = 0 := by
  induction s with
  | nil =>
    intro a
    rw [strEq, beq_iff_eq]
    exact ⟨fun h => ⟨fun t ht => absurd ht (by simp), h⟩, fun h => h.2⟩
  | cons c s ih =>
    intro a
    rw [strEq, Bool.and_eq_true, beq_iff_eq, ih, List.length_cons]
    have hend : a + 1 + s.length = a + (s.length + 1) := by omega
    rw [hend]
    refine ⟨?_, ?_⟩
    · rintro ⟨hc, hs, hnul⟩
      refine ⟨fun t ht => ?_, hnul⟩
      cases t with
      | zero => exact hc
      | succ t =>
        rw [List.getD_cons_succ, ← hs t (by omega)]
        congr 1
        omega
    · rintro ⟨hs, hnul⟩
      refine ⟨hs 0 (by omega), fun t ht => ?_, hnul⟩
      have := hs (t + 1) (by omega)
      rw [List.getD_cons_succ] at this
      rw [← this]
      congr 1
      omega

/-- The file has its blocks from `i` on, `n` of them. -/
def Held (m : Mem) (f i n : Nat) : Prop := ∀ k, i ≤ k → k < i + n → k < 1034 ∧ slot m f k ≠ 0

/-- Only slots before `n` were filled. -/
def Only (m m' : Mem) (f n : Nat) : Prop :=
  ∀ k < 1034, slot m f k = 0 → slot m' f k ≠ 0 → k < n

/-- Looking through a directory gives it the blocks that were missing. What is
    found is an entry with the property; a directory without gaps stays as it
    is, and then nothing is found only if there is no such entry. -/
theorem dirScan_spec (p : Mem → Nat → Bool) {dir : Nat} (n : Nat) :
    ∀ (i : Nat) (m : Mem), Sane m → Owns m dir →
      (dirScan p dir n i m).Sat
        (fun r m' => Grows m m' dir ∧ Only m m' dir (i + n) ∧ (Held m dir i n → m' = m) ∧
          (r = none → Held m' dir i n) ∧
          (∀ f, r = some f → p m' f = true ∧ ∃ k < 1034, ∃ j < 16, slot m' dir k ≠ 0 ∧
            f = slot m' dir k * 4096 + 256 * j) ∧
          (r = none → Held m dir i n → ∀ k, i ≤ k → k < i + n → ∀ j < 16,
            p m (slot m dir k * 4096 + 256 * j) = false))
        (fun e m' => (e = eInval ∨ e = eNoDisk) ∧ Grows m m' dir ∧ Only m m' dir (i + n) ∧
          ¬Held m dir i n) False := by
  induction n with
  | zero =>
    intro i m _ ho
    exact ⟨Grows.refl ho, fun _ _ h0 hne => absurd h0 hne, fun _ => rfl,
      fun _ k hlo hhi => absurd hhi (by omega), fun f hf => absurd hf (by simp),
      fun _ _ k hlo hhi => absurd hhi (by omega)⟩
  | succ n ih =>
    intro i m hs ho
    unfold dirScan
    refine ((fileGetBlock_spec i hs ho).mono (fun _ _ h => h) ?_ id).andThen ?_
    · rintro e m1 ⟨he, hg, hsame, h0, -⟩
      refine ⟨he, hg, fun k hk hz hne => absurd ((hsame k hk).trans hz) hne, fun hheld => ?_⟩
      have hi := hheld i le_rfl (by omega)
      exact hi.2 (h0 hi.1)
    rintro a m1 ⟨rfl, hgot⟩
    -- the block was there, or it is the only one that is new
    have honly : ∀ k < 1034, slot m dir k = 0 → slot m1 dir k ≠ 0 → k = i := by
      intro k hk h0 hne
      by_contra hki
      rw [hgot.others k hk hki] at hne
      exact hne h0
    have hsame : Held m dir i (n + 1) → m1 = m := fun hheld =>
      hgot.same (hheld i le_rfl (by omega)).2
    have htail : Held m dir i (n + 1) → Held m1 dir (i + 1) n := by
      intro hheld k hlo hhi
      rw [hsame hheld]
      exact hheld k (by omega) (by omega)
    cases hfind : (List.range 16).find? fun j => p m1 (slot m1 dir i * 4096 + 256 * j) with
    | some j =>
      refine ⟨hgot.grows, ?_, hsame, fun h => absurd h (by simp), ?_,
        fun h => absurd h (by simp)⟩
      · intro k hk h0 hne
        have := honly k hk h0 hne
        omega
      intro f hf
      rw [Option.some.injEq] at hf
      have hj := List.mem_range.1 (List.mem_of_find?_eq_some hfind)
      have hp := List.find?_some hfind
      rw [← hf]
      exact ⟨hp, i, hgot.lt, j, hj, hgot.here, rfl⟩
    | none =>
      have hwide : ∀ m', Only m1 m' dir (i + 1 + n) → Only m m' dir (i + (n + 1)) := by
        intro m' h k hk h0 hne
        by_cases h1 : slot m1 dir k = 0
        · have := h k hk h1 hne
          omega
        · have := honly k hk h0 h1
          omega
      refine (ih (i + 1) m1 (hgot.grows.sane hs) hgot.grows.owns).mono ?_ ?_ id
      · rintro r m' ⟨hg, ho', hid, hall, hfound, hnone⟩
        refine ⟨hgot.grows.trans hg, hwide m' ho',
          fun hheld => (hid (htail hheld)).trans (hsame hheld), ?_, hfound, ?_⟩
        · intro hr k hlo hhi
          by_cases hk : k = i
          · rw [hk, hg.keep i hgot.lt.le hgot.here]
            exact ⟨hgot.lt, hgot.here⟩
          · exact hall hr k (by omega) (by omega)
        -- not in this block, and by induction not in a later one
        intro hr hheld k hlo hhi j hj
        by_cases hk : k = i
        · rw [List.find?_eq_none] at hfind
          have hnot := hfind j (List.mem_range.2 hj)
          rw [hsame hheld] at hnot
          rw [hk]
          exact Bool.eq_false_iff.2 hnot
        · have := hnone hr (htail hheld) k (by omega) (by omega) j hj
          rwa [hsame hheld] at this
      · rintro e m' ⟨he, hg, ho', hnot⟩
        exact ⟨he, hgot.grows.trans hg, hwide m' ho', fun hheld => hnot (htail hheld)⟩

/-! ## Looking for a file -/

/-- The free blocks are blank. -/
def Spare (m : Mem) : Prop := ∀ b o, blockIsFree m b = true → o < 4096 → m (b * 4096 + o) = 0

theorem Grows.spare (hg : Grows m m' f) (hs : Sane m) (h : Spare m) : Spare m' := by
  intro b o hb ho
  rw [hg.idle hs b o hb ho]
  exact h b o (hg.pool b hb) ho

/-- The new blocks of a file are blank if the free blocks were. -/
theorem Grows.blank (hg : Grows m m' f) (h : Spare m) (k : Nat) (hk : k < 1034)
    (h0 : slot m f k = 0) (hne : slot m' f k ≠ 0) (o : Nat) (ho : o < 4096) :
    m' (slot m' f k * 4096 + o) = 0 := by
  rw [hg.data hk hne ho]
  exact h _ o (hg.fresh k (by omega) h0 hne) ho

/-- All the blocks of the root directory are there. -/
def NoGap (m : Mem) : Prop := Held m sRoot 0 ((fSize m sRoot).sdiv 4096#32).toNat

/-- Looking through the root directory makes no entries out of old bytes. -/
def Ready (m : Mem) : Prop := NoGap m ∨ Spare m

/-- What looking through the root directory does. -/
structure Looked (m m' : Mem) : Prop where
  grows : Grows m m' sRoot
  inside : ∀ k < 1034, slot m sRoot k = 0 → slot m' sRoot k ≠ 0 → 4096 * k < (fSize m sRoot).toNat
  blank : m' = m ∨ Spare m
  same : NoGap m → m' = m
  ready : Ready m'

namespace Looked

variable {m m' : Mem}

theorem refl (h : Tidy m) (hr : Ready m) : Looked m m :=
  ⟨Grows.refl h.root, fun _ _ h0 hne => absurd h0 hne, .inl rfl, fun _ => rfl, hr⟩

theorem tidy (h : Looked m m') (ht : Tidy m) : Tidy m' := by
  rcases h.blank with rfl | hs
  · exact ht
  · exact ht.grow h.grows h.inside (h.grows.blank hs)

end Looked

/-- What the two loops over the root directory do. -/
theorem dirScan_root (h : Tidy m) (hr : Ready m) (p : Mem → Nat → Bool) :
    (dirScan p sRoot ((fSize m sRoot).sdiv 4096#32).toNat 0 m).Sat
      (fun r m' => Looked m m' ∧ (r = none → NoGap m') ∧ (r = none → NoGap m → ∀ f, (∃ k, ∃ j < 16,
          k < ((fSize m sRoot).sdiv 4096#32).toNat ∧ f = slot m sRoot k * 4096 + 256 * j) →
          p m f = false) ∧
        ∀ f, r = some f → Entry m' f ∧ p m' f = true)
      (fun e m' => Looked m m' ∧ ¬NoGap m ∧ e ≠ eNotFound) False := by
  have hlooked : ∀ m', Grows m m' sRoot →
      Only m m' sRoot (0 + ((fSize m sRoot).sdiv 4096#32).toNat) → (NoGap m → m' = m) →
      Looked m m' := by
    intro m' hg ho hsame
    have hinside : ∀ k < 1034, slot m sRoot k = 0 → slot m' sRoot k ≠ 0 →
        4096 * k < (fSize m sRoot).toNat := by
      intro k hk h0 hne
      have hlt := ho k hk h0 hne
      rw [h.blocks_eq] at hlt
      omega
    rcases hr with hgap | hs
    · rw [hsame hgap]
      exact Looked.refl h (.inl hgap)
    · exact ⟨hg, hinside, .inr hs, hsame, .inr (hg.spare h.sane hs)⟩
  refine (dirScan_spec p _ 0 m h.sane h.root).mono ?_ ?_ id
  · rintro r m' ⟨hg, ho, hsame, hall, hfound, hnone⟩
    refine ⟨hlooked m' hg ho hsame, fun hr => ?_, ?_,
      fun f hf => ⟨(hfound f hf).2, (hfound f hf).1⟩⟩
    · unfold NoGap
      rw [hg.size]
      exact hall hr
    rintro hn hgap f ⟨k, j, hj, hk, rfl⟩
    exact hnone hn hgap k (Nat.zero_le _) (by omega) j hj
  · rintro e m' ⟨he, hg, ho, hnot⟩
    refine ⟨hlooked m' hg ho fun hgap => absurd hgap hnot, hnot, ?_⟩
    rcases he with rfl | rfl <;> decide

theorem dirLookup_root (h : Tidy m) (hr : Ready m) (name : List (BitVec 8)) :
    (dirLookup m sRoot name).Sat (fun f m' => Looked m m' ∧ Entry m' f ∧ strEq m' f name = true)
      (fun _ m' => Looked m m') True := by
  unfold dirLookup dirNblock
  split
  · rw [Option.bind_some]
    refine ((dirScan_root h hr _).mono (fun _ _ h => h) (fun _ _ h => h.1)
      (fun h => h.elim)).andThen ?_
    rintro r m' ⟨hl, -, -, hfound⟩
    cases r with
    | some f => exact ⟨hl, hfound f rfl⟩
    | none => exact hl
  · exact trivial

/-- In a file that is no directory a path ends. -/
theorem walkFrom_file (n : Nat) (dir : Option Nat) {f : Nat} (path : List (BitVec 8))
    (hf : fType m f ≠ 1) :
    walkFrom n dir f path m = some (.ok (dir, f), m) ∨
      ∃ r, walkFrom n dir f path m = some (.error (r, none), m) := by
  cases n with
  | zero => exact .inl rfl
  | succ n =>
    simp only [walkFrom]
    split
    · exact .inl rfl
    · split
      · exact .inr ⟨_, rfl⟩
      · exact .inr ⟨_, rfl⟩

/-- What `walk_path` finds: the root directory for an empty path, or an entry; or
    a place for a new entry with a name that fits. -/
theorem walkPath_spec (h : Tidy m) (hr : Ready m) {w : Walk} (hw : walkPath m path = some (w, m')) :
    Looked m m' ∧
      (∀ d f, w = .ok (d, f) → f = sRoot ∧ skipSlash path = [] ∨ Entry m' f) ∧
      ∀ r d name, w = .error (r, some (d, name)) → d = sRoot ∧ name.length < 128 := by
  unfold walkPath at hw
  cases hpath : skipSlash path with
  | nil =>
    simp only [hpath, List.length_nil, walkFrom] at hw
    cases hw
    refine ⟨Looked.refl h hr, ?_, fun r d name hw => by cases hw⟩
    intro d f hw
    rw [Except.ok.injEq, Prod.mk.injEq] at hw
    exact .inl ⟨hw.2.symm, rfl⟩
  | cons c rest =>
    simp only [hpath, List.length_cons, walkFrom] at hw
    rw [if_neg (by simp)] at hw
    split at hw
    · cases hw
      exact ⟨Looked.refl h hr, fun d f hw => absurd hw (by simp),
        fun r d name hw => absurd hw (by simp)⟩
    next hlen =>
    split at hw
    · cases hw
      exact ⟨Looked.refl h hr, fun d f hw => absurd hw (by simp),
        fun r d name hw => absurd hw (by simp)⟩
    have hlook := dirLookup_root h hr ((c :: rest).takeWhile (· != slash))
    rcases hres : dirLookup m sRoot ((c :: rest).takeWhile (· != slash)) with _ | ⟨e | f', m1⟩
    · rw [hres] at hw
      cases hw
    · rw [hres] at hw hlook
      cases hw
      refine ⟨hlook, fun d f hw => absurd hw (by simp), ?_⟩
      intro r d name hw
      rw [Except.error.injEq, Prod.mk.injEq] at hw
      have hsome := hw.2
      split at hsome
      · cases hsome
        exact ⟨rfl, by omega⟩
      · cases hsome
    · -- the entry is no directory
      rw [hres] at hw hlook
      simp only [Lib.Outcome.Sat] at hw hlook
      rcases hlook with ⟨hl, hentry, -⟩
      have htype := (hl.tidy h).type f' hentry
      rcases walkFrom_file rest.length (some sRoot)
        (skipSlash ((c :: rest).dropWhile (· != slash))) htype with hend | ⟨r, hend⟩
      · rw [hend] at hw
        cases hw
        refine ⟨hl, ?_, fun r d name hw => by cases hw⟩
        intro d f hw
        cases hw
        exact .inr hentry
      · rw [hend] at hw
        cases hw
        exact ⟨hl, fun d f hw => absurd hw (by simp), fun r d name hw => absurd hw (by simp)⟩

/-! ## What an operation on the directory leaves -/

/-- The directory may have got further entries. The old ones are as they were,
    and so are their bytes; the new ones are blank. -/
structure Widened (m m' : Mem) : Prop where
  tidy : Tidy m'
  old : ∀ g, Entry m g → Entry m' g ∧ Untouched m m' g ∧
    ∀ a, (g ≤ a ∧ a < g + 256) ∨ Owned m g (a / 4096) → m' a = m a
  new : ∀ g, Entry m' g → Entry m g ∨ ∀ t < 256, m' (g + t) = 0

namespace Widened

variable {m m' m'' : Mem}

theorem refl (h : Tidy m) : Widened m m :=
  ⟨h, fun g hg => ⟨hg, ⟨fun _ _ => rfl, rfl, rfl, h.entry g hg⟩, fun _ _ => rfl⟩,
    fun _ hg => .inl hg⟩

theorem trans (h : Widened m m') (h' : Widened m' m'') : Widened m m'' := by
  refine ⟨h'.tidy, ?_, ?_⟩
  · intro g hg
    rcases h.old g hg with ⟨he, hu, hb⟩
    rcases h'.old g he with ⟨he', hu', hb'⟩
    refine ⟨he', ⟨fun k hk => (hu'.slots k hk).trans (hu.slots k hk), hu'.size.trans hu.size,
      hu'.type.trans hu.type, hu'.owns⟩, ?_⟩
    intro a ha
    rw [hb' a ?_, hb a ha]
    rwa [owned_congr hu.slots]
  · intro g hg
    rcases h'.new g hg with hg' | hz
    · rcases h.new g hg' with hg0 | hz
      · exact .inl hg0
      · refine .inr fun t ht => ?_
        rw [(h'.old g hg').2.2 _ (.inl (by omega))]
        exact hz t ht
    · exact .inr hz

end Widened

theorem Tidy.widened (h : Tidy m) (hg : Grows m m' sRoot)
    (hinside : ∀ k < 1034, slot m sRoot k = 0 → slot m' sRoot k ≠ 0 →
      4096 * k < (fSize m sRoot).toNat)
    (hblank : ∀ k < 1034, slot m sRoot k = 0 → slot m' sRoot k ≠ 0 →
      ∀ o < 4096, m' (slot m' sRoot k * 4096 + o) = 0) : Widened m m' := by
  refine ⟨h.grow hg hinside hblank, ?_, ?_⟩
  · intro g he
    have hother := hg.other (h.entry g he) (h.top g he)
    refine ⟨?_, hother.1, hother.2.2⟩
    rcases he with ⟨k, hk, j, hj, hne, rfl⟩
    have hkeep := hg.keep k (by omega) hne
    exact ⟨k, hk, j, hj, by rwa [hkeep], by rw [hkeep]⟩
  · rintro g ⟨k, hk, j, hj, hne, rfl⟩
    by_cases h0 : slot m sRoot k = 0
    · refine .inr fun t ht => ?_
      rw [Nat.add_assoc]
      exact hblank k hk h0 hne _ (by omega)
    · rw [hg.keep k (by omega) h0]
      exact .inl ⟨k, hk, j, hj, h0, rfl⟩

theorem Looked.widened (h : Looked m m') (ht : Tidy m) : Widened m m' := by
  rcases h.blank with rfl | hs
  · exact Widened.refl ht
  · exact ht.widened h.grows h.inside (h.grows.blank hs)

theorem Tidy.widened_resize (h : Tidy m) (size : BitVec 32)
    (hle : (fSize m sRoot).toNat ≤ size.toNat) (hmax : size.toNat ≤ 4096 * 1035)
    (hwhole : size.toNat % 4096 = 0) : Widened m (setSize m sRoot size) := by
  have hentry := entry_congr (setSize_step h.root size).2.1
  refine ⟨h.resize size hle hmax hwhole, fun g hg => ⟨(hentry g).2 hg, h.resize_entry size hg⟩, ?_⟩
  exact fun g hg => .inl ((hentry g).1 hg)

/-- There is an entry without a name, and no gap to look through. -/
def Roomy (m : Mem) : Prop :=
  NoGap m ∧ ∃ k, ∃ j < 16, k < ((fSize m sRoot).sdiv 4096#32).toNat ∧
    m (slot m sRoot k * 4096 + 256 * j) = 0

theorem Tidy.spare_resize (h : Tidy m) (size : BitVec 32) (hs : Spare m) :
    Spare (setSize m sRoot size) := by
  intro b o hb ho
  have hroot : sRoot = 4104 := rfl
  rw [(setSize_step h.root size).2.2] at hb
  -- the super block is in use
  have hne : b ≠ 1 := by
    rintro rfl
    rw [h.sane.reserved 1 le_rfl (by omega)] at hb
    cases hb
  rw [← hs b o hb ho]
  exact store_off m _ (by omega)

/-- `dir_alloc_file` gives an entry without a name. -/
theorem dirAllocFile_spec (h : Tidy m) (hr : Roomy m ∨ Spare m) :
    (dirAllocFile m sRoot).Sat (fun f m' => Widened m m' ∧ Entry m' f ∧ m' f = 0)
      (fun _ m' => Widened m m') True := by
  have hready : Ready m := hr.imp_left And.left
  unfold dirAllocFile dirNblock
  split
  · rw [Option.bind_some]
    refine ((dirScan_root h hready _).mono (fun _ _ h => h) (fun _ _ h' => h'.1.widened h)
      (fun h => h.elim)).andThen ?_
    rintro r m1 ⟨hl, hall, hnone, hfound⟩
    cases r with
    | some f =>
      have hf := hfound f rfl
      exact ⟨hl.widened h, hf.1, beq_iff_eq.1 hf.2⟩
    | none =>
      -- all entries have a name, so the free blocks are blank
      have hspare : Spare m := by
        rcases hr with ⟨hgap, k, j, hj, hk, hz⟩ | hs
        · have hnot := hnone rfl hgap _ ⟨k, j, hj, hk, rfl⟩
          rw [beq_eq_false_iff_ne] at hnot
          exact absurd hz hnot
        · exact hs
      have ht1 := hl.tidy h
      have hwhole := ht1.whole
      have hcount : (fSize m1 sRoot).toNat ≤ 4096 * 1034 := by
        by_contra hbig
        have hlast := hall rfl 1034 (by omega) (by rw [ht1.blocks_eq]; omega)
        omega
      have hnew : (fSize m1 sRoot + 4096).toNat = (fSize m1 sRoot).toNat + 4096 := by
        rw [BitVec.toNat_add, show (4096 : BitVec 32).toNat = 4096 from rfl]
        omega
      have hn : ((fSize m sRoot).sdiv 4096#32).toNat = (fSize m1 sRoot).toNat / 4096 := by
        rw [h.blocks_eq, hl.grows.size]
      rw [hn]
      have ht2 := ht1.resize (fSize m1 sRoot + 4096) (by omega) (by omega) (by omega)
      have hs2 := ht1.spare_resize (fSize m1 sRoot + 4096) (hl.grows.spare h.sane hspare)
      have hw := (hl.widened h).trans
        (ht1.widened_resize (fSize m1 sRoot + 4096) (by omega) (by omega) (by omega))
      have hslots := (setSize_step ht1.root (fSize m1 sRoot + 4096)).2.1
      have hsize := fSize_setSize m1 sRoot (fSize m1 sRoot + 4096)
      generalize setSize m1 sRoot (fSize m1 sRoot + 4096) = m2 at *
      refine (fileGetBlock_spec _ ht2.sane ht2.root).mono ?_ ?_ (fun h => h.elim)
      · rintro a m' ⟨rfl, hgot⟩
        have hlt := hgot.lt
        have h0 : slot m2 sRoot ((fSize m1 sRoot).toNat / 4096) = 0 := by
          rw [hslots _ (by omega)]
          by_contra hne
          have := ht1.inside _ hlt hne
          omega
        have hwide := hw.trans (ht2.widened hgot.grows ?_ (hgot.grows.blank hs2))
        · refine ⟨hwide, Entry.first hlt hgot.here, ?_⟩
          have hz := hgot.grows.blank hs2 _ hlt h0 hgot.here 0 (by decide)
          rwa [Nat.add_zero] at hz
        · intro k hk hz hne
          have hk' : k = (fSize m1 sRoot).toNat / 4096 := by
            by_contra hdiff
            rw [hgot.others k hk hdiff] at hne
            exact hne hz
          rw [hsize]
          omega
      · rintro e m' ⟨-, hg, hsame, -⟩
        refine hw.trans (ht2.widened hg ?_ (hg.blank hs2))
        intro k hk hz hne
        exact absurd ((hsame k hk).trans hz) hne
  · exact trivial

/-! ## The operations with paths -/

theorem fileOpen_spec (h : Tidy m) (hr : Ready m) (hrun : fileOpen m path = some (r, m')) :
    Widened m m' ∧ ∀ f, r = .ok f → f = sRoot ∧ skipSlash path = [] ∨ Entry m' f := by
  unfold fileOpen at hrun
  rcases Option.map_eq_some_iff.1 hrun with ⟨⟨w, m1⟩, hwalk, hw⟩
  rcases walkPath_spec h hr hwalk with ⟨hl, hok, -⟩
  rcases w with ⟨e, d⟩ | ⟨d, f⟩
  · cases hw
    exact ⟨hl.widened h, fun f hf => by cases hf⟩
  · cases hw
    refine ⟨hl.widened h, fun f' hf => ?_⟩
    cases hf
    exact hok d f rfl

/-- `file_create` writes the name into an entry that had none. -/
theorem fileCreate_spec (h : Tidy m) (hr : Roomy m ∨ Spare m)
    (hrun : fileCreate m path = some (r, m')) :
    ∃ m1, Widened m m1 ∧ ((∃ e, r = .error e) ∧ m' = m1 ∨
      ∃ f name, r = .ok f ∧ Entry m1 f ∧ m1 f = 0 ∧ name.length < 128 ∧
        m' = copy m1 f (name ++ [0])) := by
  have hready : Ready m := hr.imp_left And.left
  unfold fileCreate at hrun
  rw [Option.bind_eq_some_iff] at hrun
  rcases hrun with ⟨⟨w, m1⟩, hwalk, hrun⟩
  rcases walkPath_spec h hready hwalk with ⟨hl, -, herr⟩
  rcases w with ⟨e, d⟩ | ⟨d, f⟩
  · rcases d with _ | ⟨dir, name⟩
    · simp only [Option.some.injEq, Prod.mk.injEq] at hrun
      exact ⟨m1, hl.widened h, .inl ⟨⟨e, hrun.1.symm⟩, hrun.2.symm⟩⟩
    · rcases herr e dir name rfl with ⟨rfl, hlen⟩
      simp only at hrun
      have hr1 : Roomy m1 ∨ Spare m1 := by
        rcases hr with hroom | hs
        · rw [hl.same hroom.1]
          exact .inl hroom
        · exact .inr (hl.grows.spare h.sane hs)
      have halloc := dirAllocFile_spec (hl.tidy h) hr1
      rcases hres : dirAllocFile m1 sRoot with _ | ⟨e' | f, m2⟩
      · rw [hres] at hrun
        exact absurd hrun (by simp [Lib.Outcome.andThen])
      · rw [hres] at hrun halloc
        simp only [Lib.Outcome.andThen, Option.some.injEq, Prod.mk.injEq] at hrun
        exact ⟨m2, (hl.widened h).trans halloc, .inl ⟨⟨e', hrun.1.symm⟩, hrun.2.symm⟩⟩
      · rw [hres] at hrun halloc
        rcases halloc with ⟨hw, hf, hz⟩
        simp only [Lib.Outcome.andThen] at hrun
        rcases Option.map_eq_some_iff.1 hrun with ⟨-, -, hm⟩
        rw [Prod.mk.injEq] at hm
        exact ⟨m2, (hl.widened h).trans hw, .inr ⟨f, name, hm.1.symm, hf, hz, hlen, hm.2.symm⟩⟩
  · simp only [Option.some.injEq, Prod.mk.injEq] at hrun
    exact ⟨m1, hl.widened h, .inl ⟨⟨_, hrun.1.symm⟩, hrun.2.symm⟩⟩

/-- `file_remove` gives the blocks of an entry back and erases its name. -/
theorem fileRemove_spec (h : Tidy m) (hr : Ready m) (hpath : skipSlash path ≠ [])
    {r : Except Int Unit} (hrun : fileRemove m path = some (r, m')) :
    ∃ r1 m1, fileOpen m path = some (r1, m1) ∧ Widened m m1 ∧
      ((∃ e, r1 = .error e) ∧ m' = m1 ∨ ∃ f m2, r1 = .ok f ∧ Entry m1 f ∧
        fileTruncateBlocks m1 f 0 = some m2 ∧ m' = setSize (copy m2 f [0]) f 0) := by
  unfold fileRemove at hrun
  rcases hopen : fileOpen m path with _ | ⟨e | f, m1⟩
  · rw [hopen] at hrun
    exact absurd hrun (by simp [Lib.Outcome.andThen])
  · rw [hopen] at hrun
    simp only [Lib.Outcome.andThen, Option.some.injEq, Prod.mk.injEq] at hrun
    exact ⟨_, m1, rfl, (fileOpen_spec h hr hopen).1, .inl ⟨⟨e, rfl⟩, hrun.2.symm⟩⟩
  · rw [hopen] at hrun
    rcases fileOpen_spec h hr hopen with ⟨hw, hf⟩
    have hentry := (hf f rfl).resolve_left fun hroot => hpath hroot.2
    simp only [Lib.Outcome.andThen] at hrun
    rcases Option.map_eq_some_iff.1 hrun with ⟨m2, htrunc, hm⟩
    rw [Prod.mk.injEq] at hm
    exact ⟨_, m1, rfl, hw, .inr ⟨f, m2, rfl, hentry, htrunc, hm.2.symm⟩⟩

/-- The end of `file_remove` is an operation on the entry. -/
theorem fileRemove_step (ho : Owns m f) (hrun : fileTruncateBlocks m f 0 = some m') :
    FileStep m (setSize (copy m' f [0]) f 0) f := by
  rcases fileTruncateBlocks_spec m f 0 ho with ⟨m1, hm1, ht⟩
  rw [hm1] at hrun
  cases hrun
  refine ht.step.trans (FileStep.of_struct ht.step.owns fun a ha => ?_).1
  refine (store_off _ _ (by omega)).trans (if_neg ?_)
  rw [List.length_singleton]
  omega

/-- A name with its NUL stays in the first 128 bytes. -/
theorem copyName_out (hlen : name.length < 128) {a : Nat} (ha : ¬(f ≤ a ∧ a < f + 128)) :
    copy m f (name ++ [0]) a = m a := by
  refine if_neg ?_
  rw [List.length_append, List.length_singleton]
  omega

/-- Writing a name into an entry is an operation on it. -/
theorem copyName_step (ho : Owns m f) (hlen : name.length < 128) :
    FileStep m (copy m f (name ++ [0])) f :=
  (FileStep.of_struct ho fun a ha => copyName_out hlen (by omega)).1

end Jos.Fs
