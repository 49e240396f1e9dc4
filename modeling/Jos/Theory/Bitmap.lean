import Jos.Core.Fs

/-!
# The Block Bitmap

What allocating and freeing a block does: one bit of the bitmap changes, and no
byte outside of the bitmap.

## Main definitions

* `nbitblocks`, `InBitmap`: Where the bitmap is.
* `Marked`: One bit was set to a value.
* `bit`, `takenWord`, `freedWord`: A bit, and the words that `alloc_block` and
  `free_block` store.
* `Sane`: The reserved blocks are in use.

## Theorems

* `allocBlock_spec`: A free block is marked in use, or there is none.
* `freeBlock_spec`: A block is marked free.
-/

namespace Jos.Fs

open Lib.Bytes (load store load_lt store_off load_store_off load_store_at load_same)

variable {m m' : Mem} {b : Nat} {v : Bool}

/-- The number of blocks of the bitmap. -/
def nbitblocks (m : Mem) : Nat := (sNblocks m + 32767) / 32768

/-- The address is inside the bitmap. -/
def InBitmap (m : Mem) (a : Nat) : Prop := 8192 ≤ a ∧ a < 8192 + 4096 * nbitblocks m

/-- The bit for block `b` became `v`, and nothing else changed. -/
structure Marked (m m' : Mem) (b : Nat) (v : Bool) : Prop where
  bytes : ∀ a, ¬InBitmap m a → m' a = m a
  free : ∀ x, blockIsFree m' x = if x = b then v else blockIsFree m x

theorem sNblocks_congr (h : ∀ a, 4100 ≤ a → a < 4104 → m' a = m a) : sNblocks m' = sNblocks m :=
  load_same m h

theorem Marked.nblocks (h : Marked m m' b v) : sNblocks m' = sNblocks m := by
  refine sNblocks_congr fun a hlo hhi => h.bytes a ?_
  unfold InBitmap
  omega

theorem nbitblocks_congr (h : sNblocks m' = sNblocks m) :
    nbitblocks m' = nbitblocks m := by
  unfold nbitblocks
  rw [h]

theorem inBitmap_congr (h : sNblocks m' = sNblocks m) (a : Nat) :
    InBitmap m' a ↔ InBitmap m a := by
  unfold InBitmap
  rw [nbitblocks_congr h]

theorem free_lt (h : blockIsFree m b = true) : b < sNblocks m := by
  unfold blockIsFree at h
  rw [Bool.and_eq_true, decide_eq_true_eq] at h
  exact h.1

/-- The bits of a memory with the same bitmap. -/
theorem blockIsFree_congr (hn : sNblocks m' = sNblocks m) (h : ∀ a, InBitmap m a → m' a = m a)
    (b : Nat) : blockIsFree m' b = blockIsFree m b := by
  unfold blockIsFree
  rw [hn]
  by_cases hb : b < sNblocks m
  · rw [load_same m]
    intro a hlo hhi
    refine h a ?_
    unfold bitmapWord at hlo hhi
    unfold InBitmap nbitblocks
    omega
  · rw [decide_eq_false hb, Bool.false_and, Bool.false_and]

/-- The bit for block `b`, also for a block that is not there. -/
def bit (m : Mem) (b : Nat) : Bool := (load m 4 (bitmapWord b)).testBit (b % 32)

/-- The bits when the one for `b` was given the value `v` in its word. -/
theorem bit_store {b w : Nat} (hw : w < 2 ^ 32) (hbit : ∀ i, w.testBit i =
      if i = b % 32 then v else (load m 4 (bitmapWord b)).testBit i) (x : Nat) :
    bit (store m 4 (bitmapWord b) w) x = if x = b then v else bit m x := by
  unfold bit
  by_cases hword : bitmapWord x = bitmapWord b
  · -- the same word: the bits are told apart by the remainders
    rw [hword, load_store_at, Nat.mod_eq_of_lt (show w < 256 ^ 4 from hw), hbit]
    by_cases hx : x = b
    · rw [if_pos (by rw [hx]), if_pos hx]
    · have hne : x % 32 ≠ b % 32 := by
        unfold bitmapWord at hword
        omega
      rw [if_neg hne, if_neg hx]
  · have hx : x ≠ b := fun hx => hword (by rw [hx])
    rw [load_store_off, if_neg hx]
    unfold bitmapWord at hword ⊢
    omega

/-- A word of the bitmap in which the bit for `b` was given the value `v`. -/
theorem marked_store {w : Nat} (hb : b < sNblocks m) (hw : w < 2 ^ 32) (hbit : ∀ i, w.testBit i =
      if i = b % 32 then v else (load m 4 (bitmapWord b)).testBit i) :
    Marked m (store m 4 (bitmapWord b) w) b v := by
  have hnb : sNblocks (store m 4 (bitmapWord b) w) = sNblocks m := by
    refine sNblocks_congr fun a hlo hhi => store_off m w ?_
    unfold bitmapWord
    omega
  refine ⟨?_, ?_⟩
  · intro a ha
    refine store_off m w ?_
    unfold InBitmap nbitblocks at ha
    unfold bitmapWord
    omega
  · intro x
    have hx := bit_store hw hbit x
    unfold bit at hx
    unfold blockIsFree
    rw [hnb, hx]
    by_cases hxb : x = b
    · rw [if_pos hxb, if_pos hxb, hxb, decide_eq_true hb, Bool.true_and]
    · rw [if_neg hxb, if_neg hxb]

theorem testBit_one_shiftLeft (n i : Nat) : (1 <<< n).testBit i = decide (i = n) := by
  rw [Nat.one_shiftLeft, Nat.testBit_two_pow]
  exact decide_eq_decide.2 eq_comm

theorem shiftLeft_lt (b : Nat) : 1 <<< (b % 32) < 2 ^ 32 := by
  rw [Nat.one_shiftLeft]
  exact Nat.pow_lt_pow_right (by decide) (Nat.mod_lt b (by decide))

/-- The word that `free_block` stores. -/
def freedWord (m : Mem) (b : Nat) : Nat := load m 4 (bitmapWord b) ||| 1 <<< (b % 32)

theorem freedWord_lt (m : Mem) (b : Nat) : freedWord m b < 2 ^ 32 :=
  Nat.or_lt_two_pow (load_lt m 4 _) (shiftLeft_lt b)

theorem freedWord_testBit (m : Mem) (b i : Nat) :
    (freedWord m b).testBit i =
      if i = b % 32 then true else (load m 4 (bitmapWord b)).testBit i := by
  unfold freedWord
  rw [Nat.testBit_or, testBit_one_shiftLeft]
  by_cases hi : i = b % 32
  · rw [if_pos hi, decide_eq_true hi, Bool.or_true]
  · rw [if_neg hi, decide_eq_false hi, Bool.or_false]

theorem freeBlock_eq (m : Mem) (b : Nat) (h0 : b ≠ 0) :
    freeBlock m b = some (store m 4 (bitmapWord b) (freedWord m b)) :=
  if_neg h0

theorem freeBlock_spec (h0 : b ≠ 0) (hb : b < sNblocks m) :
    ∃ m', freeBlock m b = some m' ∧ Marked m m' b true :=
  ⟨_, freeBlock_eq m b h0,
    marked_store hb (freedWord_lt m b) (freedWord_testBit m b)⟩

/-- The bitmap fits the disk, and the super block and the bitmap are in use. -/
structure Sane (m : Mem) : Prop where
  room : 2 + nbitblocks m ≤ sNblocks m
  reserved : ∀ b, 1 ≤ b → b < 2 + nbitblocks m → blockIsFree m b = false

theorem Sane.two_lt (h : Sane m) : 2 < sNblocks m := by
  have hroom := h.room
  unfold nbitblocks at hroom
  omega

/-- A free block with a number other than 0 is none of the reserved ones. -/
theorem Sane.free_ge (h : Sane m) (h1 : 1 ≤ b) (hf : blockIsFree m b = true) :
    2 + nbitblocks m ≤ b := by
  by_contra hlt
  rw [h.reserved b h1 (by omega)] at hf
  cases hf

/-- No reserved block may become free. -/
theorem Sane.of_free (h : Sane m) (hn : sNblocks m' = sNblocks m) (hfree : ∀ b, 1 ≤ b →
      b < 2 + nbitblocks m → blockIsFree m' b = true → blockIsFree m b = true) : Sane m' := by
  have hnb := nbitblocks_congr hn
  refine ⟨by rw [hnb, hn]; exact h.room, ?_⟩
  intro b h1 hlt
  rw [hnb] at hlt
  refine Bool.eq_false_iff.2 fun hf => ?_
  have := h.free_ge h1 (hfree b h1 hlt hf)
  omega

/-- The first free block. -/
structure First (m : Mem) (b : Nat) : Prop where
  pos : 1 ≤ b
  free : blockIsFree m b = true
  least : ∀ x, 1 ≤ x → x < b → blockIsFree m x = false

theorem First.unique {x : Nat} (hb : First m b) (hx : First m x) : b = x := by
  by_contra hne
  rcases Nat.lt_or_gt_of_ne hne with hlt | hlt
  · exact absurd hb.free (hx.least b hb.pos hlt ▸ Bool.false_ne_true)
  · exact absurd hx.free (hb.least x hx.pos hlt ▸ Bool.false_ne_true)

/-- The word that `alloc_block` stores for a block whose bit is set. -/
def takenWord (m : Mem) (b : Nat) : Nat := load m 4 (bitmapWord b) ^^^ 1 <<< (b % 32)

theorem takenWord_lt (m : Mem) (b : Nat) : takenWord m b < 2 ^ 32 :=
  Nat.xor_lt_two_pow (load_lt m 4 _) (shiftLeft_lt b)

theorem takenWord_testBit (h : bit m b = true) (i : Nat) :
    (takenWord m b).testBit i =
      if i = b % 32 then false else (load m 4 (bitmapWord b)).testBit i := by
  unfold takenWord
  unfold bit at h
  rw [Nat.testBit_xor, testBit_one_shiftLeft]
  by_cases hi : i = b % 32
  · rw [if_pos hi, decide_eq_true hi, hi, h]
    rfl
  · rw [if_neg hi, decide_eq_false hi, Bool.xor_false]

theorem bit_of_free (h : blockIsFree m b = true) : bit m b = true := by
  unfold blockIsFree at h
  exact (Bool.and_eq_true_iff.1 h).2

theorem marked_take (h : blockIsFree m b = true) :
    Marked m (store m 4 (bitmapWord b) (takenWord m b)) b false :=
  marked_store (free_lt h) (takenWord_lt m b) (takenWord_testBit (bit_of_free h))

/-- `alloc_block` marks the first free block in use, or there is none. -/
theorem allocBlock_spec (m : Mem) (h : 2 < sNblocks m) :
    (allocBlock m).Sat (fun b m' => First m b ∧ Marked m m' b false)
      (fun e m' => e = eNoDisk ∧ m' = m ∧ ∀ b, 1 ≤ b → blockIsFree m b = false) False := by
  unfold allocBlock
  cases hfind : (List.range' 1 (sNblocks m - 1)).find? (blockIsFree m) with
  | none =>
    refine ⟨rfl, rfl, fun b hb => ?_⟩
    rw [List.find?_eq_none] at hfind
    cases hf : blockIsFree m b with
    | false => rfl
    | true =>
      have hlt := free_lt hf
      exact absurd hf (hfind b (List.mem_range'_1.2 (by omega)))
  | some b =>
    have hdisk : diskaddr m 2 = some 8192 := if_neg (by omega)
    have hfree : blockIsFree m b = true := List.find?_some hfind
    have hmem := List.mem_range'_1.1 (List.mem_of_find?_eq_some hfind)
    simp only [hdisk, Option.map_some]
    refine ⟨⟨hmem.1, hfree, ?_⟩, ?_⟩
    · -- the search passed over the blocks before
      intro x hx hlt
      rw [List.find?_range'_eq_some] at hfind
      have hnot := hfind.2.2 x hx hlt
      exact Bool.eq_false_iff.2 (by simpa using hnot)
    · exact marked_take hfree

end Jos.Fs
