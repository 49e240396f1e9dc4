import Jos.Theory.ReadBack

/-!
# What Truncation Frees

`file_set_size` to a smaller size: `file_truncate_blocks` goes through the slots
between the new number of blocks and the old one, direct ones first, then those
in the indirect block, and at the end it may free the indirect block itself.
Freeing a block sets a bit that may be set already, so to say that no block is
freed twice, the calls of `free_block` are written down.

## Main definitions

* `fileSetSizeLogged`: `file_set_size`, with the blocks it passes to `free_block`.
* `held`: The blocks in a range of slots.
* `Cut`: A file was cut down.

## Theorems

* `fileSetSizeLogged_erase`: Writing down the calls changes nothing.
* `fileFreeBlockLogged_spec`: One turn of the loop.
* `truncateLoop_spec`: The whole loop.
* `fileSetSize_cut`: Exactly the surplus is freed.
-/

namespace Jos.Fs

open Lib.Bytes (load store load_lt store_off load_store_off load_store_at load_same load_zero)
open Option (bind_some map_map map_some some.injEq)

variable {m m' : Mem} {x f lo n i new old k : Nat} {s : Mem × List Nat}

/-! ## Writing down what is freed -/

/-- `free_block`, with the blocks that were passed to it so far. -/
def freeBlockLogged (s : Mem × List Nat) (b : Nat) : Option (Mem × List Nat) :=
  (freeBlock s.1 b).map fun m => (m, s.2 ++ [b])

/-- `file_free_block` -/
def fileFreeBlockLogged (s : Mem × List Nat) (f filebno : Nat) : Option (Mem × List Nat) :=
  match fileBlockWalk s.1 f filebno false with
  | none => none
  | some (.error _, m) => some (m, s.2)
  | some (.ok slot, m) =>
    if load m 4 slot ≠ 0 then
      (freeBlockLogged (m, s.2) (load m 4 slot)).map fun s => (store s.1 4 slot 0, s.2)
    else some (m, s.2)

/-- `file_truncate_blocks` -/
def fileTruncateBlocksLogged (m : Mem) (f : Nat) (newsize : BitVec 32) :
    Option (Mem × List Nat) :=
  let oldNblocks := sizeBlocks (fSize m f)
  let newNblocks := sizeBlocks newsize
  (Lib.forUpto (fun i s => fileFreeBlockLogged s f (newNblocks + i)) (oldNblocks - newNblocks)
    (m, [])).bind fun s =>
      if newNblocks ≤ 10 ∧ fIndirect s.1 f ≠ 0 then
        (freeBlockLogged s (fIndirect s.1 f)).map fun s => (setIndirect s.1 f 0, s.2)
      else some s

/-- `file_set_size` -/
def fileSetSizeLogged (m : Mem) (f : Nat) (newsize : BitVec 32) : Option (Mem × List Nat) :=
  (if newsize.slt (fSize m f) then fileTruncateBlocksLogged m f newsize else some (m, [])).map
    fun s => (setSize s.1 f newsize, s.2)

theorem freeBlockLogged_erase (s : Mem × List Nat) (b : Nat) :
    (freeBlockLogged s b).map Prod.fst = freeBlock s.1 b := by
  unfold freeBlockLogged
  rw [map_map]
  exact Option.map_id_fun' ▸ rfl

theorem fileFreeBlockLogged_erase (s : Mem × List Nat) (f k : Nat) :
    (fileFreeBlockLogged s f k).map Prod.fst = fileFreeBlock s.1 f k := by
  unfold fileFreeBlockLogged fileFreeBlock
  rcases fileBlockWalk s.1 f k false with _ | ⟨e | slot, m⟩
  · rfl
  · rfl
  · dsimp only
    by_cases hz : load m 4 slot ≠ 0
    · rw [if_pos hz, if_pos hz, ← freeBlockLogged_erase (m, s.2), map_map, map_map]
      rfl
    · rw [if_neg hz, if_neg hz]
      rfl

theorem fileSetSizeLogged_erase (m : Mem) (f : Nat) (newsize : BitVec 32) :
    (fileSetSizeLogged m f newsize).map Prod.fst = fileSetSize m f newsize := by
  have hloop := Lib.forUpto_map
    (fun i m => fileFreeBlock m f (sizeBlocks newsize + i))
    (fun i s => fileFreeBlockLogged_erase s f _)
    (sizeBlocks (fSize m f) - sizeBlocks newsize) (m, [])
  have hcut : (fileTruncateBlocksLogged m f newsize).map Prod.fst =
      fileTruncateBlocks m f newsize := by
    unfold fileTruncateBlocksLogged fileTruncateBlocks
    dsimp only at hloop ⊢
    rw [← hloop]
    rcases Lib.forUpto (fun i s => fileFreeBlockLogged s f (sizeBlocks newsize + i))
      (sizeBlocks (fSize m f) - sizeBlocks newsize) (m, []) with _ | s
    · rfl
    · simp only [bind_some, map_some]
      by_cases hlast : sizeBlocks newsize ≤ 10 ∧ fIndirect s.1 f ≠ 0
      · rw [if_pos hlast, if_pos hlast, ← freeBlockLogged_erase s, map_map, map_map]
        rfl
      · rw [if_neg hlast, if_neg hlast, map_some]
  unfold fileSetSizeLogged fileSetSize
  by_cases hlt : newsize.slt (fSize m f) = true
  · rw [if_pos hlt, if_pos hlt, ← hcut, map_map, map_map]
    rfl
  · rw [if_neg hlt, if_neg hlt]
    rfl

/-! ## Bits -/

/-- The bits of the bitmap, up to the end of its last block. -/
theorem bit_congr (h : ∀ a, InBitmap m a → m' a = m a) (hx : x < 32768 * nbitblocks m) :
    bit m' x = bit m x := by
  unfold bit
  rw [load_same m]
  intro a hlo hhi
  refine h a ?_
  unfold bitmapWord at hlo hhi
  unfold InBitmap
  omega

theorem bit_free (m : Mem) (b x : Nat) :
    bit (store m 4 (bitmapWord b) (freedWord m b)) x = if x = b then true else bit m x :=
  bit_store (freedWord_lt m b) (freedWord_testBit m b) x

/-! ## The loop -/

/-- The blocks in `n` slots of a file, from slot `lo` on. -/
def held (m : Mem) (f lo n : Nat) : List Nat :=
  ((List.range' lo n).map (slot m f)).filter (· ≠ 0)

theorem held_succ (m : Mem) (f lo n : Nat) :
    held m f lo (n + 1) =
      held m f lo n ++ if slot m f (lo + n) ≠ 0 then [slot m f (lo + n)] else [] := by
  unfold held
  rw [List.range'_concat, Nat.one_mul, List.map_append, List.filter_append]
  by_cases hz : slot m f (lo + n) ≠ 0
  · rw [if_pos hz]
    simp [hz]
  · rw [if_neg hz]
    rw [not_not] at hz
    simp [hz]

theorem mem_held {b : Nat} :
    b ∈ held m f lo n ↔ b ≠ 0 ∧ ∃ k, lo ≤ k ∧ k < lo + n ∧ slot m f k = b := by
  unfold held
  rw [List.mem_filter, List.mem_map, decide_eq_true_eq, and_comm]
  refine and_congr_right fun _ => exists_congr fun k => ?_
  rw [List.mem_range'_1, and_assoc]

/-- The blocks in different slots are different. -/
theorem held_nodup (ho : Owns m f) (hn : lo + n ≤ 1034) : (held m f lo n).Nodup := by
  induction n with
  | zero => exact List.nodup_nil
  | succ n ih =>
    rw [held_succ]
    by_cases hz : slot m f (lo + n) ≠ 0
    · rw [if_pos hz]
      refine (ih (by omega)).append (List.nodup_singleton _) ?_
      rw [List.disjoint_singleton]
      intro hmem
      rcases mem_held.1 hmem with ⟨h0, k, hlo, hhi, hk⟩
      have := ho.inj k (lo + n) (by omega) (by omega) (by rwa [hk]) hk
      omega
    · rw [if_neg hz, List.append_nil]
      exact ih (by omega)

/-- What one turn does: nothing for an empty slot. -/
theorem fileFreeBlockLogged_eq (log : List Nat) (ho : Owns m f) (hk : k < 1034) :
    fileFreeBlockLogged (m, log) f k =
      if slot m f k ≠ 0 then
        some (store (store m 4 (bitmapWord (slot m f k)) (freedWord m (slot m f k))) 4
          (cell m f k) 0, log ++ [slot m f k])
      else some (m, log) := by
  unfold fileFreeBlockLogged
  rcases fileBlockWalk_find k ho with ⟨⟨_, hi⟩, hwalk⟩ | ⟨h0, e, hwalk⟩
  · rw [hwalk]
    dsimp only
    rw [load_cell hk hi]
    by_cases hz : slot m f k ≠ 0
    · rw [if_pos hz, if_pos hz]
      unfold freeBlockLogged
      rw [freeBlock_eq m _ hz, map_some, map_some]
    · rw [if_neg hz, if_neg hz]
  · -- there is no indirect block that could hold the slot
    rw [hwalk, if_neg (not_not.2 (h0 hk))]

/-- One turn: the slot is erased and its block, if it has one, is freed. -/
theorem fileFreeBlockLogged_spec (log : List Nat) (ho : Owns m f) (hk : k < 1034) :
    ∃ m', fileFreeBlockLogged (m, log) f k =
        some (m', log ++ if slot m f k ≠ 0 then [slot m f k] else []) ∧
      Trimmed m m' f (· = k) ∧ fIndirect m' f = fIndirect m f ∧
      ∀ x < 32768 * nbitblocks m,
        bit m' x = (bit m x || decide (slot m f k ≠ 0 ∧ x = slot m f k)) := by
  rcases fileFreeBlock_spec k ho with ⟨m', hrun, htrim, hind⟩
  have herase := fileFreeBlockLogged_erase (m, log) f k
  rw [hrun, fileFreeBlockLogged_eq log ho hk] at herase
  rw [fileFreeBlockLogged_eq log ho hk]
  refine ⟨m', ?_, htrim, hind, fun x hx => ?_⟩
  · by_cases hz : slot m f k ≠ 0
    · rw [if_pos hz, map_some, some.injEq] at herase
      rw [if_pos hz, if_pos hz, ← herase]
    · rw [if_neg hz, map_some, some.injEq] at herase
      rw [if_neg hz, if_neg hz, ← herase, List.append_nil]
  · by_cases hz : slot m f k ≠ 0
    · rw [if_pos hz, map_some] at herase
      cases herase
      -- the slot is not in the bitmap
      have hcell : ∀ a, InBitmap m a → store (store m 4 (bitmapWord (slot m f k))
          (freedWord m (slot m f k))) 4 (cell m f k) 0 a =
          store m 4 (bitmapWord (slot m f k)) (freedWord m (slot m f k)) a := by
        intro a ha
        refine store_off _ 0 ?_
        by_contra hin
        refine ho.off_bitmap a ?_ ha
        by_cases hd : k < 10
        · left
          unfold cell at hin
          rw [if_pos hd] at hin
          omega
        · right
          have hi : fIndirect m f ≠ 0 := fun hi => hz (slot_none (by omega) hk.le hi)
          unfold cell at hin
          rw [if_neg hd] at hin
          exact ⟨hi, by omega⟩
      have hmarked := (freeBlock_spec hz (ho.valid k (by omega) hz).2.1)
      rcases hmarked with ⟨m1, hm1, hmarked⟩
      rw [freeBlock_eq m _ hz, some.injEq] at hm1
      rw [hm1] at hcell ⊢
      rw [bit_congr (fun a ha => hcell a ((inBitmap_congr hmarked.nblocks a).1 ha))
        ((nbitblocks_congr hmarked.nblocks).symm ▸ hx), ← hm1, bit_free]
      by_cases hxb : x = slot m f k
      · rw [if_pos hxb, decide_eq_true ⟨hz, hxb⟩, Bool.or_true]
      · rw [if_neg hxb, decide_eq_false fun h => hxb h.2, Bool.or_false]
    · rw [if_neg hz, map_some, some.injEq] at herase
      rw [← herase, decide_eq_false fun h => hz h.1, Bool.or_false]

/-- The state after `i` turns from slot `lo` on. -/
structure Freed (m : Mem) (f lo i : Nat) (s : Mem × List Nat) : Prop where
  trimmed : Trimmed m s.1 f fun k => lo ≤ k ∧ k < lo + i
  indirect : fIndirect s.1 f = fIndirect m f
  calls : s.2 = held m f lo i
  bits : ∀ x < 32768 * nbitblocks m, bit s.1 x = (bit m x || decide (x ∈ s.2))

theorem Freed.start (ho : Owns m f) (lo : Nat) : Freed m f lo 0 (m, []) := by
  refine ⟨⟨FileStep.refl ho, fun _ _ _ _ => rfl, ?_, fun _ _ _ => rfl⟩, rfl, rfl, ?_⟩
  · intro k _ hk
    omega
  · intro x _
    rw [decide_eq_false List.not_mem_nil, Bool.or_false]

/-- A slot that the loop has not come to is what it was at the start. -/
theorem Freed.turn (h : Freed m f lo i s) (hlast : lo + i < 1034) :
    ∃ s', fileFreeBlockLogged s f (lo + i) = some s' ∧ Freed m f lo (i + 1) s' := by
  have hnb := nbitblocks_congr h.trimmed.step.nblocks
  have hslot : slot s.1 f (lo + i) = slot m f (lo + i) :=
    h.trimmed.kept (lo + i) hlast (by omega)
  rcases fileFreeBlockLogged_spec s.2 h.trimmed.step.owns hlast with
    ⟨m', hrun, htrim, hind, hbits⟩
  refine ⟨_, hrun, ⟨⟨h.trimmed.step.trans htrim.step, ?_, ?_, ?_⟩, hind.trans h.indirect, ?_, ?_⟩⟩
  · intro a hbm hf hia
    dsimp only
    rw [htrim.bytes a (by rwa [inBitmap_congr h.trimmed.step.nblocks]) hf
      (by rwa [h.indirect]), h.trimmed.bytes a hbm hf hia]
  · intro k hk hgone
    dsimp only
    by_cases hki : k = lo + i
    · exact htrim.cleared k hk hki
    · rw [htrim.kept k hk hki]
      exact h.trimmed.cleared k hk (by omega)
  · intro k hk hkept
    dsimp only
    rw [htrim.kept k hk (by omega)]
    exact h.trimmed.kept k hk (by omega)
  · dsimp only
    rw [held_succ, h.calls, hslot]
  · intro x hx
    dsimp only
    rw [hbits x (by rwa [hnb]), h.bits x hx, hslot, Bool.or_assoc]
    congr 1
    rw [← Bool.decide_or]
    refine decide_eq_decide.2 ?_
    rw [List.mem_append]
    refine or_congr_right ?_
    by_cases hz : slot m f (lo + i) ≠ 0
    · rw [if_pos hz, List.mem_singleton]
      exact and_iff_right hz
    · rw [if_neg hz]
      exact iff_of_false (fun h => hz h.1) List.not_mem_nil

/-- `file_free_block` finds no slot behind the last one. -/
theorem fileFreeBlockLogged_past (s : Mem × List Nat) {k : Nat} (f : Nat) (hk : 1034 ≤ k) :
    fileFreeBlockLogged s f k = some s := by
  unfold fileFreeBlockLogged fileBlockWalk
  rw [if_pos hk]

/-- A round of the loop, which may go on behind the last slot. -/
theorem Freed.round (h : Freed m f lo (min i (1034 - lo)) s) :
    ∃ s', fileFreeBlockLogged s f (lo + i) = some s' ∧
      Freed m f lo (min (i + 1) (1034 - lo)) s' := by
  by_cases hlast : lo + i < 1034
  · rw [Nat.min_eq_left (by omega)] at h ⊢
    exact h.turn hlast
  · refine ⟨s, fileFreeBlockLogged_past s f (by omega), ?_⟩
    rw [Nat.min_eq_right (by omega)] at h ⊢
    exact h

/-! ## The whole truncation -/

/-- The file was cut from `old` to `new` blocks: `log` are the blocks freed, in
    order. The words of the slots are looked at where they were before. -/
structure Cut (m m' : Mem) (f new old : Nat) (log : List Nat) : Prop where
  calls : log = held m f new (old - new) ++
    if new ≤ 10 ∧ fIndirect m f ≠ 0 then [fIndirect m f] else []
  once : log.Nodup
  bits : ∀ x < 32768 * nbitblocks m, bit m' x = (bit m x || decide (x ∈ log))
  direct : ∀ k < 10, load m' 4 (f + 136 + 4 * k) =
    if new ≤ k ∧ k < old then 0 else load m 4 (f + 136 + 4 * k)
  indirect : fIndirect m f ≠ 0 → ∀ k, 10 ≤ k → k < 1034 →
    load m' 4 (fIndirect m f * 4096 + 4 * (k - 10)) =
      if new ≤ k ∧ k < old then 0 else load m 4 (fIndirect m f * 4096 + 4 * (k - 10))
  field : fIndirect m' f = if new ≤ 10 then 0 else fIndirect m f

/-- After the loop, with the indirect block still there. -/
theorem Freed.words (h : Freed m f lo n s) :
    (∀ k < 10, load s.1 4 (f + 136 + 4 * k) =
      if lo ≤ k ∧ k < lo + n then 0 else load m 4 (f + 136 + 4 * k)) ∧
    (fIndirect m f ≠ 0 → ∀ k, 10 ≤ k → k < 1034 →
      load s.1 4 (fIndirect m f * 4096 + 4 * (k - 10)) =
        if lo ≤ k ∧ k < lo + n then 0 else load m 4 (fIndirect m f * 4096 + 4 * (k - 10))) := by
  have hslot : ∀ k < 1034, slot s.1 f k = if lo ≤ k ∧ k < lo + n then 0 else slot m f k := by
    intro k hk
    by_cases hin : lo ≤ k ∧ k < lo + n
    · rw [if_pos hin]
      exact h.trimmed.cleared k hk hin
    · rw [if_neg hin]
      exact h.trimmed.kept k hk hin
  refine ⟨fun k hk => ?_, fun hi k hlo hk => ?_⟩
  · rw [← slot_direct s.1 f hk, ← slot_direct m f hk]
    exact hslot k (by omega)
  · have hfar := slot_far hlo hk (by rwa [h.indirect])
    rw [h.indirect] at hfar
    rw [← hfar, ← slot_far hlo hk hi]
    exact hslot k hk

/-- A store into the structure of a file is not in the bitmap. -/
theorem bit_store_struct (home : Home m f) (m' : Mem) {a : Nat} (v : Nat) (hlo : f ≤ a)
    (hhi : a + 4 ≤ f + 256) (hx : x < 32768 * nbitblocks m) :
    bit (store m' 4 a v) x = bit m' x := by
  have hfits := home.fits
  have hoff := home.off
  unfold bit
  rw [load_store_off]
  unfold bitmapWord
  omega

/-- Nor is it in the indirect block. -/
theorem load_store_struct (ho : Owns m f) (hi : fIndirect m f ≠ 0) (m' : Mem) {a k : Nat} (v : Nat)
    (hlo : f ≤ a) (hhi : a + 4 ≤ f + 256) (hk : k < 1034) :
    load (store m' 4 a v) 4 (fIndirect m f * 4096 + 4 * (k - 10)) =
      load m' 4 (fIndirect m f * 4096 + 4 * (k - 10)) := by
  have hfits := ho.home.fits
  have hne := ho.indirect_ne hi
  refine load_store_off m' v ?_
  omega

/-- The blocks of the loop and the indirect block are all different. -/
theorem calls_nodup (ho : Owns m f) (hn : lo + n ≤ 1034) :
    (held m f lo n ++ [fIndirect m f]).Nodup := by
  refine (held_nodup ho hn).append (List.nodup_singleton _) ?_
  rw [List.disjoint_singleton]
  intro hmem
  rcases mem_held.1 hmem with ⟨h0, k, -, hhi, hk⟩
  exact ho.ne_indirect (by omega) (by rwa [hk]) hk

/-- The end of `file_truncate_blocks` for an indirect block that is not needed any
    more. -/
theorem Freed.last (ho : Owns m f) (h : Freed m f new (old - new) s) (hle : new ≤ old)
    (hold : old ≤ 1034) (hnew : new ≤ 10) (hi : fIndirect m f ≠ 0) :
    ∃ m', (freeBlockLogged s (fIndirect s.1 f)).map (fun s => (setIndirect s.1 f 0, s.2)) =
        some (m', s.2 ++ [fIndirect m f]) ∧ Cut m m' f new old (s.2 ++ [fIndirect m f]) := by
  have hvalid := ho.indirect_valid hi
  have hwords := h.words
  rw [show new + (old - new) = old by omega] at hwords
  -- the word of the bitmap is off the structure and the indirect block
  have hword : InBitmap m (bitmapWord (fIndirect m f)) ∧
      InBitmap m (bitmapWord (fIndirect m f) + 3) := by
    unfold InBitmap bitmapWord nbitblocks
    omega
  have hstruct : ∀ a, f ≤ a → a + 4 ≤ f + 256 →
      a + 4 ≤ bitmapWord (fIndirect m f) ∨ bitmapWord (fIndirect m f) + 4 ≤ a := by
    intro a hlo hhi
    have hfits := ho.home.fits
    have hoff := ho.home.off
    unfold InBitmap at hword
    unfold bitmapWord at hword ⊢
    omega
  have hblock : ∀ a, a / 4096 = fIndirect m f →
      a + 4 ≤ bitmapWord (fIndirect m f) ∨ bitmapWord (fIndirect m f) + 4 ≤ a := by
    intro a ha
    have hge := hvalid.1
    unfold InBitmap at hword
    omega
  have hfreed := freeBlock_eq s.1 (fIndirect m f) hi
  refine ⟨_, by rw [freeBlockLogged, h.indirect, hfreed, map_some, map_some], ?_⟩
  refine ⟨?_, ?_, ?_, ?_, ?_, ?_⟩
  · rw [if_pos ⟨hnew, hi⟩, h.calls]
  · rw [h.calls]
    exact calls_nodup ho (by omega)
  · intro x hx
    unfold setIndirect
    rw [bit_store_struct ho.home _ _ (by omega) (by omega) hx, bit_free, h.bits x hx]
    by_cases hxb : x = fIndirect m f
    · rw [if_pos hxb, decide_eq_true (List.mem_append_right _ (List.mem_singleton.2 hxb)),
        Bool.or_true]
    · have hmem : x ∈ s.2 ++ [fIndirect m f] ↔ x ∈ s.2 := by
        rw [List.mem_append, List.mem_singleton]
        exact or_iff_left hxb
      rw [if_neg hxb, decide_eq_decide.2 hmem]
  · intro k hk
    unfold setIndirect
    rw [load_store_off _ _ (by omega),
      load_store_off _ _ (hstruct _ (by omega) (by omega))]
    exact hwords.1 k hk
  · intro _ k hlo hk
    unfold setIndirect
    rw [load_store_struct ho hi _ _ (by omega) (by omega) hk,
      load_store_off _ _ (hblock _ (by omega))]
    exact hwords.2 hi k hlo hk
  · rw [if_pos hnew]
    unfold fIndirect setIndirect
    rw [load_store_at]
    rfl

/-- `file_truncate_blocks` cuts a file, which has slots for 1034 blocks at most. -/
theorem fileTruncateBlocks_cut (newsize : BitVec 32) (ho : Owns m f)
    (hle : sizeBlocks newsize ≤ min (sizeBlocks (fSize m f)) 1034) :
    ∃ m' log, fileTruncateBlocksLogged m f newsize = some (m', log) ∧
      Cut m m' f (sizeBlocks newsize) (min (sizeBlocks (fSize m f)) 1034) log := by
  rcases Lib.forUpto_total (fun i s => fileFreeBlockLogged s f (sizeBlocks newsize + i))
    (fun i => Freed m f (sizeBlocks newsize) (min i (1034 - sizeBlocks newsize)))
    (sizeBlocks (fSize m f) - sizeBlocks newsize) (fun i s hi h => h.round) (m, [])
    (by rw [Nat.zero_min]; exact Freed.start ho _) with ⟨s, hrun, h⟩
  rw [Nat.sub_min_sub_right] at h
  have hold := Nat.min_le_right (sizeBlocks (fSize m f)) 1034
  unfold fileTruncateBlocksLogged
  simp only [hrun, bind_some]
  generalize min (sizeBlocks (fSize m f)) 1034 = old at hle hold h ⊢
  by_cases hlast : sizeBlocks newsize ≤ 10 ∧ fIndirect s.1 f ≠ 0
  · rw [if_pos hlast]
    have hi : fIndirect m f ≠ 0 := by
      rw [← h.indirect]
      exact hlast.2
    rcases h.last ho hle hold hlast.1 hi with ⟨m', hm', hcut⟩
    exact ⟨m', _, hm', hcut⟩
  · rw [if_neg hlast]
    have hwords := h.words
    rw [Nat.add_sub_of_le hle] at hwords
    rw [h.indirect] at hlast
    refine ⟨s.1, s.2, rfl, ?_, ?_, h.bits, hwords.1, hwords.2, ?_⟩
    · rw [if_neg hlast, List.append_nil]
      exact h.calls
    · rw [h.calls]
      exact held_nodup ho (by omega)
    · rw [h.indirect]
      by_cases hnew : sizeBlocks newsize ≤ 10
      · rw [if_pos hnew]
        exact not_not.1 fun hi => hlast ⟨hnew, hi⟩
      · rw [if_neg hnew]

/-- The size is stored at the end, in front of the slots. -/
theorem Cut.setSize {log : List Nat} (ho : Owns m f) (h : Cut m m' f new old log)
    (size : BitVec 32) : Cut m (setSize m' f size) f new old log := by
  unfold Fs.setSize
  refine ⟨h.calls, h.once, ?_, ?_, ?_, ?_⟩
  · intro x hx
    rw [bit_store_struct ho.home _ _ (by omega) (by omega) hx, h.bits x hx]
  · intro k hk
    rw [load_store_off _ _ (by omega), h.direct k hk]
  · intro hi k hlo hk
    rw [load_store_struct ho hi _ _ (by omega) (by omega) hk, h.indirect hi k hlo hk]
  · rw [← h.field]
    exact load_store_off _ _ (by omega)

/-- Setting a smaller size frees the blocks in the slots between the two numbers
    of blocks, and the indirect block if the slots that are left are all direct. -/
theorem fileSetSize_cut (m : Mem) (f : Nat) (newsize : BitVec 32) (ho : Owns m f)
    (hmax : (fSize m f).toInt ≤ 4235264) (h0 : 0 ≤ newsize.toInt)
    (hlt : newsize.toInt < (fSize m f).toInt) :
    ∃ m' log, fileSetSizeLogged m f newsize = some (m', log) ∧
      fileSetSize m f newsize = some m' ∧ fSize m' f = newsize ∧
      Cut m m' f ((newsize.toNat + 4095) / 4096) (((fSize m f).toNat + 4095) / 4096) log := by
  have hnew := toNat_of_nonneg h0
  have hold : (fSize m f).toNat < 2 ^ 31 := toNat_of_nonneg (by omega)
  rw [BitVec.toInt_eq_toNat_of_lt (by omega)] at hmax hlt
  rw [BitVec.toInt_eq_toNat_of_lt (by omega)] at hlt
  have hblocks : sizeBlocks (fSize m f) = ((fSize m f).toNat + 4095) / 4096 :=
    sizeBlocks_eq (by omega)
  have hblocks' : sizeBlocks newsize = (newsize.toNat + 4095) / 4096 := sizeBlocks_eq (by omega)
  rcases fileTruncateBlocks_cut newsize ho (by omega) with ⟨m', log, hrun, hcut⟩
  rw [Nat.min_eq_left (by omega)] at hcut
  have hslt : newsize.slt (fSize m f) = true := (slt_iff hnew hold).2 (by omega)
  have hset : fileSetSizeLogged m f newsize = some (setSize m' f newsize, log) := by
    unfold fileSetSizeLogged
    rw [if_pos hslt, hrun, map_some]
  refine ⟨setSize m' f newsize, log, hset, ?_, fSize_setSize m' f newsize, ?_⟩
  · rw [← fileSetSizeLogged_erase, hset, map_some]
  · rw [← hblocks, ← hblocks']
    exact hcut.setSize ho newsize

/-- The root directory has got an indirect block and was made eleven blocks long. -/
theorem fileSetSize_cut_far : ∃ m m', Owns m sRoot ∧ fSize m sRoot = 45056 ∧
    fileSetSizeLogged m sRoot 0 = some (m', [3, 4]) ∧ fileSetSize m sRoot 0 = some m' ∧
      Cut m m' sRoot 0 11 [3, 4] := by
  have heval : (fileGetBlock oneFile sRoot 10).map (fun r =>
      (held (setSize r.2 sRoot 45056) sRoot 0 11, fIndirect (setSize r.2 sRoot 45056) sRoot)) =
      some ([3], 4) := by decide +kernel
  have hgrows : ∃ r m, fileGetBlock oneFile sRoot 10 = some (r, m) ∧ Owns m sRoot := by
    rcases (fileGetBlock_spec 10 oneFile_sane oneFile_root).ends with ⟨e, m, hres, -, hg, -⟩ |
      ⟨a, m, hres, -, hgot⟩
    · exact ⟨_, m, hres, hg.owns⟩
    · exact ⟨_, m, hres, hgot.grows.owns⟩
  rcases hgrows with ⟨r, m, hres, hm⟩
  rw [hres, map_some, some.injEq, Prod.mk.injEq] at heval
  have ho := (setSize_step hm 45056).1.owns
  have hsize := fSize_setSize m sRoot 45056
  rcases fileSetSize_cut _ sRoot 0 ho (by rw [hsize]; decide) (by decide) (by rw [hsize]; decide)
    with ⟨m', log, hlogged, hrun, -, hcut⟩
  rw [hsize, show ((0 : BitVec 32).toNat + 4095) / 4096 = 0 by decide,
    show ((45056 : BitVec 32).toNat + 4095) / 4096 = 11 by decide] at hcut
  have hlog : log = [3, 4] := by
    rw [hcut.calls, heval.1, heval.2]
    decide
  rw [hlog] at hlogged hcut
  exact ⟨_, m', ho, hsize, hlogged, hrun, hcut⟩

/-- A disk of 40 blocks on which a file of eleven blocks has the bitmap for its
    indirect block. Block 4 is free, which makes 16 the number in slot 10. -/
def bitmapFile : Mem :=
  let m := store (fun _ => 0) 4 4100 40
  let m := store m 4 8192 16
  let m := store m 4 (12288 + 128) 45056
  store m 4 (12288 + 176) 2

theorem bitmapFile_zero {a : Nat} (hlo : 8196 ≤ a) (hhi : a < 12416) : bitmapFile a = 0 := by
  unfold bitmapFile
  rw [store_off _ _ (by omega), store_off _ _ (by omega),
    store_off _ _ (by omega), store_off _ _ (by omega)]

/-- The two block numbers that the file holds. -/
theorem bitmapFile_slot (hk : k ≤ 1034) (hne : slot bitmapFile 12288 k ≠ 0) :
    (k = 10 ∧ slot bitmapFile 12288 k = 16) ∨ (k = 1034 ∧ slot bitmapFile 12288 k = 2) := by
  have hi : fIndirect bitmapFile 12288 = 2 := by decide
  by_cases hd : k < 10
  · have hall : ∀ k < 10, load bitmapFile 4 (12288 + 136 + 4 * k) = 0 := by decide
    rw [slot_direct _ _ hd] at hne
    exact absurd (hall k hd) hne
  · by_cases hlast : k = 1034
    · rw [hlast, slot_indirect, hi]
      exact .inr ⟨rfl, rfl⟩
    · rw [slot_far (by omega) (by omega) (by rw [hi]; decide), hi] at hne ⊢
      by_cases hten : k = 10
      · rw [hten]
        exact .inl ⟨rfl, by decide⟩
      · refine absurd (load_zero _ fun a hlo hhi => ?_) hne
        exact bitmapFile_zero (by omega) (by omega)

/-- The bitmap is in use, too. When it is the indirect block of a file, the slots
    are words of the bitmap: the block in slot 10 is marked free and the mark is
    erased with the slot, and so is the one of block 4. -/
theorem fileSetSize_bitmapFile :
    (∀ k ≤ 1034, slot bitmapFile 12288 k ≠ 0 → slot bitmapFile 12288 k < sNblocks bitmapFile ∧
      blockIsFree bitmapFile (slot bitmapFile 12288 k) = false) ∧
    (∀ k k', k ≤ 1034 → k' ≤ 1034 → slot bitmapFile 12288 k ≠ 0 →
      slot bitmapFile 12288 k = slot bitmapFile 12288 k' → k = k') ∧
    (fSize bitmapFile 12288).toInt = 45056 ∧ slot bitmapFile 12288 10 = 16 ∧
    ∃ m', fileSetSize bitmapFile 12288 40960 = some m' ∧ blockIsFree m' 16 = false ∧
      blockIsFree bitmapFile 4 = true ∧ blockIsFree m' 4 = false := by
  refine ⟨?_, ?_, by decide, by decide, ?_⟩
  · intro k hk hne
    rcases bitmapFile_slot hk hne with ⟨-, hk⟩ | ⟨-, hk⟩
    · rw [hk]
      decide
    · rw [hk]
      decide
  · intro k k' hk hk' hne he
    rcases bitmapFile_slot hk hne with ⟨hk, hv⟩ | ⟨hk, hv⟩ <;>
      rcases bitmapFile_slot hk' (by rwa [← he]) with ⟨hk', hv'⟩ | ⟨hk', hv'⟩ <;>
      omega
  · have hrun : (fileSetSize bitmapFile 12288 40960).map (fun m' =>
        (blockIsFree m' 16, blockIsFree m' 4)) = some (false, false) := by decide +kernel
    rcases Option.map_eq_some_iff.1 hrun with ⟨m', hm', hbits⟩
    rw [Prod.mk.injEq] at hbits
    exact ⟨m', hm', hbits.1, by decide, hbits.2⟩

end Jos.Fs
