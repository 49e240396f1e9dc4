import Jos.Theory.ReadBack
import Mathlib.Data.Finset.Card

/-!
# The Supply of Blocks

How many free blocks `file_get_block` takes, and when there are enough. A free block is
never lost: afterwards it is still free, or the file has it in a place that was empty. So
the free blocks that are gone are as many as the places that were filled, over any number
of calls, and a call that finds no block leaves none.

## Main definitions

* `supply`: The blocks that `alloc_block` can give.
* `Spent`: No free block is lost.
* `filled`: The places of a file that got a block.
* `Stocked`: A file that got further blocks.
* `Wanted`, `lacking`: The places that blocks of a file take, and those that are empty.
* `Enough`: There are free blocks for these.
* `Next`: The block that a file is going to get.

## Theorems

* `Stocked.card`: The blocks that are gone are in the places that were filled.
* `Stocked.enough`, `Stocked.short`: Whether there were enough blocks.
* `fileGetBlock_spent`, `fileGetBlock_stocked`: One call.
* `fileGetBlock_enough`: When a call finds its block.
-/

namespace Jos.Fs

open Lib.Bytes (load store load_lt store_off load_store_off load_store_at load_same)

variable {b k lo hi : Nat}

variable {m m' m'' : Mem} {f : Nat}

/-- The blocks that `alloc_block` can give. -/
def supply (m : Mem) : Finset Nat :=
  (Finset.range (sNblocks m)).filter fun b => 1 ≤ b ∧ blockIsFree m b = true

theorem mem_supply : b ∈ supply m ↔ 1 ≤ b ∧ blockIsFree m b = true := by
  unfold supply
  rw [Finset.mem_filter, Finset.mem_range]
  exact ⟨fun h => h.2, fun h => ⟨free_lt h.2, h⟩⟩

theorem supply_eq_empty : supply m = ∅ ↔ ∀ b, 1 ≤ b → blockIsFree m b = false := by
  rw [Finset.eq_empty_iff_forall_notMem]
  simp only [mem_supply, not_and, Bool.not_eq_true]

theorem supply_congr (h : ∀ b, blockIsFree m' b = blockIsFree m b) : supply m' = supply m := by
  ext b
  rw [mem_supply, mem_supply, h]

/-! ## No block is lost -/

/-- A free block is still free, or the file has it. -/
def Spent (m m' : Mem) (f : Nat) : Prop :=
  ∀ b, 1 ≤ b → blockIsFree m b = true → blockIsFree m' b = true ∨ Owned m' f b

theorem Spent.refl (m : Mem) (f : Nat) : Spent m m f := fun _ _ hb => .inl hb

theorem Spent.trans (h : Spent m m' f) (h' : Spent m' m'' f)
    (hkeep : ∀ k ≤ 1034, slot m' f k ≠ 0 → slot m'' f k = slot m' f k) : Spent m m'' f := by
  intro b h1 hb
  rcases h b h1 hb with hfree | ⟨h0, k, hk, hs⟩
  · exact h' b h1 hfree
  · exact .inr ⟨h0, k, hk, (hkeep k hk (by rwa [hs])).trans hs⟩

/-- The places that were empty and have a block now. -/
def filled (m m' : Mem) (f : Nat) : Finset Nat :=
  (Finset.range 1035).filter fun k => slot m f k = 0 ∧ slot m' f k ≠ 0

theorem mem_filled :
    k ∈ filled m m' f ↔ k ≤ 1034 ∧ slot m f k = 0 ∧ slot m' f k ≠ 0 := by
  unfold filled
  rw [Finset.mem_filter, Finset.mem_range, Nat.lt_succ_iff]

/-- A file got further blocks: it keeps those it had, the new ones were free, and no free
    block is lost. -/
structure Stocked (m m' : Mem) (f : Nat) : Prop where
  old : Owns m f
  new : Owns m' f
  pool : ∀ b, Pool m' f b → Pool m f b
  keep : ∀ k ≤ 1034, slot m f k ≠ 0 → slot m' f k = slot m f k
  fresh : ∀ k ≤ 1034, slot m f k = 0 → slot m' f k ≠ 0 → blockIsFree m (slot m' f k) = true
  spent : Spent m m' f

namespace Stocked

theorem of_same (hold : Owns m f) (hnew : Owns m' f) (hslot : ∀ k ≤ 1034, slot m' f k = slot m f k)
    (hfree : ∀ b, blockIsFree m' b = blockIsFree m b) : Stocked m m' f := by
  refine ⟨hold, hnew, ?_, fun k hk _ => hslot k hk, ?_, ?_⟩
  · intro b hb
    rcases hb with hb | ⟨h0, k, hk, hs⟩
    · exact .inl ((hfree b).symm.trans hb)
    · exact .inr ⟨h0, k, hk, (hslot k hk).symm.trans hs⟩
  · intro k hk h0 hne
    exact absurd ((hslot k hk).trans h0) hne
  · intro b _ hb
    exact .inl ((hfree b).trans hb)

theorem refl (ho : Owns m f) : Stocked m m f :=
  of_same ho ho (fun _ _ => rfl) (fun _ => rfl)

theorem of_grows (ho : Owns m f) (hg : Grows m m' f) (hspent : Spent m m' f) :
    Stocked m m' f :=
  ⟨ho, hg.owns, hg.fileStep.pool, hg.keep, hg.fresh, hspent⟩

variable (h : Stocked m m' f)
include h

/-- A block that is free was free before, as the blocks that the file had are in use. -/
theorem free (hb : blockIsFree m' b = true) :
    blockIsFree m b = true := by
  rcases h.pool b (.inl hb) with hf | ⟨h0, k, hk, hs⟩
  · exact hf
  · have hk' := h.keep k hk (by rwa [hs])
    have hused := (h.new.valid k hk (by rwa [hk', hs])).2.2.1
    rw [hk', hs, hb] at hused
    cases hused

theorem trans (h' : Stocked m' m'' f) : Stocked m m'' f := by
  refine ⟨h.old, h'.new, fun b hb => h.pool b (h'.pool b hb), ?_, ?_,
    h.spent.trans h'.spent h'.keep⟩
  · intro k hk hne
    have hs := h.keep k hk hne
    rw [h'.keep k hk (by rwa [hs]), hs]
  · intro k hk h0 hne
    by_cases hmid : slot m' f k = 0
    · exact h.free (h'.fresh k hk hmid hne)
    · rw [h'.keep k hk hmid]
      exact h.fresh k hk h0 hmid

/-- The blocks that are gone from the supply are those in the places that were filled. -/
theorem card :
    (supply m).card = (supply m').card + (filled m m' f).card := by
  have hsplit : supply m = supply m' ∪ (filled m m' f).image (slot m' f) := by
    ext b
    rw [Finset.mem_union, Finset.mem_image, mem_supply, mem_supply]
    refine ⟨fun hb => ?_, fun hb => ?_⟩
    · rcases h.spent b hb.1 hb.2 with hfree | ⟨h0, k, hk, hs⟩
      · exact .inl ⟨hb.1, hfree⟩
      · -- a place that had the block before would have one in use
        refine .inr ⟨k, mem_filled.2 ⟨hk, ?_, by rwa [hs]⟩, hs⟩
        by_contra hne
        have hused := (h.old.valid k hk hne).2.2.1
        rw [← h.keep k hk hne, hs, hb.2] at hused
        cases hused
    · rcases hb with hfree | ⟨k, hk, hs⟩
      · exact ⟨hfree.1, h.free hfree.2⟩
      · rcases mem_filled.1 hk with ⟨hle, h0, hne⟩
        rw [← hs]
        exact ⟨Nat.one_le_iff_ne_zero.2 hne, h.fresh k hle h0 hne⟩
  have hdisj : Disjoint (supply m') ((filled m m' f).image (slot m' f)) := by
    rw [Finset.disjoint_left]
    intro b hb hin
    rcases Finset.mem_image.1 hin with ⟨k, hk, hs⟩
    rcases mem_filled.1 hk with ⟨hle, -, hne⟩
    have hused := (h.new.valid k hle hne).2.2.1
    rw [hs, (mem_supply.1 hb).2] at hused
    cases hused
  have hinj : Set.InjOn (slot m' f) (filled m m' f : Set Nat) := by
    intro k hk k' hk' heq
    rcases mem_filled.1 (Finset.mem_coe.1 hk) with ⟨hle, -, hne⟩
    exact h.new.inj k k' hle (mem_filled.1 (Finset.mem_coe.1 hk')).1 hne heq
  rw [hsplit, Finset.card_union_of_disjoint hdisj, Finset.card_image_of_injOn hinj]

end Stocked

/-- Places that are filled on the way. -/
theorem filled_split (m' : Mem) (hk : k ∈ filled m m'' f) :
    k ∈ filled m m' f ∨ k ∈ filled m' m'' f := by
  rcases mem_filled.1 hk with ⟨hle, h0, hne⟩
  by_cases hmid : slot m' f k = 0
  · exact .inr (mem_filled.2 ⟨hle, hmid, hne⟩)
  · exact .inl (mem_filled.2 ⟨hle, h0, hmid⟩)

/-! ## The blocks that are wanted -/

/-- Place `k` takes a block when the blocks `lo` to `hi` of a file are wanted: those from
    `NDIRECT` on need the indirect block. -/
def Wanted (lo hi k : Nat) : Prop := (lo ≤ k ∧ k ≤ hi ∧ k < 1034) ∨ (k = 1034 ∧ 10 ≤ hi)

instance (lo hi k : Nat) : Decidable (Wanted lo hi k) := inferInstanceAs (Decidable (_ ∨ _))

/-- The places among these that are empty. -/
def lacking (m : Mem) (f lo hi : Nat) : Finset Nat :=
  (Finset.range 1035).filter fun k => Wanted lo hi k ∧ slot m f k = 0

theorem mem_lacking :
    k ∈ lacking m f lo hi ↔ k ≤ 1034 ∧ Wanted lo hi k ∧ slot m f k = 0 := by
  unfold lacking
  rw [Finset.mem_filter, Finset.mem_range, Nat.lt_succ_iff]

/-- A file can have the blocks `lo` to `hi`, and there are enough free blocks for them. -/
def Enough (m : Mem) (f lo hi : Nat) : Prop :=
  hi < 1034 ∧ (lacking m f lo hi).card ≤ (supply m).card

theorem enough_congr (hslot : ∀ k ≤ 1034, slot m' f k = slot m f k)
    (hfree : ∀ b, blockIsFree m' b = blockIsFree m b) :
    Enough m' f lo hi ↔ Enough m f lo hi := by
  have hlack : lacking m' f lo hi = lacking m f lo hi := by
    ext k
    rw [mem_lacking, mem_lacking]
    refine and_congr_right fun hk => ?_
    rw [hslot k hk]
  unfold Enough
  rw [hlack, supply_congr hfree]

/-- If all the places have a block now, there were enough. -/
theorem Stocked.enough (h : Stocked m m' f) (hall : ∀ k ≤ 1034, Wanted lo hi k → slot m' f k ≠ 0) :
    (lacking m f lo hi).card ≤ (supply m).card := by
  rw [h.card]
  refine le_trans (Finset.card_le_card fun k hk => ?_) (Nat.le_add_left _ _)
  rcases mem_lacking.1 hk with ⟨hle, hw, h0⟩
  exact mem_filled.2 ⟨hle, h0, hall k hle hw⟩

/-- If none is free any more and a place is still empty, there were not. -/
theorem Stocked.short (h : Stocked m m' f) (hempty : supply m' = ∅)
    (honly : ∀ j ∈ filled m m' f, Wanted lo hi j) (hk : k ≤ 1034) (hw : Wanted lo hi k)
    (h0 : slot m' f k = 0) : (supply m).card < (lacking m f lo hi).card := by
  rw [h.card, hempty, Finset.card_empty, Nat.zero_add]
  have hbefore : slot m f k = 0 := by
    by_contra hne
    exact hne ((h.keep k hk hne).symm.trans h0)
  refine Finset.card_lt_card (Finset.ssubset_iff_of_subset ?_ |>.2 ⟨k, ?_, ?_⟩)
  · intro j hj
    rcases mem_filled.1 hj with ⟨hle, hj0, -⟩
    exact mem_lacking.2 ⟨hle, honly j hj, hj0⟩
  · exact mem_lacking.2 ⟨hk, hw, hbefore⟩
  · intro hin
    exact (mem_filled.1 hin).2.2 h0

/-! ## One call -/

theorem Served.spent (h : Served m m' f k) (hk : k ≤ 1034) : Spent m m' f := by
  rcases h with ⟨-, hm⟩ | ⟨-, hd⟩
  · rw [hm]
    exact Spent.refl m f
  · intro x hpos hx
    by_cases hxb : x = slot m' f k
    · exact .inr ⟨Nat.one_le_iff_ne_zero.1 hpos, k, hk, hxb.symm⟩
    · rw [hd.free x, if_neg hxb]
      exact .inl hx

/-- The block that `file_get_block` is going to give as block `k` of a file: the one that is
    there, or the first free one, or the first one besides if that becomes the indirect
    block. -/
def Next (m : Mem) (f k b : Nat) : Prop :=
  if slot m f k ≠ 0 then b = slot m f k
  else if 10 ≤ k ∧ fIndirect m f = 0 then
    ∃ i, First m i ∧ b ≠ i ∧ 1 ≤ b ∧ blockIsFree m b = true ∧
      ∀ x, 1 ≤ x → x < b → x ≠ i → blockIsFree m x = false
  else First m b

/-- `file_get_block` loses no block, and gives the one that is next. Only the blocks from
    `NDIRECT` on need the indirect block, and without a block for a place that there is, the
    supply has run out. -/
theorem fileGetBlock_spent (k : Nat) (hs : Sane m) (ho : Owns m f) :
    (fileGetBlock m f k).Sat
      (fun _ m' => Spent m m' f ∧ (k < 10 → fIndirect m' f = fIndirect m f) ∧
        Next m f k (slot m' f k))
      (fun _ m' => Spent m m' f ∧ (k < 10 → fIndirect m' f = fIndirect m f) ∧
        (k < 1034 → supply m' = ∅)) False := by
  unfold fileGetBlock
  refine ((fileBlockWalk_spec k hs ho).mono (fun _ _ h => h) ?_ id).andThen ?_
  · rintro e m1 ⟨-, hsame, -, hempty⟩
    rw [hsame]
    exact ⟨Spent.refl m f, fun _ => rfl, fun hk => supply_eq_empty.2 (hempty hk).2⟩
  rintro a m1 ⟨hk, ha, hi, hg, hslots, hind⟩
  have hspent : Spent m m1 f := by
    rcases hind with ⟨-, hm⟩ | ⟨-, hserved⟩
    · rw [hm]
      exact Spent.refl m f
    · exact hserved.spent le_rfl
  have hnear : k < 10 → fIndirect m1 f = fIndirect m f := by
    intro hd
    rcases hind with ⟨-, hm⟩ | ⟨hfar, -⟩
    · rw [hm]
    · omega
  rw [ha]
  refine ((needBlock_spec (hg.sane hs) hg.owns hk hi).mono (fun _ _ h => h) ?_
    id).andThen ?_
  · rintro e m2 ⟨-, hsame, -, hempty⟩
    rw [hsame]
    exact ⟨hspent, hnear, fun _ => supply_eq_empty.2 hempty⟩
  rintro - m2 ⟨hg2, hload, hne, hothers, hserved⟩
  have hind2 : fIndirect m2 f = fIndirect m1 f := hothers 1034 le_rfl (by omega)
  have hv := hg2.owns.valid k (by omega) hne
  simp only [hload, diskaddr_some hne hv.2.1, Option.map_some]
  refine ⟨hspent.trans (hserved.spent hk.le) hg2.keep,
    fun hd => hind2.trans (hnear hd), ?_⟩
  unfold Next
  rw [← hslots k hk]
  rcases hserved with ⟨hold, hm⟩ | ⟨h0, hdrawn⟩
  · rw [if_pos hold, hm]
  rw [if_neg (not_not.2 h0)]
  -- the block was the first free one after that for the indirect block
  split
  · next hc =>
    rcases hind with ⟨hd, -⟩ | ⟨-, ⟨hne', -⟩ | ⟨-, hfirst⟩⟩
    · omega
    · exact absurd hc.2 hne'
    have hfree := hdrawn.first.free
    rw [hfirst.free] at hfree
    split at hfree
    · cases hfree
    next hbi =>
    refine ⟨slot m1 f 1034, hfirst.first, hbi, hdrawn.first.pos, hfree, ?_⟩
    intro x hpos hx hxi
    have hleast := hdrawn.first.least x hpos hx
    rwa [hfirst.free, if_neg hxi] at hleast
  · next hc =>
    have hsame : m1 = m := by
      rcases hind with ⟨-, hm⟩ | ⟨hfar, ⟨-, hm⟩ | ⟨hz, -⟩⟩
      · exact hm
      · exact hm
      · exact absurd ⟨hfar, hz⟩ hc
    have hfirst := hdrawn.first
    rwa [hsame] at hfirst

/-- What a call of `file_get_block` for block `k` does to the supply. -/
theorem fileGetBlock_stocked (k : Nat) (hs : Sane m) (ho : Owns m f) :
    (fileGetBlock m f k).Sat
      (fun a m' => a = slot m' f k * 4096 ∧ GotBlock m m' f k ∧ Stocked m m' f ∧
        ∀ j ∈ filled m m' f, Wanted k k j)
      (fun e m' => (e = eInval ∨ e = eNoDisk) ∧ Grows m m' f ∧ Stocked m m' f ∧
        (∀ j ∈ filled m m' f, Wanted k k j) ∧
        (k < 1034 → slot m' f k = 0 ∧ supply m' = ∅)) False := by
  -- the place of the indirect block is filled only for a block that needs it
  have hfar : ∀ m', (k < 10 → fIndirect m' f = fIndirect m f) → 1034 ∈ filled m m' f →
      Wanted k k 1034 := by
    intro m' hind hin
    refine .inr ⟨rfl, ?_⟩
    by_contra hlt
    have hplace := mem_filled.1 hin
    exact hplace.2.2 ((hind (by omega)).trans hplace.2.1)
  refine ((fileGetBlock_spec k hs ho).and (fileGetBlock_spent k hs ho)).mono ?_ ?_ id
  · rintro a m' ⟨⟨ha, hgot⟩, hspent, hind, -⟩
    refine ⟨ha, hgot, Stocked.of_grows ho hgot.grows hspent, fun j hj => ?_⟩
    rcases mem_filled.1 hj with ⟨hle, h0, hne⟩
    by_cases hlast : j = 1034
    · rw [hlast] at hj ⊢
      exact hfar m' hind hj
    · by_cases hjk : j = k
      · rw [hjk]
        exact .inl ⟨le_rfl, le_rfl, hgot.lt⟩
      · exact absurd ((hgot.others j (by omega) hjk).trans h0) hne
  · rintro e m' ⟨⟨he, hg, hsame, h0, -⟩, hspent, hind, hempty⟩
    refine ⟨he, hg, Stocked.of_grows ho hg hspent, fun j hj => ?_, fun hk => ⟨?_, hempty hk⟩⟩
    · rcases mem_filled.1 hj with ⟨hle, hj0, hne⟩
      by_cases hlast : j = 1034
      · rw [hlast] at hj ⊢
        exact hfar m' hind hj
      · exact absurd ((hsame j (by omega)).trans hj0) hne
    · rw [hsame k hk]
      exact h0 hk

/-- The indirect block is there if a block behind it is. -/
theorem slot_indirect_ne (hlo : 10 ≤ k) (hk : k < 1034) (hne : slot m f k ≠ 0) :
    slot m f 1034 ≠ 0 := by
  intro hz
  exact hne (slot_none hlo hk.le hz)

/-- `file_get_block` finds its block exactly if there are enough free ones. -/
theorem fileGetBlock_enough (k : Nat) (hs : Sane m) (ho : Owns m f) :
    (fileGetBlock m f k).Sat (fun _ _ => Enough m f k k) (fun _ _ => ¬Enough m f k k) False := by
  refine (fileGetBlock_stocked k hs ho).mono ?_ ?_ id
  · rintro a m' ⟨-, hgot, hst, -⟩
    refine ⟨hgot.lt, hst.enough fun j hj hw => ?_⟩
    rcases hw with ⟨hlo, hhi, -⟩ | ⟨hj', hfar⟩
    · rw [show j = k by omega]
      exact hgot.here
    · rw [hj']
      exact slot_indirect_ne hfar hgot.lt hgot.here
  · rintro e m' ⟨-, -, hst, honly, hout⟩ ⟨hk, hle⟩
    rcases hout hk with ⟨h0, hempty⟩
    have hlt := hst.short hempty honly hk.le
      (.inl ⟨le_rfl, le_rfl, hk⟩) h0
    omega

/-- The first block of an empty file. -/
theorem fileGetBlock_enough_first : Sane oneFile ∧ (fileGetBlock oneFile 12288 0).Sat
    (fun _ _ => Enough oneFile 12288 0 0) (fun _ _ => ¬Enough oneFile 12288 0 0) False :=
  ⟨oneFile_sane, fileGetBlock_enough 0 oneFile_sane oneFile_entry.1⟩

end Jos.Fs
