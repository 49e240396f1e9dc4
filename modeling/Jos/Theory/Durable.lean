import Jos.Theory.Bc
import Jos.Theory.Bitmap

/-!
# Allocation Through the Block Cache

`alloc_block` with the accesses it makes: the super block and the bitmap are read
through the cache, the word with the bit is stored there, and one block of the
bitmap is flushed. What it does to the bitmap in memory is what the plain model
says. What it does to the disk is another matter: it always flushes block 2,
which is the first block of the bitmap, wherever the bit is.

## Main definitions

* `Ready`: A cache that shows a given disk, with the blocks of the bitmap within
  reach.
* `Right`, `Durable`: An allocation that is right in memory and on the disk.

## Theorems

* `Ready.touch`, `Ready.blockIsFree`: Accesses to the bitmap return.
* `allocFrom_spec`: The loop finds the first free block.
* `takeBlock_spec`, `takeBlock_two`: What happens to the block found.
* `allocBlock_durable_iff`: When an allocation is right.
-/

namespace Jos.Bc

open Lib.Bytes (load_same load_store_off store store_off)
open Option (bind_some map_some)
open Fs (Mem sNblocks bitmapWord First nbitblocks bit takenWord)

variable {c' c : Cache} {b : Nat} {t : Cache → Nat → Option Cache} {m : Mem}

/-- The cache shows the disk `m`, the super block is there, and each block of the
    bitmap is either there as well or can be read in. -/
structure Ready (c : Cache) (m : Mem) : Prop where
  super : c.super = true
  one : c.mapped 1 = true
  coherent : c.Coherent
  view : c.view = m
  small : sNblocks m ≤ diskBlocks
  bits : ∀ k, 2 ≤ k → k < 2 + nbitblocks m →
    c.mapped k = true ∨ k < sNblocks m ∧ Fs.blockIsFree m k = false

namespace Ready

variable {c : Cache} {m : Mem} {k : Nat}

theorem served (h : Ready c m) (hs : Served c c') : Ready c' m :=
  ⟨hs.super.trans h.super, hs.mapped 1 h.one, hs.coherent h.coherent, hs.view.trans h.view,
    h.small, fun k h1 h2 => (h.bits k h1 h2).imp_left (hs.mapped k)⟩

/-- There are at most 24 blocks of bits, so the bits for them are in the first. -/
theorem bitblock_lt (h : Ready c m) (hk : k < 2 + nbitblocks m) : k < 32768 := by
  have hsmall := h.small
  unfold nbitblocks at hk
  simp only [diskBlocks] at hsmall
  omega

theorem wordBlock (b : Nat) : bitmapWord b / 4096 = 2 + b / 32768 := by
  unfold bitmapWord
  omega

/-- The word of a block that exists is inside the bitmap. -/
theorem wordBlock_lt (hb : b < sNblocks m) :
    2 ≤ bitmapWord b / 4096 ∧ bitmapWord b / 4096 < 2 + nbitblocks m := by
  rw [wordBlock]
  unfold nbitblocks
  omega

section

variable (h : Ready c m)

include h

/-- The super block is there, so that accesses to it only set a flag. -/
theorem touchOne (ht : Accesses t) :
    ∃ c', t c 1 = some c' ∧ Served c c' :=
  ⟨_, ht.hit c 1 h.one, Served.mark c 1 pteA (by decide)⟩

/-- The bit of a block, if its word can be reached. -/
theorem blockIsFreeBy (ht : Accesses t)
    (hword : b < sNblocks m → ∀ c', Served c c' → ∃ c'', t c' (bitmapWord b / 4096) = some c'') :
    ∃ c', Bc.blockIsFree t c b = some (Fs.blockIsFree m b, c') ∧ Served c c' := by
  rcases h.touchOne ht with ⟨c1, hc1, hs1⟩
  have hview := (h.served hs1).view
  unfold Bc.blockIsFree Fs.blockIsFree
  rw [if_pos h.super, hc1, bind_some, hview]
  by_cases hb : b < sNblocks m
  · rcases hword hb c1 hs1 with ⟨c2, hc2⟩
    have hs2 := (ht.served c1 _ c2 hc2).1
    refine ⟨c2, ?_, hs1.trans hs2⟩
    rw [if_pos hb, hc2, map_some, hs2.view, hview, decide_eq_true hb, Bool.true_and]
  · refine ⟨c1, ?_, hs1⟩
    rw [if_neg hb, decide_eq_false hb, Bool.false_and]

/-- The handler returns for a block that exists and is in use. -/
theorem bcPgfault (ht : Accesses t) (hk : k < sNblocks m)
    (hfree : Fs.blockIsFree m k = false) (hnot : c.mapped k = false)
    (hword : ∀ c', Served c c' → c'.mapped k = true →
      ∃ c'', t c' (bitmapWord k / 4096) = some c'') : ∃ c', Bc.bcPgfault t c k = some c' := by
  have hsmall : ¬ diskBlocks ≤ k := by
    have := h.small
    omega
  have hin : inDisk t c k = some (true, c.mark 1 pteA) := by
    unfold inDisk
    rw [if_pos h.super, ht.hit c 1 h.one, map_some, c.view_mark 1 (by decide), h.view,
      decide_eq_true hk]
  -- the block is read in, and then its bit is looked at
  have hmark := Served.mark c 1 pteA (by decide)
  have hread := hmark.trans (Served.readIn
    ((c.mapped_mark 1 (by decide) k).trans hnot))
  have hthere : ((c.mark 1 pteA).readIn k).mapped k = true := by
    rw [Cache.mapped_readIn, if_pos rfl]
  rcases (h.served hread).blockIsFreeBy ht (fun _ c' hs =>
    hword c' (hread.trans hs) (hs.mapped k hthere)) with ⟨c2, hc2, -⟩
  unfold Bc.bcPgfault
  rw [if_neg hsmall, hin, bind_some]
  dsimp only
  rw [if_pos rfl]
  by_cases hbm : ((c.mark 1 pteA).readIn k).bitmap = true
  · rw [if_pos hbm, hc2, bind_some, hfree]
    exact ⟨c2, rfl⟩
  · rw [if_neg hbm]
    exact ⟨_, rfl⟩

/-- One fault is enough for the first block of the bitmap. -/
theorem touchTwo (depth : Nat) (h0 : 0 < sNblocks m) :
    ∃ c', Bc.touch (depth + 1) c 2 = some c' := by
  rw [Bc.touch]
  by_cases hm : c.mapped 2 = true
  · exact ⟨_, if_pos hm⟩
  · rw [if_neg hm]
    rcases h.bits 2 (by omega) (by unfold nbitblocks; omega) with hm' | ⟨hk, hfree⟩
    · exact absurd hm' hm
    · -- its bit is in the block itself, which has just been read in
      rcases h.bcPgfault (touch_accesses depth) hk hfree (Bool.eq_false_iff.2 hm)
        (fun c' _ hm' => ⟨_, (touch_accesses depth).hit c' 2 hm'⟩) with ⟨c', hc'⟩
      exact ⟨_, by rw [hc', map_some]⟩

/-- Two nested faults are enough for the others. -/
theorem touch {k : Nat} (depth : Nat) (hk : 2 ≤ k) (hk' : k < 2 + nbitblocks m) :
    ∃ c', Bc.touch (depth + 2) c k = some c' := by
  rw [Bc.touch]
  by_cases hm : c.mapped k = true
  · exact ⟨_, if_pos hm⟩
  · rw [if_neg hm]
    rcases h.bits k hk hk' with hm' | ⟨hlt, hfree⟩
    · exact absurd hm' hm
    · have htwo : bitmapWord k / 4096 = 2 := by
        have := h.bitblock_lt hk'
        rw [wordBlock]
        omega
      rcases h.bcPgfault (touch_accesses (depth + 1)) hlt hfree (Bool.eq_false_iff.2 hm)
        (fun c' hs _ => by
          rw [htwo]
          exact (h.served hs).touchTwo depth (by omega)) with ⟨c', hc'⟩
      exact ⟨_, by rw [hc', map_some]⟩

theorem blockIsFree (depth b : Nat) :
    ∃ c', Bc.blockIsFree (Bc.touch (depth + 2)) c b = some (Fs.blockIsFree m b, c') ∧
      Served c c' := by
  refine h.blockIsFreeBy (touch_accesses _) fun hb c' hs => ?_
  rcases wordBlock_lt hb with ⟨h1, h2⟩
  exact (h.served hs).touch depth h1 h2

theorem diskaddrTwo (depth : Nat) (htwo : 2 < sNblocks m) :
    ∃ c', diskaddr depth c 2 = some (8192, c') ∧ Served c c' := by
  refine ⟨c.mark 1 pteA, ?_, Served.mark c 1 pteA (by decide)⟩
  rw [diskaddr, if_neg (by omega), inDisk, if_pos h.super, (touch_accesses depth).hit c 1 h.one,
    map_some, c.view_mark 1 (by decide), h.view, decide_eq_true htwo]
  rfl

theorem diskaddrTwo_none (depth : Nat) (htwo : ¬2 < sNblocks m) :
    diskaddr depth c 2 = none := by
  rw [diskaddr, if_neg (by omega), inDisk, if_pos h.super, (touch_accesses depth).hit c 1 h.one,
    map_some, c.view_mark 1 (by decide), h.view, decide_eq_false htwo]
  rfl

end

end Ready

/-! ## The block found -/

/-- A store of a word into a block of the bitmap changes what is read, and not the
    disk. -/
theorem storeWord_spec (h : Ready c m) {a : Nat} (depth v : Nat) (hlo : 2 ≤ a / 4096)
    (hhi : a / 4096 < 2 + nbitblocks m) (hin : (a + 3) / 4096 = a / 4096) :
    ∃ c', storeWord (depth + 2) c a v = some c' ∧ c'.view = store m 4 a v ∧
      c'.disk = c.disk ∧ c'.super = true ∧ c'.Coherent ∧
      ∀ b, c.mapped b = true → c'.mapped b = true := by
  rcases h.touch depth hlo hhi with ⟨c1, hc1⟩
  rcases (touch_accesses (depth + 2)).served c _ c1 hc1 with ⟨hs, hm⟩
  have hready := h.served hs
  have hmark : pteD &&& pteP = 0 := by decide
  refine ⟨{ c1.mark (a / 4096) pteD with page := store c1.page 4 a v },
    by rw [storeWord, hc1, map_some], ?_, hs.disk, hready.super, ?_, ?_⟩
  · funext x
    rw [← hready.view]
    have hmapped := c1.mapped_mark (a / 4096) hmark (x / 4096)
    unfold Cache.mapped at hmapped hm
    unfold Cache.view Cache.mapped
    dsimp only
    rw [hmapped]
    by_cases hx : (c1.vpt (x / 4096) &&& pteP != 0) = true
    · rw [if_pos hx]
      exact Lib.Bytes.store_congr 4 _ _ a v x (if_pos hx).symm
    · -- the word is in a block that is mapped
      have hne : x / 4096 ≠ a / 4096 := fun he => hx (by rwa [he])
      rw [if_neg hx, store_off _ v (by omega), if_neg hx]
      rfl
  · intro x hmapped hclean
    have hclean' : (c1.mark (a / 4096) pteD).dirty (x / 4096) = false := hclean
    have hmapped' : (c1.mark (a / 4096) pteD).mapped (x / 4096) = true := hmapped
    rw [c1.mapped_mark _ hmark] at hmapped'
    -- a clean block is not the one stored into
    have hne : x / 4096 ≠ a / 4096 := by
      intro he
      rw [he] at hclean'
      unfold Cache.dirty Cache.mark Cache.setPte at hclean'
      dsimp only at hclean'
      rw [if_pos rfl, bne_eq_false_iff_eq, BitVec.and_comm, BitVec.and_or_distrib_left] at hclean'
      exact absurd (BitVec.or_eq_zero_iff.1 hclean').2 (by decide)
    refine (store_off _ v (by omega)).trans ?_
    exact hready.coherent x hmapped' (c1.dirty_of_mark _ pteD hclean')
  · intro b hb
    have := c1.mapped_mark (a / 4096) hmark b
    exact this.trans (hs.mapped b hb)

/-- The cache after the bit of a free block was cleared in memory. -/
theorem clearBit_spec (h : Ready c m) (hfree : Fs.blockIsFree m b = true) (depth : Nat) :
    ∃ c1 c2, Bc.touch (depth + 2) c (bitmapWord b / 4096) = some c1 ∧ c1.view = m ∧
      storeWord (depth + 2) c1 (bitmapWord b) (takenWord m b) = some c2 ∧ c2.disk = c.disk ∧
      Ready c2 (store m 4 (bitmapWord b) (takenWord m b)) := by
  rcases Ready.wordBlock_lt (Fs.free_lt hfree) with ⟨hlo, hhi⟩
  rcases h.touch depth hlo hhi with ⟨c1, hc1⟩
  have hs := ((touch_accesses (depth + 2)).served c _ c1 hc1).1
  have hready := h.served hs
  rcases storeWord_spec hready depth (takenWord m b) hlo hhi
    (by unfold bitmapWord; omega) with ⟨c2, hc2, hview, hdisk, hsuper, hcoh, hmapped⟩
  have hmarked := Fs.marked_take hfree
  refine ⟨c1, c2, hc1, hready.view, hc2, hdisk.trans hs.disk,
    ⟨hsuper, hmapped 1 hready.one, hcoh, hview, hmarked.nblocks.trans_le h.small, ?_⟩⟩
  intro k hk hk'
  rw [Fs.nbitblocks_congr hmarked.nblocks] at hk'
  refine (hready.bits k hk hk').imp (hmapped k) fun hin => ?_
  rw [hmarked.nblocks, hmarked.free]
  exact ⟨hin.1, by rw [hin.2, ite_self]⟩

/-- Block 2 is flushed, whichever block was taken. -/
theorem takeBlock_spec (h : Ready c m) (hfree : Fs.blockIsFree m b = true) (htwo : 2 < sNblocks m)
    (depth : Nat) :
    ∃ c', takeBlock (depth + 2) c b = some (.ok b, c') ∧
      c'.view = store m 4 (bitmapWord b) (takenWord m b) ∧
      ∀ a, c'.disk a = if a / 4096 = 2 then c'.view a else c.disk a := by
  rcases clearBit_spec h hfree depth with ⟨c1, c2, hc1, hview1, hc2, hdisk2, hready2⟩
  have hmarked := Fs.marked_take hfree
  rcases hready2.diskaddrTwo (depth + 2) (hmarked.nblocks.symm ▸ htwo) with ⟨c3, hc3, hs3⟩
  rcases flushBlock_returns c3 8192 (by decide) with ⟨c4, hc4⟩
  rcases flushBlock_spec hc4 with ⟨hother, hview4, hsuper4, hmapped4, hflush⟩
  have hready3 := hready2.served hs3
  rcases hflush hready3.coherent with ⟨hcoh4, hblock⟩
  have hready4 : Ready c4 (store m 4 (bitmapWord b) (takenWord m b)) :=
    ⟨hsuper4.trans hready3.super, (hmapped4 1).trans hready3.one, hcoh4,
      hview4.trans hready3.view, hready3.small,
      fun k h1 h2 => (hready3.bits k h1 h2).imp_left (hmapped4 k).trans⟩
  rcases hready4.blockIsFree depth b with ⟨c5, hc5, hs5⟩
  rw [hmarked.free, if_pos rfl] at hc5
  refine ⟨c5, ?_, hs5.view.trans hready4.view, ?_⟩
  · unfold takeBlock
    dsimp only
    rw [hc1, bind_some, hview1]
    unfold takenWord at hc2
    rw [hc2, bind_some, hc3, bind_some]
    dsimp only
    rw [hc4, bind_some, hc5, bind_some]
    rfl
  · intro a
    rw [hs5.disk, hs5.view]
    by_cases ha : a / 4096 = 2
    · rw [if_pos ha, hblock a ha, hview4]
    · rw [if_neg ha, hother a ha, hs3.disk, hdisk2]

/-- With two blocks in all, there is no block 2 to flush. -/
theorem takeBlock_two (h : Ready c m) (hfree : Fs.blockIsFree m b = true) (htwo : ¬2 < sNblocks m)
    (depth : Nat) : takeBlock (depth + 2) c b = none := by
  rcases clearBit_spec h hfree depth with ⟨c1, c2, hc1, hview1, hc2, -, hready2⟩
  have hmarked := Fs.marked_take hfree
  unfold takeBlock
  dsimp only
  rw [hc1, bind_some, hview1]
  unfold takenWord at hc2
  rw [hc2, bind_some,
    hready2.diskaddrTwo_none (depth + 2) (hmarked.nblocks.symm ▸ htwo)]
  rfl

/-! ## The loop -/

/-- The loop passes over the blocks in use and stops at the first free one. -/
theorem allocFrom_spec (depth n : Nat) : ∀ (c : Cache) (b : Nat), Ready c m → 1 ≤ b →
    (∀ x, 1 ≤ x → x < b → Fs.blockIsFree m x = false) → sNblocks m < b + n → 0 < n →
    (∃ c', allocFrom (depth + 2) n c b = some (.error Fs.eNoDisk, c') ∧ Served c c' ∧
      ∀ x, 1 ≤ x → Fs.blockIsFree m x = false) ∨
    ∃ x c', First m x ∧ Served c c' ∧
      allocFrom (depth + 2) n c b = takeBlock (depth + 2) c' x := by
  induction n with
  | zero =>
    intro c b _ _ _ _ hn
    exact absurd hn (Nat.lt_irrefl 0)
  | succ n ih =>
    intro c b h hb hbefore hlast _
    rcases h.touchOne (touch_accesses (depth + 2)) with ⟨c1, hc1, hs1⟩
    have hready1 := h.served hs1
    rw [allocFrom, hc1, bind_some, hready1.view]
    by_cases hround : b < sNblocks m
    · rcases hready1.blockIsFree depth b with ⟨c2, hc2, hs2⟩
      rw [if_pos hround, hc2, bind_some]
      have hs := hs1.trans hs2
      dsimp only
      cases hfree : Fs.blockIsFree m b with
      | true =>
        rw [if_pos rfl]
        exact .inr ⟨b, c2, ⟨hb, hfree, hbefore⟩, hs, rfl⟩
      | false =>
        rw [if_neg Bool.false_ne_true]
        have hbefore' : ∀ x, 1 ≤ x → x < b + 1 → Fs.blockIsFree m x = false := by
          intro x hx hlt
          by_cases hxb : x = b
          · rw [hxb, hfree]
          · exact hbefore x hx (by omega)
        rcases ih c2 (b + 1) (h.served hs) (by omega) hbefore' (by omega) (by omega) with
          ⟨c', hc', hs', hnone⟩ | ⟨x, c', hx, hs', hc'⟩
        · exact .inl ⟨c', hc', hs.trans hs', hnone⟩
        · exact .inr ⟨x, c', hx, hs.trans hs', hc'⟩
    · rw [if_neg hround]
      refine .inl ⟨c1, rfl, hs1, fun x hx => ?_⟩
      -- a free block would have been met before the end
      by_contra hfree
      rw [Bool.not_eq_false] at hfree
      have hlt := Fs.free_lt hfree
      rw [hbefore x hx (by omega)] at hfree
      cases hfree

/-! ## Durability -/

/-- An allocation that is right, in memory and on the disk. -/
structure Right (m : Mem) (c c' : Cache) (r : Except Int Nat) : Prop where
  first : ∀ b, r = .ok b → First m b
  bytes : ∀ b, r = .ok b → ∀ a, a < bitmapWord b ∨ bitmapWord b + 4 ≤ a → c'.view a = m a
  bits : ∀ b, r = .ok b → ∀ x, bit c'.view x = if x = b then false else bit m x
  flushed : ∀ b, r = .ok b → ∀ a, a / 4096 = bitmapWord b / 4096 → c'.disk a = c'.view a
  onDisk : ∀ b, r = .ok b → bit c'.disk b = false
  full : ∀ e, r = .error e → e = Fs.eNoDisk ∧ c'.view = m ∧ c'.disk = c.disk ∧
    ∀ b, 1 ≤ b → Fs.blockIsFree m b = false

/-- Every allocation on this disk returns and is right. Faults that nest twice and
    one round for each block are enough. -/
def Durable (m : Mem) : Prop :=
  ∀ c, Ready c m → ∀ depth n, 2 ≤ depth → 0 < n → sNblocks m ≤ n →
    ∃ r c', allocBlock depth n c = some (r, c') ∧ Right m c c' r

/-- The first free block, if there is one, has its bit in the first block of the
    bitmap, and that block exists. -/
def InFirstBitblock (m : Mem) : Prop := ∀ b, First m b → b < 32768 ∧ 2 < sNblocks m

/-- The whole of the disk in the cache, and clean. -/
def resident (m : Mem) : Cache :=
  { disk := m, page := m, vpt := fun _ => pteP, frame := fun _ => 0, super := true,
    bitmap := true }

theorem resident_mapped (m : Mem) (b : Nat) : (resident m).mapped b = true :=
  show (pteP &&& pteP != 0) = true by decide

theorem resident_ready (hm : sNblocks m ≤ diskBlocks) : Ready (resident m) m := by
  refine ⟨rfl, resident_mapped m 1, fun _ _ _ => rfl, ?_, hm,
    fun k _ _ => .inl (resident_mapped m k)⟩
  funext a
  exact ite_self _

theorem right_of_take (hfirst : First m b) (hb : b < 32768)
    (hview : c'.view = store m 4 (bitmapWord b) (takenWord m b))
    (hdisk : ∀ a, c'.disk a = if a / 4096 = 2 then c'.view a else c.disk a) :
    Right m c c' (.ok b) := by
  have hbits : ∀ x, bit c'.view x = if x = b then false else bit m x := by
    intro x
    rw [hview]
    exact Fs.bit_store (Fs.takenWord_lt m b)
      (Fs.takenWord_testBit (Fs.bit_of_free hfirst.free)) x
  have hflushed : ∀ a, a / 4096 = bitmapWord b / 4096 → c'.disk a = c'.view a := by
    intro a ha
    rw [Ready.wordBlock] at ha
    rw [hdisk, if_pos (by omega)]
  refine ⟨?_, ?_, ?_, ?_, ?_, ?_⟩
  · rintro x ⟨⟩
    exact hfirst
  · rintro x ⟨⟩ a ha
    rw [hview]
    exact store_off m _ ha
  · rintro x ⟨⟩
    exact hbits
  · rintro x ⟨⟩
    exact hflushed
  · rintro x ⟨⟩
    -- the word of the bit is in the block that was flushed
    have hword : Lib.Bytes.load c'.disk 4 (bitmapWord b) =
        Lib.Bytes.load c'.view 4 (bitmapWord b) := by
      refine load_same _ fun a hlo hhi => hflushed a ?_
      unfold bitmapWord at hlo hhi ⊢
      omega
    have hbit := hbits b
    rw [if_pos rfl] at hbit
    unfold bit at hbit ⊢
    rw [hword, hbit]
  · intro e he
    cases he

theorem durable_of_inFirst (h : InFirstBitblock m) : Durable m := by
  intro c hready depth n hdepth hn hlast
  obtain ⟨depth, rfl⟩ : ∃ d, depth = d + 2 := ⟨depth - 2, by omega⟩
  unfold allocBlock
  rw [if_pos hready.super]
  rcases allocFrom_spec depth n c 1 hready le_rfl (fun x h1 h2 => by omega)
    (by omega) hn with ⟨c', hc', hs, hnone⟩ | ⟨b, c1, hfirst, hs, hc1⟩
  · refine ⟨_, c', hc', ?_⟩
    refine ⟨fun b hb => absurd hb (by simp), fun b hb => absurd hb (by simp),
      fun b hb => absurd hb (by simp), fun b hb => absurd hb (by simp),
      fun b hb => absurd hb (by simp), ?_⟩
    rintro e ⟨⟩
    exact ⟨rfl, hs.view.trans hready.view, hs.disk, hnone⟩
  · rcases h b hfirst with ⟨hb, htwo⟩
    rcases takeBlock_spec (hready.served hs) hfirst.free htwo depth with ⟨c', hc', hview, hdisk⟩
    rw [hs.disk] at hdisk
    exact ⟨_, c', hc1.trans hc', right_of_take hfirst hb hview hdisk⟩

/-- On a disk that is in the cache as a whole, a bit behind the first block of the
    bitmap stays set on the disk. -/
theorem inFirst_of_durable (hm : sNblocks m ≤ diskBlocks) (h : Durable m) : InFirstBitblock m := by
  intro b hfirst
  have hready := resident_ready hm
  have hlt := Fs.free_lt hfirst.free
  rcases h (resident m) hready 2 (sNblocks m) le_rfl (by omega) le_rfl with
    ⟨r, c', hrun, hright⟩
  unfold allocBlock at hrun
  rw [if_pos hready.super] at hrun
  rcases allocFrom_spec 0 (sNblocks m) (resident m) 1 hready le_rfl
    (fun x h1 h2 => by omega) (by omega) (by omega) with ⟨-, -, -, hnone⟩ | ⟨x, c1, hx, hs, hc1⟩
  · exact absurd hfirst.free (hnone b hfirst.pos ▸ Bool.false_ne_true)
  rw [hx.unique hfirst] at hc1
  rw [hc1] at hrun
  by_cases htwo : 2 < sNblocks m
  · refine ⟨?_, htwo⟩
    rcases takeBlock_spec (hready.served hs) hfirst.free htwo 0 with ⟨c2, hc2, -, hdisk⟩
    rw [hc2, Option.some.injEq, Prod.mk.injEq] at hrun
    rcases hrun with ⟨rfl, rfl⟩
    by_contra hge
    -- the word on the disk is still the one with the bit set
    have hword : Lib.Bytes.load c2.disk 4 (bitmapWord b) = Lib.Bytes.load m 4 (bitmapWord b) := by
      refine load_same _ fun a hlo hhi => ?_
      have hne : a / 4096 ≠ 2 := by
        unfold bitmapWord at hlo hhi
        omega
      rw [hdisk, if_neg hne, hs.disk]
      rfl
    have hclear := hright.onDisk b rfl
    have hset := Fs.bit_of_free hfirst.free
    unfold bit at hclear hset
    rw [hword, hset] at hclear
    cases hclear
  · rw [takeBlock_two (hready.served hs) hfirst.free htwo 0] at hrun
    cases hrun

/-- A disk of 40000 blocks with one of them free. -/
def oneFree (b : Nat) : Mem :=
  store (store (fun _ => 0) 4 4100 40000) 4 (bitmapWord b) (1 <<< (b % 32))

theorem oneFree_nblocks (b : Nat) : sNblocks (oneFree b) = 40000 := by
  unfold oneFree sNblocks
  rw [load_store_off, Lib.Bytes.load_store_at]
  · rfl
  · unfold bitmapWord
    omega

theorem oneFree_bit (b x : Nat) : bit (oneFree b) x = decide (x = b) := by
  have hzero : ∀ a, 4104 ≤ a →
      Lib.Bytes.load (store (fun _ => (0 : BitVec 8)) 4 4100 40000) 4 a = 0 := by
    intro a ha
    rw [load_store_off _ 40000 (by omega)]
    exact Lib.Bytes.load_zero a fun _ _ _ => rfl
  unfold oneFree
  rw [Fs.bit_store (Fs.shiftLeft_lt b)]
  · unfold bit
    rw [hzero _ (by unfold bitmapWord; omega), Nat.zero_testBit]
    by_cases hx : x = b
    · rw [if_pos hx, decide_eq_true hx]
    · rw [if_neg hx, decide_eq_false hx]
  · intro i
    rw [hzero _ (by unfold bitmapWord; omega), Nat.zero_testBit, Fs.testBit_one_shiftLeft]
    by_cases hi : i = b % 32
    · rw [if_pos hi, decide_eq_true hi]
    · rw [if_neg hi, decide_eq_false hi]

theorem oneFree_free (b x : Nat) :
    Fs.blockIsFree (oneFree b) x = (decide (x < 40000) && decide (x = b)) := by
  have hbit := oneFree_bit b x
  unfold bit at hbit
  unfold Fs.blockIsFree
  rw [oneFree_nblocks, hbit]

theorem oneFree_first (hpos : 1 ≤ b) (hb : b < 40000) : First (oneFree b) b := by
  refine ⟨hpos, ?_, ?_⟩
  · rw [oneFree_free, decide_eq_true hb, decide_eq_true rfl]
    rfl
  · intro x _ hx
    rw [oneFree_free, decide_eq_false (Nat.ne_of_lt hx), Bool.and_false]

/-- An allocation is right on every cache for a disk exactly if the first free
    block of the disk has its bit in block 2. -/
theorem allocBlock_durable_iff (m : Mem) (hm : sNblocks m ≤ diskBlocks) :
    Durable m ↔ InFirstBitblock m :=
  ⟨inFirst_of_durable hm, durable_of_inFirst⟩

theorem allocBlock_durable_iff_oneFree :
    sNblocks (oneFree 700) ≤ diskBlocks ∧ (Durable (oneFree 700) ↔ InFirstBitblock (oneFree 700)) ∧
      InFirstBitblock (oneFree 700) := by
  have hm : sNblocks (oneFree 700) ≤ diskBlocks := by
    rw [oneFree_nblocks]
    decide
  refine ⟨hm, allocBlock_durable_iff (oneFree 700) hm, fun b hb => ?_⟩
  rw [hb.unique (oneFree_first (b := 700) (by omega) (by omega)), oneFree_nblocks]
  omega

/-- Block 32768 is the first one with its bit in block 3. -/
theorem allocBlock_not_durable :
    sNblocks (oneFree 32768) ≤ diskBlocks ∧ First (oneFree 32768) 32768 ∧
      ¬Durable (oneFree 32768) := by
  have hm : sNblocks (oneFree 32768) ≤ diskBlocks := by
    rw [oneFree_nblocks]
    decide
  have hfirst := oneFree_first (b := 32768) (by omega) (by omega)
  refine ⟨hm, hfirst, fun h => ?_⟩
  have := (inFirst_of_durable hm h 32768 hfirst).1
  omega

end Jos.Bc
