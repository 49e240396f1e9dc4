import Jos.Core.Bc
import Jos.Lib.Flow
import Jos.Theory.Walk

/-!
# Coherence of the Block Cache

A block is written to the disk when it is flushed, and only if its entry says
that it was touched since the last time. What makes that safe is that a clean
page is a copy of its block: the handler copies the block in, a store sets
`PTE_D`, and a flush clears it after the page has been written out.

Every access that does not store leaves the bytes that the server reads as they
are, however deep its faults nest. The relation `Served` says so for one access
and is closed under sequencing. A session is the cache together with the bytes
that were stored last, which is what the whole is to look like from outside.

## Main definitions

* `Cache.Coherent`: Clean pages are copies.
* `Served`: What an access may change.
* `Accesses`: The facts about accesses that the handler relies on.
* `Session`, `Session.step`: The cache and the bytes stored last.
* `Session.Good`: What a state of the cache promises.

## Theorems

* `remap_of_pageInsert`: The entry after a flush.
* `bcPgfault_served`, `touch_accesses`: The handler and the accesses.
* `flushBlock_spec`: What a flush does.
* `syncFrom_spec`, `syncFrom_returns`: The loop of `fs_sync`.
* `session_good`: Every session keeps its promises.
-/

variable {c c' : Cache} {depth a n : Nat}

namespace Jos.Bc

open Fs (Mem sNblocks bitmapWord)
open Option (bind_eq_some_iff bind_some map_eq_some_iff map_some some.inj some.injEq)

namespace Cache

/-- The pages of blocks that are not dirty are copies of the blocks. -/
def Coherent (c : Cache) : Prop :=
  ∀ a, c.mapped (a / 4096) = true → c.dirty (a / 4096) = false → c.page a = c.disk a

/-! ## Entries -/

theorem or_and_flag {f g : Pte} (e : Pte) (h : f &&& g = 0#64) : (e ||| f) &&& g = e &&& g := by
  rw [BitVec.and_comm, BitVec.and_or_distrib_left, BitVec.and_comm g f, h, BitVec.or_zero,
    BitVec.and_comm]

variable {flags : Pte}

theorem mapped_mark (c : Cache) (b : Nat) (h : flags &&& pteP = 0) (x : Nat) :
    (c.mark b flags).mapped x = c.mapped x := by
  unfold mapped mark setPte
  dsimp only
  by_cases hx : x = b
  · rw [if_pos hx, or_and_flag _ h, hx]
  · rw [if_neg hx]

theorem view_mark (c : Cache) (b : Nat) (h : flags &&& pteP = 0) :
    (c.mark b flags).view = c.view := by
  funext a
  unfold view
  rw [c.mapped_mark b h]
  rfl

/-- Flags are only added, so what is clean afterwards was clean before. -/
theorem dirty_of_mark (c : Cache) (b : Nat) (flags : Pte) {x : Nat}
    (h : (c.mark b flags).dirty x = false) : c.dirty x = false := by
  unfold dirty mark setPte at h
  unfold dirty
  dsimp only at h
  by_cases hx : x = b
  · rw [if_pos hx, bne_eq_false_iff_eq, BitVec.and_comm, BitVec.and_or_distrib_left] at h
    rw [hx, bne_eq_false_iff_eq, BitVec.and_comm]
    exact (BitVec.or_eq_zero_iff.1 h).1
  · rwa [if_neg hx] at h

theorem mapped_readIn (c : Cache) (b x : Nat) :
    (c.readIn b).mapped x = if x = b then true else c.mapped x := by
  unfold mapped readIn setPte
  dsimp only
  by_cases hx : x = b
  · rw [if_pos hx, if_pos hx, or_and_flag _ (by decide),
      or_and_flag _ (by decide), BitVec.and_comm, BitVec.and_or_distrib_left]
    refine bne_iff_ne.2 fun hz => ?_
    exact absurd (BitVec.or_eq_zero_iff.1 hz).2 (by decide)
  · rw [if_neg hx, if_neg hx]

/-- The entry that `flush_block` leaves is present and clean. -/
theorem remap_flags (e : Pte) :
    (remap e flushPerm &&& pteP != 0) = true ∧ (remap e flushPerm &&& pteD != 0) = false := by
  have hperm : (flushPerm ||| 1).signExtend 64 = 0xE07 := by decide
  unfold remap pteAddr
  rw [hperm]
  constructor
  · rw [BitVec.and_comm, BitVec.and_or_distrib_left]
    refine bne_iff_ne.2 fun hz => ?_
    exact absurd (BitVec.or_eq_zero_iff.1 hz).2 (by decide)
  · rw [bne_eq_false_iff_eq, or_and_flag _ (by decide), BitVec.and_assoc,
      show (~~~0xFFF : Pte) &&& pteD = 0#64 from by decide, BitVec.and_zero]
    rfl

/-- `page_insert` of the page at `va` onto `va` leaves that entry. -/
theorem remap_of_pageInsert {m m' : Vm} {root va pt pp : Nat} {perm : BitVec 32} {r : Int}
    (hwalk : m.pml4eWalk root va true = some (some pt, m))
    (hpp : pteAddr (m.mem pt (ptx va)) = page2pa pp)
    (hrun : m.pageInsert root pp va perm = some (r, m')) :
    m'.mem pt (ptx va) = remap (m.mem pt (ptx va)) perm := by
  rcases m.pageInsert_cases hrun with ⟨o, m1, hfound, hres⟩
  rw [hwalk] at hfound
  cases hfound
  rcases hres.2 with ⟨-, rfl⟩ | ⟨hne, -⟩
  · rw [Vm.setEntry_mem, Lib.Radix.setSlot_self, Vm.insertedEntry, remap, hpp]
  · exact absurd hpp hne

end Cache

/-! ## Accesses -/

/-- Blocks may be read in and flags set; the disk and what is read stay. -/
structure Served (c c' : Cache) : Prop where
  disk : c'.disk = c.disk
  view : c'.view = c.view
  super : c'.super = c.super
  mapped : ∀ b, c.mapped b = true → c'.mapped b = true
  coherent : c.Coherent → c'.Coherent

variable {b : Nat}

namespace Served

theorem refl (c : Cache) : Served c c := ⟨rfl, rfl, rfl, fun _ h => h, fun h => h⟩

theorem trans {c1 c2 : Cache} (h1 : Served c c1) (h2 : Served c1 c2) : Served c c2 :=
  ⟨h2.disk.trans h1.disk, h2.view.trans h1.view, h2.super.trans h1.super,
    fun b hb => h2.mapped b (h1.mapped b hb), fun h => h2.coherent (h1.coherent h)⟩

theorem mark (c : Cache) (b : Nat) (flags : Pte) (h : flags &&& pteP = 0) :
    Served c (c.mark b flags) := by
  refine ⟨rfl, c.view_mark b h, rfl, ?_, ?_⟩
  · intro x hx
    rwa [c.mapped_mark b h]
  · intro hc a hmapped hclean
    rw [c.mapped_mark b h] at hmapped
    exact hc a hmapped (c.dirty_of_mark b flags hclean)

/-- A block that was not mapped is read in. -/
theorem readIn (h : c.mapped b = false) : Served c (c.readIn b) := by
  refine ⟨rfl, ?_, rfl, ?_, ?_⟩
  · funext a
    unfold Cache.view
    rw [c.mapped_readIn]
    by_cases ha : a / 4096 = b
    · rw [if_pos ha, if_pos rfl, ha, h]
      exact if_pos ha
    · rw [if_neg ha]
      by_cases hm : c.mapped (a / 4096) = true
      · rw [if_pos hm, if_pos hm]
        exact if_neg ha
      · rw [if_neg hm, if_neg hm]
        rfl
  · intro x hx
    rw [c.mapped_readIn, hx, ite_self]
  · intro hc a hmapped hclean
    by_cases ha : a / 4096 = b
    · exact if_pos ha
    · have hpage : (c.readIn b).page a = c.page a := if_neg ha
      rw [c.mapped_readIn, if_neg ha] at hmapped
      have hdirty : (c.readIn b).dirty (a / 4096) = c.dirty (a / 4096) := by
        unfold Cache.dirty Cache.readIn Cache.setPte
        dsimp only
        rw [if_neg ha]
      rw [hdirty] at hclean
      rw [hpage]
      exact hc a hmapped hclean

end Served

/-- The accesses that a handler makes: they serve, they have the block mapped
    afterwards, they only set a flag if it was mapped before, and with a super
    block that is not there they never come to an end. -/
structure Accesses (t : Cache → Nat → Option Cache) : Prop where
  served : ∀ c b c', t c b = some c' → Served c c' ∧ c'.mapped b = true
  hit : ∀ c b, c.mapped b = true → t c b = some (c.mark b pteA)
  stuck : ∀ c, c.super = true → c.mapped 1 = false → t c 1 = none

namespace Accesses

variable {t : Cache → Nat → Option Cache} {r : Bool}

/-- The test against the super block maps nothing. -/
theorem inDisk (ht : Accesses t) (h : inDisk t c b = some (r, c')) :
    Served c c' ∧ ∀ x, c'.mapped x = c.mapped x := by
  unfold Bc.inDisk at h
  by_cases hs : c.super = true
  · rw [if_pos hs] at h
    cases hone : c.mapped 1 with
    | false =>
      rw [ht.stuck c hs hone] at h
      cases h
    | true =>
      rw [ht.hit c 1 hone] at h
      simp only [map_some] at h
      cases h
      exact ⟨Served.mark c 1 pteA (by decide), c.mapped_mark 1 (by decide)⟩
  · rw [if_neg hs] at h
    cases h
    exact ⟨Served.refl c, fun _ => rfl⟩

theorem blockIsFree (ht : Accesses t) (h : blockIsFree t c b = some (r, c')) : Served c c' := by
  unfold Bc.blockIsFree at h
  by_cases hs : c.super = true
  · rw [if_pos hs] at h
    rcases bind_eq_some_iff.1 h with ⟨c1, hc1, h⟩
    have hserved := (ht.served c 1 c1 hc1).1
    by_cases hb : b < sNblocks c1.view
    · rw [if_pos hb] at h
      rcases map_eq_some_iff.1 h with ⟨c2, hc2, hr⟩
      rw [Prod.mk.injEq] at hr
      rw [← hr.2]
      exact hserved.trans (ht.served c1 _ c2 hc2).1
    · rw [if_neg hb] at h
      simp only [some.injEq, Prod.mk.injEq] at h
      rwa [← h.2]
  · rw [if_neg hs] at h
    cases h
    exact Served.refl c

end Accesses

/-- The handler reads the block in, between accesses of its own. -/
theorem bcPgfault_served {t : Cache → Nat → Option Cache} (ht : Accesses t)
    (hb : c.mapped b = false) (h : bcPgfault t c b = some c') :
    Served c c' ∧ c'.mapped b = true := by
  unfold bcPgfault at h
  rcases Option.ite_none_left_eq_some.1 h with ⟨hlarge, h⟩
  rcases bind_eq_some_iff.1 h with ⟨⟨r, c1⟩, hin, h⟩
  rcases ht.inDisk hin with ⟨hserved, hsame⟩
  -- The block is still not mapped when the page for it is allocated.
  have hread := hserved.trans (Served.readIn ((hsame b).trans hb))
  have hmapped : (c1.readIn b).mapped b = true := by rw [c1.mapped_readIn, if_pos rfl]
  cases r with
  | false => cases h
  | true =>
    dsimp only at h
    rw [if_pos rfl] at h
    by_cases hbm : (c1.readIn b).bitmap = true
    · rw [if_pos hbm] at h
      rcases bind_eq_some_iff.1 h with ⟨⟨free, c2⟩, hfree, h⟩
      cases free with
      | true => cases h
      | false =>
        simp only [Bool.false_eq_true, if_false] at h
        cases h
        have hcheck := ht.blockIsFree hfree
        exact ⟨hread.trans hcheck, hcheck.mapped b hmapped⟩
    · rw [if_neg hbm] at h
      cases h
      exact ⟨hread, hmapped⟩

/-- By induction on the depth: the accesses of a handler are one level deeper. -/
theorem touch_accesses (depth : Nat) : Accesses (touch depth) := by
  have hhit : ∀ {c b}, c.mapped b = true → Served c (c.mark b pteA) ∧
      (c.mark b pteA).mapped b = true := fun {c b} hb =>
    ⟨Served.mark c b pteA (by decide), by rwa [c.mapped_mark b (by decide)]⟩
  induction depth with
  | zero =>
    refine ⟨?_, ?_, ?_⟩
    · intro c b c' h
      rw [touch] at h
      rcases Option.ite_none_right_eq_some.1 h with ⟨hb, h⟩
      cases h
      exact hhit hb
    · intro c b hb
      rw [touch, if_pos hb]
    · intro c _ hone
      rw [touch, hone]
      rfl
  | succ depth ih =>
    refine ⟨?_, ?_, ?_⟩
    · intro c b c' h
      rw [touch] at h
      split at h
      · next hb =>
        cases h
        exact hhit hb
      · next hb =>
        rcases map_eq_some_iff.1 h with ⟨c1, hc1, rfl⟩
        rcases bcPgfault_served ih (Bool.not_eq_true _ ▸ hb) hc1 with ⟨hs, hm⟩
        exact ⟨hs.trans (hhit hm).1, (hhit hm).2⟩
    · intro c b hb
      rw [touch, if_pos hb]
    · -- The handler for the super block asks for the super block first.
      intro c hs hone
      have hsmall : ¬ diskBlocks ≤ 1 := by decide
      rw [touch, hone, bcPgfault, if_neg hsmall, inDisk, if_pos hs, ih.stuck c hs hone]
      rfl

/-! ## Flushing -/

/-- After a flush the block on the disk is what is read there, and nothing else
    changes on the disk. -/
theorem flushBlock_spec (h : flushBlock c a = some c') :
    (∀ x, x / 4096 ≠ a / 4096 → c'.disk x = c.disk x) ∧ c'.view = c.view ∧
      c'.super = c.super ∧ (∀ b, c'.mapped b = c.mapped b) ∧
      (c.Coherent → c'.Coherent ∧ ∀ x, x / 4096 = a / 4096 → c'.disk x = c.view x) := by
  unfold flushBlock at h
  dsimp only at h
  by_cases hlarge : diskBlocks * 4096 ≤ a
  · rw [if_pos hlarge] at h
    cases h
  rw [if_neg hlarge] at h
  by_cases hflush : (c.mapped (a / 4096) && (c.dirty (a / 4096) || c.accessed (a / 4096))) = true
  · rw [if_pos hflush, some.injEq] at h
    have hmapped := (Bool.and_eq_true_iff.1 hflush).1
    have hsame : ∀ b, c'.mapped b = c.mapped b := by
      intro b
      rw [← h]
      unfold Cache.mapped Cache.setPte Cache.writeOut
      dsimp only
      by_cases hb : b = a / 4096
      · rw [if_pos hb, (Cache.remap_flags _).1, hb]
        exact hmapped.symm
      · rw [if_neg hb]
    have hdisk : ∀ x, c'.disk x = if x / 4096 = a / 4096 then c.page x else c.disk x := by
      intro x
      rw [← h]
      rfl
    have hpage : c'.page = c.page := by
      rw [← h]
      rfl
    refine ⟨?_, ?_, ?_, hsame, ?_⟩
    · intro x hx
      rw [hdisk, if_neg hx]
    · funext x
      unfold Cache.view
      rw [hsame, hpage, hdisk]
      by_cases hx : x / 4096 = a / 4096
      · rw [hx, if_pos hmapped, if_pos hmapped]
      · rw [if_neg hx]
    · rw [← h]
      rfl
    · intro hc
      refine ⟨?_, ?_⟩
      · intro x hm hclean
        rw [hpage, hdisk]
        by_cases hx : x / 4096 = a / 4096
        · rw [if_pos hx]
        · rw [if_neg hx]
          rw [hsame] at hm
          refine hc x hm ?_
          rw [← h] at hclean
          unfold Cache.dirty Cache.setPte Cache.writeOut at hclean
          dsimp only at hclean
          rwa [if_neg hx] at hclean
      · intro x hx
        rw [hdisk, if_pos hx, Cache.view, hx, if_pos hmapped]
  · rw [if_neg hflush] at h
    cases h
    refine ⟨fun _ _ => rfl, rfl, rfl, fun _ => rfl, fun hc => ⟨hc, ?_⟩⟩
    intro x hx
    -- The block is not mapped, or it is mapped and clean.
    unfold Cache.view
    by_cases hm : c.mapped (x / 4096) = true
    · rw [if_pos hm]
      refine (hc x hm ?_).symm
      rw [hx] at hm ⊢
      rw [hm, Bool.true_and, Bool.or_eq_true, not_or] at hflush
      exact Bool.not_eq_true _ ▸ hflush.1
    · rw [if_neg hm]

/-! ## The loop of `fs_sync` -/

theorem diskaddr_served (h : diskaddr depth c b = some (a, c')) : Served c c' ∧ a = b * 4096 := by
  unfold diskaddr at h
  rcases Option.ite_none_left_eq_some.1 h with ⟨hb, h⟩
  rcases bind_eq_some_iff.1 h with ⟨⟨r, c1⟩, hin, h⟩
  cases r with
  | false => cases h
  | true =>
    simp only [if_true] at h
    cases h
    exact ⟨((touch_accesses depth).inDisk hin).1, rfl⟩

/-- The blocks from 1 to `i - 1` on the disk are what is read there. -/
def Synced (c : Cache) (i : Nat) : Prop :=
  ∀ x, 1 ≤ x / 4096 → x / 4096 < i → c.disk x = c.view x

theorem Synced.served {i : Nat} (h : Synced c i) (hs : Served c c') : Synced c' i := by
  intro x h1 h2
  rw [hs.disk, hs.view]
  exact h x h1 h2

/-- The loop adds one block after the other, and ends behind the last one. -/
theorem syncFrom_spec : ∀ (c : Cache) (i : Nat) (c' : Cache),
    syncFrom depth n c i = some c' → c.Coherent → Synced c i →
    c'.Coherent ∧ c'.view = c.view ∧ Synced c' (sNblocks c.view) := by
  induction n with
  | zero =>
    intro c i c' h
    exact absurd h (by simp [syncFrom])
  | succ n ih =>
    intro c i c' h hc hsynced
    rw [syncFrom] at h
    rcases bind_eq_some_iff.1 h with ⟨c1, hc1, h⟩
    have hs1 := ((touch_accesses depth).served c 1 c1 hc1).1
    by_cases hi : i < sNblocks c1.view
    · rw [if_pos hi] at h
      rcases bind_eq_some_iff.1 h with ⟨⟨a, c2⟩, hc2, h⟩
      rcases bind_eq_some_iff.1 h with ⟨c3, hc3, h⟩
      rcases diskaddr_served hc2 with ⟨hs2, ha⟩
      have hs := hs1.trans hs2
      rcases flushBlock_spec hc3 with ⟨hother, hview, -, -, hflush⟩
      rcases hflush (hs.coherent hc) with ⟨hc3', hblock⟩
      have hai : a / 4096 = i := by omega
      have hsynced3 : Synced c3 (i + 1) := by
        intro x h1 h2
        rw [hview]
        by_cases hx : x / 4096 = a / 4096
        · exact hblock x hx
        · rw [hother x hx]
          exact (hsynced.served hs) x h1 (by omega)
      rcases ih c3 (i + 1) c' h hc3' hsynced3 with ⟨h1, h2, h3⟩
      rw [hview, hs.view] at h2 h3
      exact ⟨h1, h2, h3⟩
    · rw [if_neg hi] at h
      cases h
      refine ⟨hs1.coherent hc, hs1.view, ?_⟩
      rw [hs1.view] at hi
      intro x h1 h2
      exact (hsynced.served hs1) x h1 (by omega)

theorem flushBlock_returns (c : Cache) (a : Nat) (h : a < diskBlocks * 4096) :
    ∃ c', flushBlock c a = some c' := by
  unfold flushBlock
  dsimp only
  rw [if_neg (Nat.not_le.2 h)]
  by_cases hflush : (c.mapped (a / 4096) && (c.dirty (a / 4096) || c.accessed (a / 4096))) = true
  · exact ⟨_, if_pos hflush⟩
  · exact ⟨_, if_neg hflush⟩

/-- With the super block in the cache and a disk that is not too large, the loop
    comes to its end. -/
theorem syncFrom_returns (depth n : Nat) : ∀ (c : Cache) (i : Nat), 0 < n → 1 ≤ i →
    sNblocks c.view < i + n → sNblocks c.view ≤ diskBlocks → c.super = true →
    c.mapped 1 = true → ∃ c', syncFrom depth n c i = some c' := by
  have hA : pteA &&& pteP = 0 := by decide
  induction n with
  | zero =>
    intro c i hn
    exact absurd hn (Nat.lt_irrefl 0)
  | succ n ih =>
    intro c i _ hi hlast hdisk hsuper hone
    rw [syncFrom, (touch_accesses depth).hit c 1 hone, bind_some]
    by_cases hround : i < sNblocks (c.mark 1 pteA).view
    · have hone1 : (c.mark 1 pteA).mapped 1 = true := by rwa [c.mapped_mark 1 hA]
      have hview2 : ((c.mark 1 pteA).mark 1 pteA).view = c.view := by
        rw [Cache.view_mark _ 1 hA, c.view_mark 1 hA]
      have haddr : diskaddr depth (c.mark 1 pteA) i =
          some (i * 4096, (c.mark 1 pteA).mark 1 pteA) := by
        rw [Cache.view_mark _ 1 hA] at hround
        rw [diskaddr, if_neg (by omega), inDisk, if_pos (show (c.mark 1 pteA).super = true from
          hsuper), (touch_accesses depth).hit _ 1 hone1, map_some, hview2,
          decide_eq_true hround]
        rfl
      rw [if_pos hround, haddr, bind_some]
      rw [Cache.view_mark _ 1 hA] at hround
      rcases flushBlock_returns ((c.mark 1 pteA).mark 1 pteA) (i * 4096) (by omega)
        with ⟨c3, hc3⟩
      rcases flushBlock_spec hc3 with ⟨-, hview3, hsuper3, hmapped3, -⟩
      rw [hc3, bind_some]
      rw [hview2] at hview3
      refine ih c3 (i + 1) (by omega) (by omega) (by rw [hview3]; omega) (by rwa [hview3])
        (hsuper3.trans hsuper) ?_
      rwa [hmapped3, Cache.mapped_mark _ 1 hA]
    · rw [if_neg hround]
      exact ⟨_, rfl⟩

/-! ## Sessions -/

/-- The cache, and the bytes that were stored last at each address (those of the
    disk at the start where nothing was stored). -/
structure Session where
  cache : Cache
  latest : Mem

/-- What the server does with the cache. `super` and `bitmap` set the pointers,
    as `fs_init` does. -/
inductive Op
  | load (a : Nat)
  | store (a : Nat) (v : BitVec 8)
  | flush (a : Nat)
  | sync
  | super
  | bitmap
  deriving DecidableEq

namespace Session

/-- An operation, with the depth of its faults and the number of rounds of
    `fs_sync`. -/
def step (s : Session) (ev : Op × Nat × Nat) : Option Session :=
  match ev.1 with
  | .load a => (Bc.load ev.2.1 s.cache a).map fun r => { s with cache := r.2 }
  | .store a v => (storeByte ev.2.1 s.cache a v).map fun c =>
    ⟨c, fun x => if x = a then v else s.latest x⟩
  | .flush a => (flushBlock s.cache a).map fun c => { s with cache := c }
  | .sync => (fsSync ev.2.1 ev.2.2 s.cache).map fun c => { s with cache := c }
  | .super => some { s with cache := { s.cache with super := true } }
  | .bitmap => some { s with cache := { s.cache with bitmap := true } }

/-- Clean pages are copies, and what is read is what was stored last. -/
def Ok (s : Session) : Prop := s.cache.Coherent ∧ s.cache.view = s.latest

variable {v : BitVec 8}

/-- A store changes what is read at its address. -/
theorem storeByte_spec (h : storeByte depth c a v = some c') (hc : c.Coherent) :
    c'.Coherent ∧ c'.view = fun x => if x = a then v else c.view x := by
  unfold storeByte at h
  rcases map_eq_some_iff.1 h with ⟨c1, hc1, h⟩
  rcases (touch_accesses depth).served c _ c1 hc1 with ⟨hs, hm⟩
  have hD : pteD &&& pteP = 0 := by decide
  have hmapped : ∀ b, c'.mapped b = c1.mapped b := by
    intro b
    rw [← h]
    exact c1.mapped_mark (a / 4096) hD b
  have hpage : ∀ x, c'.page x = if x = a then v else c1.page x := by
    intro x
    rw [← h]
  have hdisk : c'.disk = c1.disk := by
    rw [← h]
    rfl
  constructor
  · intro x hx hclean
    -- The block of the store is dirty now.
    have hne : x ≠ a := by
      intro hxa
      rw [← h, hxa] at hclean
      unfold Cache.dirty Cache.mark Cache.setPte at hclean
      dsimp only at hclean
      rw [if_pos rfl, bne_eq_false_iff_eq, BitVec.and_comm, BitVec.and_or_distrib_left] at hclean
      exact absurd (BitVec.or_eq_zero_iff.1 hclean).2 (by decide)
    rw [hpage, if_neg hne, hdisk]
    rw [hmapped] at hx
    refine hs.coherent hc x hx (c1.dirty_of_mark (a / 4096) pteD ?_)
    rwa [← h] at hclean
  · funext x
    rw [← hs.view]
    unfold Cache.view
    rw [hmapped, hpage, hdisk]
    by_cases hx : x = a
    · rw [if_pos hx, if_pos hx, hx, if_pos hm]
    · rw [if_neg hx, if_neg hx]

/-- A load finds what is read at its address. -/
theorem load_spec (h : Bc.load depth c a = some (v, c')) : Served c c' ∧ v = c.view a := by
  unfold Bc.load at h
  rcases map_eq_some_iff.1 h with ⟨c1, hc1, hr⟩
  rw [Prod.mk.injEq] at hr
  rcases (touch_accesses depth).served c _ c1 hc1 with ⟨hs, hm⟩
  rw [← hr.2]
  refine ⟨hs, ?_⟩
  rw [← hr.1, ← hs.view, Cache.view, if_pos hm]

theorem fsSync_spec (h : fsSync depth n c = some c') (hc : c.Coherent) :
    c'.Coherent ∧ c'.view = c.view ∧ Synced c' (sNblocks c.view) := by
  unfold fsSync at h
  rcases Option.ite_none_right_eq_some.1 h with ⟨hsuper, h⟩
  exact syncFrom_spec c 1 c' h hc fun x h1 h2 => absurd h1 (Nat.not_le.2 h2)

theorem Ok.step {s : Session} {ev : Op × Nat × Nat} {s' : Session} (hok : s.Ok)
    (h : s.step ev = some s') : s'.Ok := by
  rcases hok with ⟨hc, hview⟩
  rcases ev with ⟨op, depth, n⟩
  cases op with
  | load a =>
    rcases map_eq_some_iff.1 h with ⟨⟨v, c⟩, hload, rfl⟩
    rcases load_spec hload with ⟨hs, -⟩
    exact ⟨hs.coherent hc, hs.view.trans hview⟩
  | store a v =>
    rcases map_eq_some_iff.1 h with ⟨c, hstore, rfl⟩
    rcases storeByte_spec hstore hc with ⟨hc', hview'⟩
    exact ⟨hc', by rw [hview', hview]⟩
  | flush a =>
    rcases map_eq_some_iff.1 h with ⟨c, hflush, rfl⟩
    rcases flushBlock_spec hflush with ⟨-, hview', -, -, hc'⟩
    exact ⟨(hc' hc).1, hview'.trans hview⟩
  | sync =>
    rcases map_eq_some_iff.1 h with ⟨c, hsync, rfl⟩
    rcases fsSync_spec hsync hc with ⟨hc', hview', -⟩
    exact ⟨hc', hview'.trans hview⟩
  | super =>
    rw [← some.inj h]
    exact ⟨hc, hview⟩
  | bitmap =>
    rw [← some.inj h]
    exact ⟨hc, hview⟩

/-- What the cache promises: a mapped block that is not dirty equals its block on
    the disk, a load gives the byte stored last, a flush changes no other block of
    the disk, and after `fs_sync`, which returns, the cached blocks below
    `s_nblocks` on the disk hold the bytes stored last. -/
structure Good (s : Session) : Prop where
  clean : ∀ b, s.cache.mapped b = true → s.cache.dirty b = false →
    ∀ x, x / 4096 = b → s.cache.page x = s.cache.disk x
  load : ∀ depth a v c', Bc.load depth s.cache a = some (v, c') → v = s.latest a
  flush : ∀ a c', flushBlock s.cache a = some c' →
    ∀ x, x / 4096 ≠ a / 4096 → c'.disk x = s.cache.disk x
  sync : ∀ depth n c', fsSync depth n s.cache = some c' → ∀ b, 1 ≤ b →
    b < sNblocks s.latest → c'.mapped b = true → ∀ x, x / 4096 = b → c'.disk x = s.latest x
  returns : s.cache.super = true → s.cache.mapped 1 = true → sNblocks s.latest ≤ diskBlocks →
    ∃ depth n c', fsSync depth n s.cache = some c'

theorem Ok.good {s : Session} (hok : s.Ok) : s.Good := by
  rcases hok with ⟨hc, hview⟩
  refine ⟨?_, ?_, ?_, ?_, ?_⟩
  · intro b hm hclean x hx
    rw [← hx] at hm hclean
    exact hc x hm hclean
  · intro depth a v c' h
    rw [← hview]
    exact (load_spec h).2
  · intro a c' h
    exact (flushBlock_spec h).1
  · intro depth n c' h b hb hlt _ x hx
    rcases fsSync_spec h hc with ⟨-, hview', hsynced⟩
    rw [hview] at hview' hsynced
    rw [← hview']
    exact hsynced x (by omega) (by omega)
  · intro hsuper hone hdisk
    rw [← hview] at hdisk
    rcases syncFrom_returns 0 (sNblocks s.cache.view + 1) s.cache 1 (by omega) (by omega) (by omega)
      hdisk hsuper hone with ⟨c', hc'⟩
    exact ⟨0, sNblocks s.cache.view + 1, c', by rw [fsSync, if_pos hsuper, hc']⟩

end Session

/-- A server starts without any block in memory, and whatever it does with the
    cache, the promises are kept. -/
theorem session_good (c0 : Cache) (h0 : ∀ b, c0.mapped b = false) (s : Session)
    (hrun : Lib.Run Session.step (fun _ _ => True) ⟨c0, c0.disk⟩ s) : s.Good := by
  refine Session.Ok.good (hrun.invariant Session.Ok ?_ ⟨?_, ?_⟩)
  · intro s ev s' hok _ hstep
    exact hok.step hstep
  · intro a hm
    rw [h0] at hm
    cases hm
  · funext a
    rw [Cache.view, h0]
    rfl

/-- A disk of three blocks. -/
def threeBlocks : Cache :=
  ⟨fun a => if a = 4100 then 3 else 0, fun _ => 0, fun _ => 0, fun b => b + 1, false, false⟩

/-- The super block is read in and its pointer set, a byte of block 2 is stored
    and all is written back. -/
def storeAndSync : List (Op × Nat × Nat) :=
  [(.load 4100, 1, 0), (.super, 0, 0), (.store 8192 7, 1, 0), (.sync, 0, 4)]

theorem session_good_three :
    ((Lib.runEvents Session.step ⟨threeBlocks, threeBlocks.disk⟩ storeAndSync).get
      (by decide)).Good :=
  session_good threeBlocks (fun _ => show ((0 : Pte) &&& pteP != 0) = false by decide) _
    (Lib.Run.of_runEvents storeAndSync _ (Option.some_get _).symm)

end Jos.Bc
