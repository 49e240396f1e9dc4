import Jos.Core.Malloc
import Jos.Lib.Flow
import Jos.Theory.Isolation

/-!
# The Heap

Which pages of the heap are there follows from the blocks: a page that is marked as
continued is filled by one block, and every other page stays as long as its count is not
zero. The count has one for each block that ends in the page, so it is zero only when no
block needs the page any more, as long as it does not overflow. A block of no bytes is
counted and takes no room, so that there may be as many as the count has values.

## Main definitions

* `size`, `first`, `last`: The room that a block takes.
* `BlockOk`: A block on its pages.
* `Inv`: The blocks, the place that is filled and the counts.
* `Safe`: What a program can rely on.

## Theorems

* `Inv.drop`: A count goes down.
* `Inv.free`: A block is freed.
* `Inv.place`: A block in the page that is being filled.
* `Inv.fresh`: A block on pages of its own.
* `heap_safe`: All programs with fewer than `2 ^ 32` blocks.
* `heap_unsafe`: A program with `2 ^ 32` blocks.
-/

namespace Jos.Malloc

open Heap (freeLoop pagesFor roundup search)
open Option (map_eq_some_iff map_some some.injEq)
open Lib Lib.Bytes
open Function (update update_self update_of_ne)

variable {mem : Nat → BitVec 8} {mptr v p a k n fuel : Nat} {live : List (Nat × Nat)}
  {s s' : Session} {h h' h1 : Heap} {b c : Nat × Nat} {vpt : Nat → Pte} {alloc : Nat → Option Nat}

/-- An address of the heap is not the null pointer. -/
theorem ne_zero_of_lo (h : mbegin ≤ v) : v ≠ 0 := by
  simp only [mbegin] at h
  omega

/-! ## Entries -/

/-- The page with this number is mapped. -/
def Present (vpt : Nat → Pte) (v : Nat) : Prop := hasFlags (vpt v) pteP = true

/-- The block on this page goes on on the next. -/
def Continued (vpt : Nat → Pte) (v : Nat) : Prop := (vpt v &&& pteContinued != 0) = true

theorem continued_iff (vpt : Nat → Pte) (v : Nat) :
    Continued vpt v ↔ (vpt v).getLsbD 10 = true := by
  unfold Continued
  rw [show pteContinued = BitVec.twoPow 64 10 from rfl, and_twoPow_bne _ (by omega)]

theorem not_present_zero (h : vpt v = 0) : ¬Present vpt v := by
  unfold Present
  rw [h]
  decide

/-- The flags of a page that was allocated. -/
theorem alloc_flags (vpt : Nat → Pte) {v : Nat} (pp : Nat) (perm : BitVec 32)
    (h : vpt v = page2pa pp ||| (perm ||| 1).signExtend 64) :
    Present vpt v ∧ (Continued vpt v ↔ perm.getLsbD 10 = true) := by
  have hentry : vpt v = Vm.insertedEntry pp perm := h
  refine ⟨?_, ?_⟩
  · unfold Present
    rw [hasFlags, hentry, Vm.insertedEntry, or_present _ (Vm.flags_present perm)]
    exact beq_self_eq_true _
  · rw [continued_iff, hentry, Mem.insertedEntry_bit pp perm 10 (by omega), BitVec.getLsbD_or]
    have h1 : (1 : BitVec 32).getLsbD 10 = false := by decide
    rw [h1, Bool.or_false]

/-! ## Blocks -/

/-- The room for the bytes of a block. -/
def size (b : Nat × Nat) : Nat := roundup b.2

/-- The first page of a block, and the one with its count. -/
def first (b : Nat × Nat) : Nat := b.1 / pgSize

def last (b : Nat × Nat) : Nat := (b.1 + size b + 3) / pgSize

/-- A block is on pages of the heap, all but the last marked, and starts at a page if it
    takes more than one. -/
structure BlockOk (vpt : Nat → Pte) (b : Nat × Nat) : Prop where
  lo : mbegin ≤ b.1
  hi : last b < mend / pgSize
  aligned : b.1 % 4 = 0
  start : first b < last b → b.1 % pgSize = 0
  present : ∀ v, first b ≤ v → v ≤ last b → Present vpt v
  continued : ∀ v, first b ≤ v → v < last b → Continued vpt v
  ends : ¬Continued vpt (last b)

/-- Two blocks have no byte in common. -/
def Apart (b c : Nat × Nat) : Prop := b.1 + size b ≤ c.1 ∨ c.1 + size c ≤ b.1

theorem Apart.symm (h : Apart b c) : Apart c b := Or.symm h

theorem size_mod (b : Nat × Nat) : size b % 4 = 0 := by
  unfold size roundup
  omega

theorem le_size (b : Nat × Nat) : b.2 ≤ size b := by
  unfold size roundup
  omega

theorem first_le_last (b : Nat × Nat) : first b ≤ last b := by
  unfold first last
  exact Nat.div_le_div_right (by omega)

namespace BlockOk

variable {vpt : Nat → Pte} {b c : Nat × Nat}

/-- Nobody else is on a page that is marked. -/
theorem alone (hb : BlockOk vpt b) (hc : BlockOk vpt c) (hapart : Apart b c) (hbv : first b ≤ v)
    (hvb : v < last b) (hcv : first c ≤ v) (hvc : v ≤ last c) : False := by
  -- the page is not the last one of the other block
  have hlt : v < last c := by
    rcases Nat.lt_or_eq_of_le hvc with hlt | heq
    · exact hlt
    · exact absurd (heq ▸ hb.continued v hbv hvb) hc.ends
  have hbs := hb.start (by omega)
  have hcs := hc.start (by omega)
  have hbm := size_mod b
  have hcm := size_mod c
  unfold Apart at hapart
  unfold first last at *
  simp only [pgSize] at *
  omega

/-- The pages of a block are the same afterwards. -/
theorem congr {vpt' : Nat → Pte} (h : BlockOk vpt b)
    (hsame : ∀ v, first b ≤ v → v ≤ last b → vpt' v = vpt v) : BlockOk vpt' b := by
  have hlast := hsame (last b) (first_le_last b) le_rfl
  refine ⟨h.lo, h.hi, h.aligned, h.start, ?_, ?_, ?_⟩
  · intro v hlo hhi
    rw [Present, hsame v hlo hhi]
    exact h.present v hlo hhi
  · intro v hlo hhi
    rw [Continued, hsame v hlo (by omega)]
    exact h.continued v hlo hhi
  · rw [Continued, hlast]
    exact h.ends

end BlockOk

/-! ## The invariant -/

/-- The count of a page. -/
def refOf (mem : Nat → BitVec 8) (v : Nat) : Nat := load mem 4 (v * pgSize + (pgSize - 4))

/-- The page is being filled. -/
def Open (mptr v : Nat) : Prop := mptr % pgSize ≠ 0 ∧ mptr / pgSize = v

/-- The blocks that are counted in a page. -/
def attached (live : List (Nat × Nat)) (v : Nat) : Nat := live.countP fun b => last b = v

/-- A page of the heap with a count. -/
structure HasRef (vpt : Nat → Pte) (v : Nat) : Prop where
  lo : mbegin / pgSize ≤ v
  hi : v < mend / pgSize
  present : Present vpt v
  ends : ¬Continued vpt v

theorem HasRef.congr {vpt' : Nat → Pte} (h : HasRef vpt v) (hsame : vpt' v = vpt v) :
    HasRef vpt' v :=
  ⟨h.lo, h.hi, by simpa only [Present, hsame] using h.present,
    by simpa only [Continued, hsame] using h.ends⟩

/-- The page that a block ends in. -/
theorem BlockOk.hasRef (h : BlockOk vpt b) : HasRef vpt (last b) :=
  ⟨le_trans (Nat.div_le_div_right h.lo) (first_le_last b), h.hi,
    h.present _ (first_le_last b) le_rfl, h.ends⟩

/-- The count of a page is right, with `extra` for what is no block. -/
structure RefOk (mem : Nat → BitVec 8) (mptr : Nat) (live : List (Nat × Nat)) (v extra : Nat) :
    Prop where
  le : extra ≤ 1
  filling : Open mptr v → extra = 1
  ref : refOf mem v = (attached live v + extra) % 2 ^ 32

/-- The heap is in order. -/
structure Inv (vpt : Nat → Pte) (mem : Nat → BitVec 8) (mptr : Nat) (live : List (Nat × Nat)) :
    Prop where
  blocks : ∀ b ∈ live, BlockOk vpt b
  apart : live.Pairwise Apart
  lo : mbegin ≤ mptr
  aligned : mptr % 4 = 0
  filling : ∀ v, Open mptr v → HasRef vpt v ∧ ∀ b ∈ live, last b = v → b.1 + size b ≤ mptr
  refs : ∀ v, HasRef vpt v → ∃ extra, RefOk mem mptr live v extra

/-- The blocks may stand in another order. -/
theorem Inv.perm {live' : List (Nat × Nat)} (h : Inv vpt mem mptr live) (hp : live.Perm live') :
    Inv vpt mem mptr live' := by
  have hcount : attached live = attached live' := funext fun v => hp.countP_eq _
  refine ⟨?_, (hp.pairwise_iff Apart.symm).1 h.apart, h.lo, h.aligned, ?_, ?_⟩
  · intro b hb
    exact h.blocks b (hp.mem_iff.2 hb)
  · intro v hv
    rcases h.filling v hv with ⟨href, hends⟩
    exact ⟨href, fun b hb => hends b (hp.mem_iff.2 hb)⟩
  · intro v hv
    rcases h.refs v hv with ⟨extra, hle, hfill, href⟩
    exact ⟨extra, hle, hfill, hcount ▸ href⟩

theorem attached_cons (b : Nat × Nat) (live : List (Nat × Nat)) (v : Nat) :
    attached (b :: live) v = attached live v + if last b = v then 1 else 0 := by
  unfold attached
  rw [List.countP_cons]
  simp only [decide_eq_true_eq]

theorem attached_le (live : List (Nat × Nat)) (v : Nat) : attached live v ≤ live.length :=
  List.countP_le_length

theorem attached_eq_zero :
    attached live v = 0 ↔ ∀ b ∈ live, last b ≠ v := by
  unfold attached
  rw [List.countP_eq_zero]
  simp only [decide_eq_true_eq, ne_eq]

/-- A block is not in the way of a count. -/
theorem BlockOk.off_ref (h : BlockOk vpt b) (hv : ¬Continued vpt v) :
    b.1 + size b ≤ v * pgSize + (pgSize - 4) ∨ (v + 1) * pgSize ≤ b.1 := by
  have hm := size_mod b
  have ha := h.aligned
  by_cases hlt : first b ≤ v ∧ v < last b
  · exact absurd (h.continued v hlt.1 hlt.2) hv
  · unfold first last at hlt
    simp only [pgSize] at hlt ⊢
    omega

/-! ## Free -/

theorem refOf_store_self (mem : Nat → BitVec 8) (v n : Nat) :
    refOf (store mem 4 (v * pgSize + (pgSize - 4)) n) v = n % 2 ^ 32 := by
  rw [refOf, load_store_at, show (256 : Nat) ^ 4 = 2 ^ 32 by norm_num]

theorem refOf_store_ne (mem : Nat → BitVec 8) {w : Nat} (n : Nat) (h : w ≠ v) :
    refOf (store mem 4 (v * pgSize + (pgSize - 4)) n) w = refOf mem w := by
  refine load_store_off mem n ?_
  simp only [pgSize]
  omega

theorem dropRef_eq {c r : Nat} (hr : (h.ref c + (2 ^ 32 - 1)) % 2 ^ 32 = r) :
    h.dropRef c = if r = 0 then (h.setRef c r).sysPageUnmap c else h.setRef c r := by
  rw [← hr, Heap.dropRef]

theorem refOf_store_two (mem : Nat → BitVec 8) (v : Nat) :
    refOf (store mem 4 (v * pgSize + (pgSize - 4)) 2) v = 2 := by
  rw [refOf_store_self]
  norm_num

/-- What `dropRef` does to a page whose count is `t + 1`. -/
theorem dropRef_spec {c t : Nat} (href : refOf h.mem c = (t + 1) % 2 ^ 32) (ht : t < 2 ^ 32) :
    (∀ v, v ≠ c → (h.dropRef c).vpt v = h.vpt v) ∧
      (h.dropRef c).vpt c = (if t = 0 then 0 else h.vpt c) ∧ refOf (h.dropRef c).mem c = t ∧
      ∀ v, v ≠ c → refOf (h.dropRef c).mem v = refOf h.mem v := by
  have hval : (h.ref c + (2 ^ 32 - 1)) % 2 ^ 32 = t := by
    have hr : h.ref c = (t + 1) % 2 ^ 32 := href
    rw [hr]
    omega
  have hstore : refOf (store h.mem 4 (c * pgSize + (pgSize - 4)) t) c = t :=
    (refOf_store_self h.mem c t).trans (Nat.mod_eq_of_lt ht)
  rw [dropRef_eq hval]
  by_cases hz : t = 0
  · simp only [if_pos hz]
    refine ⟨?_, ?_, hstore, fun v hv => refOf_store_ne h.mem t hv⟩
    · intro v hv
      exact update_of_ne hv 0 h.vpt
    · exact update_self c 0 h.vpt
  · simp only [if_neg hz]
    exact ⟨fun _ _ => rfl, rfl, hstore, fun v hv => refOf_store_ne h.mem t hv⟩

/-- A heap with some of the pages of another one. -/
def Fewer (h h' : Heap) : Prop :=
  h'.mptr = h.mptr ∧ ∀ v, h'.vpt v = h.vpt v ∨ h'.vpt v = 0

theorem Fewer.refl (h : Heap) : Fewer h h := ⟨rfl, fun _ => .inl rfl⟩

theorem Fewer.trans {h'' : Heap} (h1 : Fewer h h') (h2 : Fewer h' h'') : Fewer h h'' := by
  refine ⟨h2.1.trans h1.1, fun v => ?_⟩
  rcases h2.2 v with hsame | hgone
  · rw [hsame]
    exact h1.2 v
  · exact .inr hgone

theorem fewer_sysPageUnmap (h : Heap) (c : Nat) : Fewer h (h.sysPageUnmap c) := by
  refine ⟨rfl, fun v => ?_⟩
  by_cases hv : v = c
  · rw [hv]
    exact .inr (update_self c 0 h.vpt)
  · exact .inl (update_of_ne hv 0 h.vpt)

theorem fewer_dropRef (h : Heap) (c : Nat) : Fewer h (h.dropRef c) := by
  rw [dropRef_eq rfl]
  split
  · exact fewer_sysPageUnmap (h.setRef c _) c
  · exact Fewer.refl h

theorem fewer_freeLoop : ∀ (h : Heap) (c : Nat) (r : Heap × Nat),
    h.freeLoop fuel c = some r → Fewer h r.1 := by
  induction fuel with
  | zero =>
    intro h c r hr
    exact absurd hr (by simp [freeLoop])
  | succ fuel ih =>
    intro h c r hr
    rw [freeLoop] at hr
    by_cases hc : h.continued c = true
    · rw [if_pos hc] at hr
      exact (fewer_sysPageUnmap h c).trans (ih _ _ r hr)
    · rw [if_neg hc] at hr
      cases hr
      exact Fewer.refl h

/-- `free` only takes pages. -/
theorem fewer_free (hf : h.free v = some h') : Fewer h h' := by
  rw [Heap.free] at hf
  by_cases hz : v = 0
  · rw [if_pos hz, some.injEq] at hf
    rw [hf]
    exact Fewer.refl h'
  · rw [if_neg hz] at hf
    rcases Option.ite_none_right_eq_some.1 hf with ⟨hin, hf⟩
    rw [map_eq_some_iff] at hf
    rcases hf with ⟨r, hr, hdrop⟩
    rw [← hdrop]
    exact (fewer_freeLoop h _ r hr).trans (fewer_dropRef r.1 r.2)

/-- A count goes down. Whoever is counted is left with a page that is there. -/
theorem Inv.drop {c mptr : Nat} (extra : Nat) (live : List (Nat × Nat))
    (hblocks : ∀ b ∈ live, BlockOk h.vpt b) (hapart : live.Pairwise Apart) (hlo : mbegin ≤ mptr)
    (haligned : mptr % 4 = 0) (hfilling : ∀ v, Open mptr v → HasRef h.vpt v ∧
      ∀ b ∈ live, last b = v → b.1 + size b ≤ mptr)
    (hrefs : ∀ v, v ≠ c → HasRef h.vpt v → ∃ extra, RefOk h.mem mptr live v extra)
    (hc : HasRef h.vpt c) (hle : extra ≤ 1) (hopen : Open mptr c → extra = 1)
    (href : refOf h.mem c = (attached live c + extra + 1) % 2 ^ 32)
    (hlt : attached live c + extra < 2 ^ 32) :
    Inv (h.dropRef c).vpt (h.dropRef c).mem mptr live := by
  rcases dropRef_spec href hlt with ⟨hother, hself, hrc, hro⟩
  -- the page goes only if nobody is counted in it
  have hkept : 0 < attached live c + extra → ∀ v, (h.dropRef c).vpt v = h.vpt v := by
    intro hpos v
    by_cases hv : v = c
    · rw [hv, hself, if_neg (by omega)]
    · exact hother v hv
  have hback : ∀ v, HasRef (h.dropRef c).vpt v → HasRef h.vpt v := by
    intro v hv
    by_cases hvc : v = c
    · exact hvc ▸ hc
    · exact hv.congr (hother v hvc).symm
  refine ⟨?_, hapart, hlo, haligned, ?_, ?_⟩
  · intro b hb
    refine (hblocks b hb).congr fun v hfirst hlast => ?_
    by_cases hv : v = c
    · -- a block on this page ends there, as the page is not marked
      have hend : last b = c := by
        rcases Nat.lt_or_eq_of_le hlast with hltv | heq
        · exact absurd (hv ▸ (hblocks b hb).continued v hfirst hltv) hc.ends
        · exact heq.symm.trans hv
      have hpos : attached live c ≠ 0 := fun hz => attached_eq_zero.1 hz b hb hend
      exact hkept (by omega) v
    · exact hother v hv
  · intro v hv
    rcases hfilling v hv with ⟨hr, hends⟩
    refine ⟨hr.congr ?_, hends⟩
    by_cases hvc : v = c
    · exact hkept (by rw [hopen (hvc ▸ hv)]; omega) v
    · exact hother v hvc
  · intro v hv
    by_cases hvc : v = c
    · rw [hvc]
      exact ⟨extra, hle, hopen, by rw [hrc, Nat.mod_eq_of_lt hlt]⟩
    · rcases hrefs v hvc (hback v hv) with ⟨x, hx, hfill, hrx⟩
      exact ⟨x, hx, hfill, by rw [hro v hvc, hrx]⟩

/-- The loop of `free` ends at a page that is not marked. -/
theorem freeLoop_stop {c : Nat} (hfuel : 0 < fuel) (hends : ¬Continued h.vpt c) :
    h.freeLoop fuel c = some (h, c) := by
  have hcont : h.continued c = false := Bool.eq_false_iff.2 hends
  cases fuel with
  | zero => exact absurd hfuel (Nat.lt_irrefl 0)
  | succ fuel =>
    rw [freeLoop, hcont]
    rfl

/-- The loop of `free` takes the pages of a block up to its last. -/
theorem freeLoop_spec (k : Nat) : ∀ (h : Heap) (fuel c : Nat), k < fuel →
    (∀ v, c ≤ v → v < c + k → Continued h.vpt v) → ¬Continued h.vpt (c + k) →
    ∃ h', h.freeLoop fuel c = some (h', c + k) ∧ h'.mptr = h.mptr ∧ h'.mem = h.mem ∧
      ∀ v, h'.vpt v = if c ≤ v ∧ v < c + k then 0 else h.vpt v := by
  -- by induction on the marked pages that are left
  induction k with
  | zero =>
    intro h fuel c hfuel _ hends
    refine ⟨h, freeLoop_stop hfuel hends, rfl, rfl, fun v => ?_⟩
    rw [if_neg (by omega)]
  | succ k ih =>
    intro h fuel c hfuel hcont hends
    cases fuel with
    | zero => exact absurd hfuel (by omega)
    | succ fuel =>
      have hc : h.continued c = true := hcont c le_rfl (by omega)
      have hne : ∀ v, v ≠ c → (h.sysPageUnmap c).vpt v = h.vpt v := fun v hv =>
        update_of_ne hv 0 h.vpt
      rcases ih (h.sysPageUnmap c) fuel (c + 1) (by omega)
          (fun v hlo hhi => by
            rw [Continued, hne v (by omega)]
            exact hcont v (by omega) (by omega))
          (by
            rw [Continued, hne _ (by omega), show c + 1 + k = c + (k + 1) by omega]
            exact hends) with ⟨h', hloop, hmptr, hmem, hvpt⟩
      refine ⟨h', ?_, hmptr, hmem, fun v => ?_⟩
      · rw [freeLoop, hc, if_pos rfl, hloop, show c + 1 + k = c + (k + 1) by omega]
      · rw [hvpt v]
        by_cases hv : v = c
        · rw [if_neg (by omega), if_pos (by omega), hv]
          exact update_self c 0 h.vpt
        · rw [hne v hv]
          by_cases hin : c + 1 ≤ v ∧ v < c + 1 + k
          · rw [if_pos hin, if_pos (by omega)]
          · rw [if_neg hin, if_neg (by omega)]

/-- `free` for a block: the assertions hold, and its pages go up to its last. -/
theorem BlockOk.free (hb : BlockOk h.vpt b) :
    ∃ h1 : Heap, h.free b.1 = some (h1.dropRef (last b)) ∧ h1.mptr = h.mptr ∧ h1.mem = h.mem ∧
      ∀ v, h1.vpt v = if first b ≤ v ∧ v < last b then 0 else h.vpt v := by
  have hfl := first_le_last b
  have hlast : last b < mend / pgSize := hb.hi
  rcases freeLoop_spec (last b - first b) h (mend / pgSize - first b) (first b) (by omega)
      (fun v hlo hhi => hb.continued v hlo (by omega))
      (by rw [show first b + (last b - first b) = last b by omega]; exact hb.ends)
    with ⟨h1, hloop, hmptr1, hmem1, hvpt1⟩
  rw [show first b + (last b - first b) = last b by omega] at hloop hvpt1
  refine ⟨h1, ?_, hmptr1, hmem1, hvpt1⟩
  have hltm : b.1 < mend := by
    unfold last at hlast
    simp only [pgSize, mend] at hlast ⊢
    omega
  rw [Heap.free, if_neg (ne_zero_of_lo hb.lo), if_pos ⟨hb.lo, hltm⟩]
  exact congrArg (Option.map fun r : Heap × Nat => r.1.dropRef r.2) hloop

/-- A block is freed, and the heap is in order without it. -/
theorem Inv.free (hinv : Inv h.vpt h.mem mptr (b :: live)) (hlen : live.length + 1 < 2 ^ 32) :
    ∃ h', h.free b.1 = some h' ∧ h'.mptr = h.mptr ∧ Inv h'.vpt h'.mem mptr live := by
  have hb := hinv.blocks b List.mem_cons_self
  have hrest : ∀ c ∈ live, BlockOk h.vpt c := fun c hc =>
    hinv.blocks c (List.mem_cons_of_mem b hc)
  have hapart := List.pairwise_cons.1 hinv.apart
  rcases hb.free with ⟨h1, hfree, hmptr1, hmem1, hvpt1⟩
  -- the pages of the loop are nobody else's
  have hkept : ∀ v, ¬(first b ≤ v ∧ v < last b) → h1.vpt v = h.vpt v := fun v hv => by
    rw [hvpt1 v, if_neg hv]
  have hback : ∀ v, HasRef h1.vpt v → ¬(first b ≤ v ∧ v < last b) := by
    intro v hv hin
    exact not_present_zero (by rw [hvpt1 v, if_pos hin]) hv.present
  rcases hinv.refs (last b) hb.hasRef with ⟨extra, hle, hopen, href⟩
  have hcount := attached_le live (last b)
  refine ⟨h1.dropRef (last b), hfree, (fewer_dropRef h1 _).1.trans hmptr1, ?_⟩
  · refine Inv.drop extra live ?_ hapart.2 hinv.lo hinv.aligned ?_ ?_ ?_ hle hopen
      ?_ (by omega)
    · intro c hc
      refine (hrest c hc).congr fun v hlov hhiv => hkept v fun hin => ?_
      exact hb.alone (hrest c hc) (hapart.1 c hc) hin.1 hin.2 hlov hhiv
    · intro v hv
      rcases hinv.filling v hv with ⟨hr, hends⟩
      refine ⟨hr.congr (hkept v fun hin => ?_),
        fun c hc => hends c (List.mem_cons_of_mem b hc)⟩
      exact hr.ends (hb.continued v hin.1 hin.2)
    · intro v hvc hv
      rcases hinv.refs v (hv.congr (hkept v (hback v hv)).symm) with ⟨x, hx, hfill, hrx⟩
      rw [attached_cons, if_neg hvc.symm, Nat.add_zero] at hrx
      exact ⟨x, hx, hfill, by rw [hmem1, hrx]⟩
    · exact hb.hasRef.congr (hkept (last b) (by omega))
    · rw [hmem1, href, attached_cons, if_pos rfl]
      congr 1
      omega

/-- `free` in a page that is not marked. -/
theorem free_unmarked (h : Heap) (v : Nat) (hlo : mbegin ≤ v) (hhi : v < mend)
    (hends : ¬Continued h.vpt (v / pgSize)) : h.free v = some (h.dropRef (v / pgSize)) := by
  have hgt : 0 < mend / pgSize - v / pgSize := by
    simp only [pgSize, mend] at hhi ⊢
    omega
  rw [Heap.free, if_neg (ne_zero_of_lo hlo), if_pos ⟨hlo, hhi⟩, freeLoop_stop hgt hends,
    map_some]

/-- `mptr` leaves the page that was being filled. -/
theorem Inv.moveOn (hinv : Inv h.vpt h.mem h.mptr live) (hlen : live.length < 2 ^ 32)
    (hopen : h.mptr % pgSize ≠ 0) :
    h.free h.mptr = some (h.dropRef (h.mptr / pgSize)) ∧
      Inv (h.dropRef (h.mptr / pgSize)).vpt (h.dropRef (h.mptr / pgSize)).mem
        ((h.mptr + pgSize) / pgSize * pgSize) live := by
  rcases hinv.filling (h.mptr / pgSize) ⟨hopen, rfl⟩ with ⟨hr, -⟩
  rcases hinv.refs _ hr with ⟨extra, -, hfill, href⟩
  rw [hfill ⟨hopen, rfl⟩] at href
  have hcount := attached_le live (h.mptr / pgSize)
  have hlo := hinv.lo
  have hhi : h.mptr < mend := by
    have hpage := hr.hi
    simp only [pgSize, mend] at hpage ⊢
    omega
  have hnot : ∀ v, ¬Open ((h.mptr + pgSize) / pgSize * pgSize) v := fun v hv =>
    hv.1 (Nat.mul_mod_left _ _)
  refine ⟨free_unmarked h _ hlo hhi hr.ends, ?_⟩
  · refine Inv.drop 0 live hinv.blocks hinv.apart ?_ ?_ (fun v hv => absurd hv (hnot v)) ?_ hr
      (by omega) (fun hv => absurd hv (hnot _)) href (by omega)
    · simp only [pgSize]
      omega
    · simp only [pgSize]
      omega
    · intro v _ hv
      rcases hinv.refs v hv with ⟨x, hx, -, hrx⟩
      exact ⟨x, hx, fun ho => absurd ho (hnot v), hrx⟩

/-! ## Malloc -/

/-- A block that fits ends in the page that is being filled, before its count. -/
theorem fits_page (hal : mptr % 4 = 0) (hopen : mptr % pgSize ≠ 0)
    (hroom : mptr / pgSize = (mptr + roundup n - 1 + 4) / pgSize) :
    last (mptr, n) = mptr / pgSize ∧ Open (mptr + roundup n) (mptr / pgSize) := by
  have hm : roundup n % 4 = 0 := size_mod (mptr, n)
  have hlast : last (mptr, n) = (mptr + roundup n + 3) / pgSize := rfl
  rw [Open, hlast]
  simp only [pgSize] at hroom hopen ⊢
  omega

/-- A block in the page that is being filled. -/
theorem Inv.place (hinv : Inv vpt mem mptr live) (hopen : mptr % pgSize ≠ 0)
    (hroom : mptr / pgSize = (mptr + roundup n - 1 + 4) / pgSize) :
    Inv vpt (store mem 4 (mptr / pgSize * pgSize + (pgSize - 4)) (refOf mem (mptr / pgSize) + 1))
      (mptr + roundup n) ((mptr, n) :: live) := by
  rcases hinv.filling (mptr / pgSize) ⟨hopen, rfl⟩ with ⟨hr, hends⟩
  have hsize : size (mptr, n) = roundup n := rfl
  have hm := size_mod (mptr, n)
  rw [hsize] at hm
  have hlo := hinv.lo
  have hal := hinv.aligned
  rcases fits_page hal hopen hroom with ⟨hlast, hend⟩
  have hfirst : first (mptr, n) = mptr / pgSize := rfl
  refine ⟨?_, List.pairwise_cons.2 ⟨?_, hinv.apart⟩, by omega, by omega, ?_, ?_⟩
  · intro b hb
    rcases List.mem_cons.1 hb with hb | hb
    · rw [hb]
      refine ⟨hlo, hlast ▸ hr.hi, hal, ?_, ?_, ?_, hlast ▸ hr.ends⟩
      · intro hlt
        omega
      · intro v hlov hhiv
        rw [show v = mptr / pgSize by omega]
        exact hr.present
      · intro v hlov hhiv
        omega
    · exact hinv.blocks b hb
  · intro c hc
    have hcb := hinv.blocks c hc
    have hcm := size_mod c
    unfold Apart
    rw [hsize]
    -- a block that ends in this page ends before `mptr`, and none goes on over the page
    by_cases hlc : last c = mptr / pgSize
    · exact .inr (hends c hc hlc)
    · by_cases hin : first c ≤ mptr / pgSize ∧ mptr / pgSize < last c
      · exact absurd (hcb.continued _ hin.1 hin.2) hr.ends
      · unfold first last at hin
        unfold last at hlc
        simp only [pgSize] at hin hlc hroom hopen ⊢
        omega
  · intro v hv
    have hvp : v = mptr / pgSize := hv.2.symm.trans hend.2
    rw [hvp]
    refine ⟨hr, fun b hb hlb => ?_⟩
    rcases List.mem_cons.1 hb with hb | hb
    · rw [hb]
      exact le_rfl
    · exact le_trans (hends b hb hlb) (Nat.le_add_right _ _)
  · intro v hv
    by_cases hvp : v = mptr / pgSize
    · rcases hinv.refs v hv with ⟨x, -, hfill, hrx⟩
      have hx := hfill ⟨hopen, hvp.symm⟩
      refine ⟨1, le_rfl, fun _ => rfl, ?_⟩
      rw [hx] at hrx
      rw [hvp] at hrx ⊢
      rw [refOf_store_self, attached_cons, if_pos hlast, hrx]
      omega
    · rcases hinv.refs v hv with ⟨x, hx, -, hrx⟩
      refine ⟨x, hx, fun ho => absurd (ho.2.symm.trans hend.2) hvp, ?_⟩
      rw [refOf_store_ne mem _ hvp, attached_cons, if_neg (fun he => hvp (he.symm.trans hlast)),
        Nat.add_zero, hrx]

theorem isfree_spec (hfree : h.isfree v n = true) :
    ∀ i < pagesFor n, v + i * pgSize < mend ∧ ¬Present h.vpt (v / pgSize + i) := by
  intro i hi
  have hall := List.all_eq_true.1 hfree i (List.mem_range.2 hi)
  rw [Bool.and_eq_true, decide_eq_true_eq, Bool.not_eq_true'] at hall
  exact ⟨hall.1, Bool.eq_false_iff.1 hall.2⟩

/-- Where the search ends. -/
theorem search_spec : ∀ (nwrap mptr : Nat) (found : Bool) (q : Nat),
    h.search n fuel nwrap mptr = some (found, q) → mbegin ≤ mptr → mptr % pgSize = 0 →
      mbegin ≤ q ∧ (q % pgSize = 0 ∧ (found = false → q < mend)) ∧
        (found = true → h.isfree q (n + 4) = true) := by
  induction fuel with
  | zero =>
    intro nwrap mptr found q hs
    exact absurd hs (by simp [search])
  | succ fuel ih =>
    intro nwrap mptr found q hs hlo hal
    rw [search] at hs
    by_cases hfree : h.isfree mptr (n + 4) = true
    · rw [if_pos hfree] at hs
      cases hs
      exact ⟨hlo, ⟨hal, fun hf => absurd hf (by decide)⟩, fun _ => hfree⟩
    · rw [if_neg hfree] at hs
      by_cases hend : mptr + pgSize = mend
      · rw [if_pos hend] at hs
        by_cases hwrap : nwrap + 1 = 2
        · -- out of address space
          rw [if_pos hwrap] at hs
          cases hs
          exact ⟨le_rfl, by decide, fun hf => absurd hf (by decide)⟩
        · rw [if_neg hwrap] at hs
          exact ih _ _ found q hs le_rfl (by decide)
      · rw [if_neg hend] at hs
        exact ih _ _ found q hs (by omega) (by simpa using hal)

/-- One page is allocated. -/
theorem sysPageAlloc_spec (h : Heap) (v pp : Nat) (perm : BitVec 32) :
    (h.sysPageAlloc v pp perm).mptr = h.mptr ∧
      (∀ w, w ≠ v → (h.sysPageAlloc v pp perm).vpt w = h.vpt w) ∧
      Present (h.sysPageAlloc v pp perm).vpt v ∧
      (Continued (h.sysPageAlloc v pp perm).vpt v ↔ perm.getLsbD 10 = true) ∧
      ∀ a, a / pgSize ≠ v → (h.sysPageAlloc v pp perm).mem a = h.mem a := by
  have hflags := alloc_flags (h.sysPageAlloc v pp perm).vpt pp perm
    (update_self v _ h.vpt)
  exact ⟨rfl, fun w hw => update_of_ne hw _ h.vpt, hflags.1, hflags.2,
    fun a ha => if_neg ha⟩

theorem perm_continued (i n : Nat) :
    ((if (i + 1) * pgSize < n + 4 then 0x407 else 7 : BitVec 32)).getLsbD 10 = true ↔
      (i + 1) * pgSize < n + 4 := by
  by_cases h : (i + 1) * pgSize < n + 4
  · rw [if_pos h]
    exact ⟨fun _ => h, fun _ => by decide⟩
  · rw [if_neg h]
    exact ⟨fun hf => absurd hf (by decide), fun hf => absurd hf h⟩

/-- The loop over the pages of a new block: only these change, and if it gets through all
    but the last are marked. -/
theorem allocLoop_spec {s : Nat} {left : Nat} :
    ∀ (h h' : Heap) (i : Nat) (r : Option Nat), h.allocLoop s n alloc i left = (h', r) →
      h'.mptr = h.mptr ∧ (∀ v, v < s + i ∨ s + i + left ≤ v → h'.vpt v = h.vpt v) ∧
      (∀ a, a / pgSize < s + i ∨ s + i + left ≤ a / pgSize → h'.mem a = h.mem a) ∧
      (r = none → ∀ j, i ≤ j → j < i + left → Present h'.vpt (s + j) ∧
        (Continued h'.vpt (s + j) ↔ (j + 1) * pgSize < n + 4)) ∧
      ∀ j, r = some j → i ≤ j ∧ j < i + left ∧ ∀ v, s + j ≤ v → h'.vpt v = h.vpt v := by
  induction left with
  | zero =>
    intro h h' i r hl
    rw [Heap.allocLoop] at hl
    cases hl
    exact ⟨rfl, fun _ _ => rfl, fun _ _ => rfl, fun _ j hij hji => by omega,
      fun j hj => by cases hj⟩
  | succ left ih =>
    intro h h' i r hl
    rw [Heap.allocLoop] at hl
    cases halloc : alloc i with
    | none =>
      rw [halloc] at hl
      cases hl
      refine ⟨rfl, fun _ _ => rfl, fun _ _ => rfl, fun hf => absurd hf (by simp), ?_⟩
      intro j hj
      rw [← Option.some.inj hj]
      exact ⟨le_rfl, by omega, fun _ _ => rfl⟩
    | some pp =>
      rw [halloc] at hl
      rcases sysPageAlloc_spec h (s + i) pp
        (if (i + 1) * pgSize < n + 4 then 0x407 else 7) with ⟨hm1, hv1, hp1, hc1, hmem1⟩
      rw [perm_continued] at hc1
      rcases ih _ h' (i + 1) r hl with ⟨hm, hv, hmem, hnone, hsome⟩
      -- the later turns leave this page alone
      have hi : h'.vpt (s + i) = _ := hv (s + i) (by omega)
      refine ⟨hm.trans hm1, ?_, ?_, ?_, ?_⟩
      · intro v hout
        exact (hv v (by omega)).trans (hv1 v (by omega))
      · intro a hout
        exact (hmem a (by omega)).trans (hmem1 a (by omega))
      · intro hr j hij hji
        rcases Nat.eq_or_lt_of_le hij with heq | hlt
        · rw [← heq]
          unfold Present Continued
          rw [hi]
          exact ⟨hp1, hc1⟩
        · exact hnone hr j hlt (by omega)
      · intro j hj
        rcases hsome j hj with ⟨hlo, hhi, hkept⟩
        exact ⟨by omega, by omega, fun v hvj => (hkept v hvj).trans (hv1 v (by omega))⟩

/-- The loop that takes the pages back. -/
theorem unmapDown_spec (s i : Nat) : ∀ h : Heap, (h.unmapDown s i).mptr = h.mptr ∧
    (h.unmapDown s i).mem = h.mem ∧
    ∀ v, (h.unmapDown s i).vpt v = if s ≤ v ∧ v ≤ s + i then 0 else h.vpt v := by
  induction i with
  | zero =>
    intro h
    refine ⟨rfl, rfl, fun v => ?_⟩
    rw [Heap.unmapDown]
    change update h.vpt s 0 v = _
    by_cases hv : v = s
    · rw [hv, update_self, if_pos (by omega)]
    · rw [update_of_ne hv, if_neg (by omega)]
  | succ i ih =>
    intro h
    rcases ih (h.sysPageUnmap (s + (i + 1))) with ⟨hm, hmem, hv⟩
    refine ⟨hm, hmem, fun v => ?_⟩
    rw [Heap.unmapDown, hv v]
    change (if _ then 0 else update h.vpt (s + (i + 1)) 0 v) = _
    by_cases hvs : v = s + (i + 1)
    · rw [hvs, update_self, ite_self, if_pos ⟨by omega, le_rfl⟩]
    · rw [update_of_ne hvs]
      by_cases hin : s ≤ v ∧ v ≤ s + i
      · rw [if_pos hin, if_pos (by omega)]
      · rw [if_neg hin, if_neg (by omega)]

/-- What was there is kept with its counts, and nothing is new. -/
structure Same (h h' : Heap) : Prop where
  kept : ∀ v, Present h.vpt v → h'.vpt v = h.vpt v
  gone : ∀ v, Present h'.vpt v → Present h.vpt v
  refs : ∀ v, HasRef h.vpt v → refOf h'.mem v = refOf h.mem v

theorem Same.hasRef (hsame : Same h h') (hv : HasRef h'.vpt v) : HasRef h.vpt v := by
  exact hv.congr (hsame.kept v (hsame.gone v hv.present)).symm

/-- Pages that were not there are gone again. -/
theorem Inv.frame {mptr' : Nat} (hinv : Inv h.vpt h.mem mptr live) (hsame : Same h h')
    (hlo : mbegin ≤ mptr') (haligned : mptr' % pgSize = 0) : Inv h'.vpt h'.mem mptr' live := by
  have hnot : ∀ v, ¬Open mptr' v := fun v hv => hv.1 haligned
  refine ⟨?_, hinv.apart, hlo, ?_, fun v hv => absurd hv (hnot v), ?_⟩
  · intro b hb
    have hok := hinv.blocks b hb
    exact hok.congr fun v hlov hhiv => hsame.kept v (hok.present v hlov hhiv)
  · simp only [pgSize] at haligned
    omega
  · intro v hv
    have hr := hsame.hasRef hv
    rcases hinv.refs v hr with ⟨x, hx, -, hrx⟩
    exact ⟨x, hx, fun ho => absurd ho (hnot v), (hsame.refs v hr).trans hrx⟩

theorem pagesFor_eq (n : Nat) : pagesFor (n + 4) = (n + 3) / pgSize + 1 := by
  unfold pagesFor
  simp only [pgSize]
  omega

/-- A block of `n` bytes is at `q` on pages that were not there, all but the last marked. -/
structure Grown (h h' : Heap) (q n : Nat) : Prop where
  lo : mbegin ≤ q
  hi : last (q, n) < mend / pgSize
  aligned : q % pgSize = 0
  free : ∀ v, first (q, n) ≤ v → v ≤ last (q, n) → ¬Present h.vpt v
  kept : ∀ v, v < first (q, n) ∨ last (q, n) < v →
    h'.vpt v = h.vpt v ∧ refOf h'.mem v = refOf h.mem v
  new : ∀ v, first (q, n) ≤ v → v ≤ last (q, n) →
    Present h'.vpt v ∧ (Continued h'.vpt v ↔ v < last (q, n))
  ref : refOf h'.mem (last (q, n)) = 2

namespace Grown

variable {h h' : Heap} {q n : Nat}

section

variable (hg : Grown h h' q n)

include hg

theorem block : BlockOk h'.vpt (q, n) := by
  have hlast := hg.new _ (first_le_last (q, n)) le_rfl
  refine ⟨hg.lo, hg.hi, ?_, fun _ => hg.aligned, fun v hlo hhi => (hg.new v hlo hhi).1,
    fun v hlo hhi => (hg.new v hlo hhi.le).2.2 hhi,
    fun hc => Nat.lt_irrefl _ (hlast.2.1 hc)⟩
  have hal := hg.aligned
  simp only [pgSize] at hal
  change q % 4 = 0
  omega

/-- A page that was there is none of the new ones. -/
theorem old (hv : Present h.vpt v) :
    v < first (q, n) ∨ last (q, n) < v := by
  by_contra hnot
  exact hg.free v (by omega) (by omega) hv

/-- The last page is filled further, unless the block ends with a page. -/
theorem filling (v : Nat) :
    Open (q + roundup n) v ↔ roundup n % pgSize ≠ 0 ∧ v = last (q, n) := by
  have hal := hg.aligned
  have hm : roundup n % 4 = 0 := size_mod (q, n)
  have hlast : last (q, n) = (q + roundup n + 3) / pgSize := rfl
  rw [Open, hlast]
  simp only [pgSize] at hal ⊢
  omega

/-- The block ends below `mend`. -/
theorem below : q + roundup n < mend := by
  have hhi : (q + roundup n + 3) / pgSize < mend / pgSize := hg.hi
  simp only [pgSize, mend] at hhi ⊢
  omega

theorem unused (hb : BlockOk h.vpt b) : last b ≠ last (q, n) := by
  intro heq
  have hp := hb.present _ (first_le_last b) le_rfl
  rw [heq] at hp
  exact hg.free _ (first_le_last _) le_rfl hp

/-- A block that was there is on none of the new pages. -/
theorem apart (hc : BlockOk h.vpt c) : Apart (q, n) c := by
  have hfl := first_le_last c
  have hfp := hg.old (hc.present _ le_rfl hfl)
  have hlp := hg.old (hc.present _ hfl le_rfl)
  have hcov : ¬(first c < first (q, n) ∧ first (q, n) ≤ last c) := fun hb =>
    hg.free _ le_rfl (first_le_last _) (hc.present _ hb.1.le hb.2)
  have hcm := size_mod c
  have hm := size_mod (q, n)
  have hal := hg.aligned
  unfold Apart
  unfold first last at *
  simp only [pgSize] at *
  omega

end

end Grown

/-- A block on pages of its own, the last of which is left to be filled. -/
theorem Inv.fresh {q : Nat} (hinv : Inv h.vpt h.mem mptr live) (hg : Grown h h' q n) :
    Inv h'.vpt h'.mem (q + roundup n) ((q, n) :: live) := by
  have hok := hg.block
  have hnone : ∀ b ∈ live, last b ≠ last (q, n) := fun b hb => hg.unused (hinv.blocks b hb)
  refine ⟨?_, List.pairwise_cons.2 ⟨fun c hc => hg.apart (hinv.blocks c hc), hinv.apart⟩,
    le_trans hg.lo (Nat.le_add_right _ _), ?_, ?_, ?_⟩
  · intro b hb
    rcases List.mem_cons.1 hb with hb | hb
    · rwa [hb]
    · have hb' := hinv.blocks b hb
      exact hb'.congr fun v hlov hhiv => (hg.kept v (hg.old (hb'.present v hlov hhiv))).1
  · have hal : q % 4 = 0 := hok.aligned
    have hm : roundup n % 4 = 0 := size_mod (q, n)
    omega
  · intro v hv
    rw [((hg.filling v).1 hv).2]
    refine ⟨hok.hasRef, fun b hb hlb => ?_⟩
    rcases List.mem_cons.1 hb with hb | hb
    · rw [hb]
      exact le_rfl
    · exact absurd hlb (hnone b hb)
  · intro v hv
    by_cases hvl : v = last (q, n)
    · refine ⟨1, le_rfl, fun _ => rfl, ?_⟩
      rw [hvl, attached_cons, if_pos rfl, attached_eq_zero.2 hnone, hg.ref]
      rfl
    · -- the other new pages are marked
      have hout : v < first (q, n) ∨ last (q, n) < v := by
        by_contra hnot
        exact hv.ends ((hg.new v (by omega) (by omega)).2.2 (by omega))
      have hsame := hg.kept v hout
      rcases hinv.refs v (hv.congr hsame.1.symm) with ⟨x, hx, -, hrx⟩
      refine ⟨x, hx, fun ho => absurd ((hg.filling v).1 ho).2 hvl, ?_⟩
      rw [attached_cons, if_neg (Ne.symm hvl), Nat.add_zero, hsame.2, hrx]

/-- The heap of a program, with `mptr` where the next call of `malloc` has it. -/
def Heap.Ok (h : Heap) (live : List (Nat × Nat)) : Prop :=
  Inv h.vpt h.mem (if h.mptr = 0 then mbegin else h.mptr) live

theorem Inv.ok (hinv : Inv h.vpt h.mem h.mptr live) : h.Ok live := by
  rwa [Heap.Ok, if_neg (ne_zero_of_lo hinv.lo)]

/-- What a call of `malloc` has done: no block, or a new one. -/
def Returned (n : Nat) (live : List (Nat × Nat)) (p : Nat) (h : Heap) : Prop :=
  h.Ok (if p = 0 then live else (p, n) :: live)

theorem returned_none (hinv : Inv h.vpt h.mem h.mptr live) : Returned n live 0 h := by
  rw [Returned, if_pos rfl]
  exact hinv.ok

theorem returned_block (hp : mbegin ≤ p) (hinv : Inv h.vpt h.mem h.mptr ((p, n) :: live)) :
    Returned n live p h := by
  rw [Returned, if_neg (ne_zero_of_lo hp)]
  exact hinv.ok

theorem refOf_congr {mem' : Nat → BitVec 8} (h : ∀ a, a / pgSize = v → mem' a = mem a) :
    refOf mem' v = refOf mem v := by
  refine load_same mem fun a hlo hhi => h a ?_
  simp only [pgSize] at hlo hhi ⊢
  omega

theorem grab_failed {i : Nat}
    (hloop : h.allocLoop (h.mptr / pgSize) n alloc 0 (pagesFor (n + 4)) = (h1, some i)) :
    h.grab n alloc = (0, h1.unmapDown (h.mptr / pgSize) i) := by
  rw [Heap.grab, hloop]

theorem grab_done
    (hloop : h.allocLoop (h.mptr / pgSize) n alloc 0 (pagesFor (n + 4)) = (h1, none)) :
    h.grab n alloc =
      (h.mptr, { h1.setRef (h.mptr / pgSize + (pagesFor (n + 4) - 1)) 2 with
        mptr := h.mptr + n }) := by
  rw [Heap.grab, hloop]

/-- What asking for the pages of a block of `n` bytes comes to, with the block or 0: they are
    there, or everything is as before. -/
def Asked (h h' : Heap) (n p : Nat) : Prop :=
  (p = 0 ∧ Same h h' ∧ mbegin ≤ h'.mptr ∧ h'.mptr % pgSize = 0 ∧ h'.mptr < mend) ∨
    (Grown h h' p n ∧ h'.mptr = p + roundup n)

/-- The pages of a new block: all of them, or what was there is as before. -/
theorem grab_spec (alloc : Nat → Option Nat) (hlo : mbegin ≤ h.mptr) (hal : h.mptr % pgSize = 0)
    (hfree : h.isfree h.mptr (roundup n + 4) = true) :
    Asked h (h.grab (roundup n) alloc).2 n (h.grab (roundup n) alloc).1 := by
  have hfree' := isfree_spec hfree
  have hlast : last (h.mptr, n) = h.mptr / pgSize + (roundup n + 3) / pgSize := by
    change (h.mptr + roundup n + 3) / pgSize = _
    simp only [pgSize] at hal ⊢
    omega
  rcases hloop : h.allocLoop (h.mptr / pgSize) (roundup n) alloc 0
    (pagesFor (roundup n + 4)) with ⟨h1, r⟩
  rcases allocLoop_spec _ h1 0 r hloop with ⟨hm, hv, hmem, hnone, hsome⟩
  rw [pagesFor_eq] at hfree' hv hmem hnone hsome
  -- the pages of the loop were not there
  have hnew : ∀ v, first (h.mptr, n) ≤ v → v ≤ last (h.mptr, n) → ¬Present h.vpt v := by
    intro v hlov hhiv
    change h.mptr / pgSize ≤ v at hlov
    have hp := (hfree' (v - h.mptr / pgSize) (by omega)).2
    rwa [show h.mptr / pgSize + (v - h.mptr / pgSize) = v by omega] at hp
  have hout : ∀ v, v < first (h.mptr, n) ∨ last (h.mptr, n) < v →
      h1.vpt v = h.vpt v ∧ refOf h1.mem v = refOf h.mem v := by
    intro v hv'
    change v < h.mptr / pgSize ∨ _ at hv'
    refine ⟨hv v (by omega), refOf_congr fun a ha => hmem a (by rw [ha]; omega)⟩
  cases r with
  | some j =>
    rcases hsome j rfl with ⟨-, hj, hlater⟩
    rcases unmapDown_spec (h.mptr / pgSize) j h1 with ⟨hm2, hmem2, hv2⟩
    have hin : ∀ v, Present h.vpt v → v < first (h.mptr, n) ∨ last (h.mptr, n) < v := by
      intro v hp
      by_contra hnot
      exact hnew v (by omega) (by omega) hp
    have hlt := (hfree' 0 (Nat.succ_pos _)).1
    rw [grab_failed hloop]
    refine .inl ⟨rfl, ⟨?_, ?_, ?_⟩, ?_⟩
    · intro v hp
      have hv' := hin v hp
      change v < h.mptr / pgSize ∨ _ at hv'
      rw [hv2 v, if_neg (by omega)]
      exact (hout v hv').1
    · intro v hp
      by_cases hgone : h.mptr / pgSize ≤ v ∧ v ≤ h.mptr / pgSize + j
      · exact absurd hp (not_present_zero (by rw [hv2 v, if_pos hgone]))
      · rw [Present, hv2 v, if_neg hgone] at hp
        by_cases hbelow : v < h.mptr / pgSize
        · rwa [hv v (.inl hbelow)] at hp
        · rwa [hlater v (by omega)] at hp
    · intro v hr
      rw [hmem2]
      exact (hout v (hin v hr.present)).2
    · rw [hm2, hm]
      exact ⟨hlo, hal, by omega⟩
  | none =>
    rw [grab_done hloop, pagesFor_eq, Nat.add_sub_cancel, ← hlast]
    dsimp only
    refine .inr ⟨⟨hlo, ?_, hal, hnew, ?_, ?_, refOf_store_two h1.mem _⟩, rfl⟩
    · have hend := (hfree' _ (Nat.lt_succ_self _)).1
      rw [hlast]
      simp only [pgSize, mend] at hend hal ⊢
      omega
    · intro v hv'
      have hfl := first_le_last (h.mptr, n)
      exact ⟨(hout v hv').1, (refOf_store_ne h1.mem 2 (by omega)).trans (hout v hv').2⟩
    · intro v hlov hhiv
      change h.mptr / pgSize ≤ v at hlov
      have hp := hnone rfl (v - h.mptr / pgSize) (Nat.zero_le _) (by omega)
      rw [show h.mptr / pgSize + (v - h.mptr / pgSize) = v by omega] at hp
      refine ⟨hp.1, hp.2.trans ?_⟩
      rw [hlast] at hhiv ⊢
      simp only [pgSize] at hhiv hlov ⊢
      omega

/-- The second half of `malloc`. -/
theorem fresh_spec (hlo : mbegin ≤ h.mptr) (hal : h.mptr % pgSize = 0)
    (hf : h.fresh (roundup n) alloc = some (p, h')) : Asked h h' n p := by
  rw [Heap.fresh, map_eq_some_iff] at hf
  rcases hf with ⟨⟨found, q⟩, hs, hr⟩
  rcases search_spec 0 h.mptr found q hs hlo hal with ⟨hqlo, hq, hfree⟩
  cases found with
  | false =>
    rw [if_neg Bool.false_ne_true] at hr
    cases hr
    exact .inl ⟨rfl, ⟨fun _ _ => rfl, fun _ hp => hp, fun _ _ => rfl⟩, hqlo, hq.1, hq.2 rfl⟩
  | true =>
    rw [if_pos rfl] at hr
    have hgrab := grab_spec (h := { h with mptr := q }) alloc hqlo hq.1 (hfree rfl)
    rw [hr] at hgrab
    rcases hgrab with ⟨hp, ⟨hkept, hgone, hrefs⟩, hptr⟩ | ⟨⟨hlo, hhi, ha, hf, hk, hn, href⟩, hptr⟩
    · exact .inl ⟨hp, ⟨hkept, hgone, hrefs⟩, hptr⟩
    · exact .inr ⟨⟨hlo, hhi, ha, hf, hk, hn, href⟩, hptr⟩

/-- `mptr` as a call of `malloc` has it. -/
def Heap.begun (h : Heap) : Heap := if h.mptr = 0 then { h with mptr := mbegin } else h

theorem begun_vpt (h : Heap) : h.begun.vpt = h.vpt := by
  unfold Heap.begun
  split
  · rfl
  · rfl

theorem begun_mod (h : Heap) : h.begun.mptr % pgSize = h.mptr % pgSize := by
  unfold Heap.begun
  by_cases hz : h.mptr = 0
  · rw [if_pos hz, hz]
    exact (by decide : mbegin % pgSize = 0 % pgSize)
  · rw [if_neg hz]

theorem begun_eq (hopen : h.mptr % pgSize ≠ 0) : h.begun = h :=
  if_neg fun hz => hopen (by rw [hz]; rfl)

theorem Heap.Ok.begun (hok : h.Ok live) : Inv h.begun.vpt h.begun.mem h.begun.mptr live := by
  unfold Heap.Ok at hok
  unfold Heap.begun
  by_cases hz : h.mptr = 0
  · rw [if_pos hz] at hok ⊢
    exact hok
  · rw [if_neg hz] at hok ⊢
    exact hok

/-- A block of `n` bytes does not fit in the page that is being filled. -/
def Misfit (h : Heap) (n : Nat) : Prop :=
  h.mptr % pgSize ≠ 0 ∧ h.mptr / pgSize ≠ (h.mptr + n - 1 + 4) / pgSize

instance (h : Heap) (n : Nat) : Decidable (Misfit h n) := inferInstanceAs (Decidable (_ ∧ _))

/-- The heap with `n` bytes more in the page that is being filled. -/
def Heap.placed (h : Heap) (n : Nat) : Heap :=
  { h.setRef (h.mptr / pgSize) (h.ref (h.mptr / pgSize) + 1) with mptr := h.mptr + n }

/-- A call fails as the size is too large, fills a page further, leaves the page that was
    being filled, or starts at a page. -/
theorem malloc_call (h : Heap) (n : Nat) (alloc : Nat → Option Nat) :
    (maxmalloc ≤ roundup n ∧ h.malloc n alloc = some (0, h.begun)) ∨
    roundup n < maxmalloc ∧
      ((h.mptr % pgSize ≠ 0 ∧ h.mptr / pgSize = (h.mptr + roundup n - 1 + 4) / pgSize ∧
        h.malloc n alloc = some (h.mptr, h.placed (roundup n))) ∨
      (Misfit h (roundup n) ∧ h.malloc n alloc = (h.free h.mptr).bind fun h =>
        ({ h with mptr := (h.mptr + pgSize) / pgSize * pgSize } : Heap).fresh (roundup n)
          alloc) ∨
      (h.mptr % pgSize = 0 ∧ h.malloc n alloc = h.begun.fresh (roundup n) alloc)) := by
  rw [Heap.malloc, ← Heap.begun]
  dsimp only
  by_cases hbig : maxmalloc ≤ roundup n
  · exact .inl ⟨hbig, if_pos hbig⟩
  refine .inr ⟨by omega, ?_⟩
  rw [if_neg hbig]
  by_cases hopen : h.mptr % pgSize ≠ 0
  · rw [begun_eq hopen, if_pos hopen]
    by_cases hfit : h.mptr / pgSize = (h.mptr + roundup n - 1 + 4) / pgSize
    · exact .inl ⟨hopen, hfit, if_pos hfit⟩
    · exact .inr (.inl ⟨⟨hopen, hfit⟩, if_neg hfit⟩)
  · rw [begun_mod, if_neg hopen]
    exact .inr (.inr ⟨not_not.1 hopen, rfl⟩)

/-- The heap in which a call of `malloc` asks for pages: `mptr` is at a page, or has left the
    one that was being filled. -/
inductive Asking (h : Heap) (n : Nat) : Heap → Prop
  | page : h.mptr % pgSize = 0 → Asking h n h.begun
  | left (h1 : Heap) : Misfit h n → h.free h.mptr = some h1 → h.dropRef (h.mptr / pgSize) = h1 →
      Asking h n { h1 with mptr := (h.mptr + pgSize) / pgSize * pgSize }

/-- A call of `malloc` on a heap in order. -/
theorem malloc_asking (n : Nat) (alloc : Nat → Option Nat) (hok : h.Ok live)
    (hlen : live.length < 2 ^ 32) :
    (maxmalloc ≤ roundup n ∧ h.malloc n alloc = some (0, h.begun)) ∨
    roundup n < maxmalloc ∧
      ((h.mptr % pgSize ≠ 0 ∧ h.mptr / pgSize = (h.mptr + roundup n - 1 + 4) / pgSize ∧
        h.malloc n alloc = some (h.mptr, h.placed (roundup n))) ∨
      ∃ h1, Asking h (roundup n) h1 ∧ Inv h1.vpt h1.mem h1.mptr live ∧
        h1.mptr % pgSize = 0 ∧ h.malloc n alloc = h1.fresh (roundup n) alloc) := by
  have hinv := hok.begun
  rcases malloc_call h n alloc with hbig | ⟨hmax, hfit | ⟨hmis, hres⟩ | ⟨hal, hres⟩⟩
  · exact .inl hbig
  · exact .inr ⟨hmax, .inl hfit⟩
  · rw [begun_eq hmis.1] at hinv
    rcases hinv.moveOn hlen hmis.1 with ⟨hfree, hinv1⟩
    have hptr := (fewer_dropRef h (h.mptr / pgSize)).1
    obtain ⟨h1, hdrop⟩ : ∃ h1, h.dropRef (h.mptr / pgSize) = h1 := ⟨_, rfl⟩
    rw [hdrop] at hfree hinv1 hptr
    refine .inr ⟨hmax, .inr ⟨_, .left h1 hmis hfree hdrop, hinv1,
      Nat.mul_mod_left _ _, ?_⟩⟩
    rw [hres, hfree, Option.bind_some, hptr]
  · exact .inr ⟨hmax, .inr ⟨_, .page hal, hinv, (begun_mod h).trans hal, hres⟩⟩

/-- `malloc` on a heap in order. -/
theorem malloc_spec (hok : h.Ok live) (hlen : live.length < 2 ^ 32)
    (hm : h.malloc n alloc = some (p, h')) : Returned n live p h' := by
  have hinv := hok.begun
  rcases malloc_asking n alloc hok hlen with ⟨-, hres⟩ |
    ⟨-, ⟨hopen, hfit, hres⟩ | ⟨h1, -, hinv1, hal, hres⟩⟩
  · rw [hres] at hm
    cases hm
    exact returned_none hinv
  · rw [hres, some.injEq, Prod.mk.injEq] at hm
    rw [begun_eq hopen] at hinv
    rw [← hm.1, ← hm.2]
    exact returned_block hinv.lo (hinv.place hopen hfit)
  · rw [hres] at hm
    rcases fresh_spec hinv1.lo hal hm with ⟨hp, hsame, hlo, hal', -⟩ | ⟨hg, hptr⟩
    · rw [hp]
      exact returned_none (hinv1.frame hsame hlo hal')
    · have hinv' := hinv1.fresh hg
      rw [← hptr] at hinv'
      exact returned_block hg.lo hinv'

/-! ## Programs -/

theorem step_malloc (h : step s (.malloc n alloc) = some s') :
    ∃ p heap, s.heap.malloc n alloc = some (p, heap) ∧
      s' = ⟨heap, if p = 0 then s.live else (p, n) :: s.live⟩ := by
  rw [step] at h
  rcases Option.ite_none_right_eq_some.1 h with ⟨hn, h⟩
  rw [map_eq_some_iff] at h
  rcases h with ⟨⟨p, heap⟩, hm, hs⟩
  exact ⟨p, heap, hm, hs.symm⟩

theorem step_freed (h : step s (.free p n) = some s') :
    (p, n) ∈ s.live ∧ ∃ heap, s.heap.free p = some heap ∧ s' = ⟨heap, s.live.erase (p, n)⟩ := by
  rw [step] at h
  rcases Option.ite_none_right_eq_some.1 h with ⟨hmem, h⟩
  rw [map_eq_some_iff] at h
  rcases h with ⟨heap, hf, hs⟩
  exact ⟨hmem, heap, hf, hs.symm⟩

theorem step_written {x : BitVec 8} (h : step s (.write a x) = some s') :
    (∃ b ∈ s.live, b.1 ≤ a ∧ a < b.1 + b.2) ∧
      s' = { s with heap := { s.heap with mem := update s.heap.mem a x } } := by
  rw [step] at h
  rcases Option.ite_none_right_eq_some.1 h with ⟨hany, h⟩
  rw [some.injEq] at h
  rcases List.any_eq_true.1 hany with ⟨b, hb, hin⟩
  rw [Bool.and_eq_true, decide_eq_true_eq, decide_eq_true_eq] at hin
  exact ⟨⟨b, hb, hin⟩, h.symm⟩

theorem step_free {heap : Heap} (hmem : (p, n) ∈ s.live) (hf : s.heap.free p = some heap) :
    step s (.free p n) = some ⟨heap, s.live.erase (p, n)⟩ := by
  rw [step, if_pos hmem, hf, map_some]

/-- The bytes of a block are no count. -/
theorem BlockOk.refOf_write (hb : BlockOk vpt b) (mem : Nat → BitVec 8) (x : BitVec 8)
    (hlo : b.1 ≤ a) (hhi : a < b.1 + b.2) (hv : ¬Continued vpt v) :
    refOf (update mem a x) v = refOf mem v := by
  refine load_same mem fun y hylo hyhi => ?_
  have hya : y ≠ a := by
    have hoff := hb.off_ref hv
    have hsz := le_size b
    simp only [pgSize] at hoff hylo hyhi
    omega
  exact update_of_ne hya x mem

theorem Inv.write (hinv : Inv vpt mem mptr live) (x : BitVec 8) (hb : b ∈ live) (hlo : b.1 ≤ a)
    (hhi : a < b.1 + b.2) : Inv vpt (update mem a x) mptr live := by
  refine ⟨hinv.blocks, hinv.apart, hinv.lo, hinv.aligned, hinv.filling, fun v hv => ?_⟩
  rcases hinv.refs v hv with ⟨extra, hle, hfill, href⟩
  exact ⟨extra, hle, hfill, ((hinv.blocks b hb).refOf_write mem x hlo hhi hv.ends).trans href⟩

/-- One step keeps the heap in order, as long as the counts do not overflow. -/
theorem step_ok {ev : Event} (hok : s.heap.Ok s.live) (hlen : s.live.length < 2 ^ 32)
    (h : step s ev = some s') : s'.heap.Ok s'.live := by
  cases ev with
  | malloc n alloc =>
    rcases step_malloc h with ⟨p, heap, hm, hs⟩
    rw [hs]
    exact malloc_spec hok hlen hm
  | free p n =>
    rcases step_freed h with ⟨hmem, heap, hf, hs⟩
    have hperm := List.perm_cons_erase hmem
    have hl := hperm.length_eq
    rw [List.length_cons] at hl
    rcases (Inv.perm hok hperm).free (by omega) with ⟨heap', hf', hmptr, hinv⟩
    rw [hf, some.injEq] at hf'
    rw [hs]
    rwa [← hf', ← hmptr, ← hf'] at hinv
  | write a x =>
    rcases step_written h with ⟨⟨b, hb, hlo, hhi⟩, hs⟩
    rw [hs]
    exact Inv.write hok x hb hlo hhi

/-- A heap with nothing in it is in order. -/
theorem Start.ok (h : Start s) : s.heap.Ok s.live := by
  have hz : ∀ v, ¬HasRef s.heap.vpt v := fun v hv =>
    not_present_zero (h.empty v hv.lo hv.hi) hv.present
  rw [Heap.Ok, if_pos h.mptr, h.live]
  refine ⟨fun b hb => absurd hb List.not_mem_nil, List.Pairwise.nil, le_rfl, by decide,
    fun v hv => absurd hv.1 (by decide), fun v hv => absurd hv (hz v)⟩

/-- Below `mend` the search comes back. -/
theorem search_returns (h : Heap) {fuel : Nat} (n : Nat) : ∀ nwrap mptr, nwrap < 2 → mptr < mend →
    mptr % pgSize = 0 →
    (mend - mptr) / pgSize + (1 - nwrap) * ((mend - mbegin) / pgSize) < fuel →
      ∃ r, h.search n fuel nwrap mptr = some r := by
  -- by induction on the pages that are still to be tried
  induction fuel with
  | zero =>
    intro nwrap mptr _ _ _ hfuel
    exact absurd hfuel (Nat.not_lt_zero _)
  | succ fuel ih =>
    intro nwrap mptr hwrap hlt hal hfuel
    rw [search]
    by_cases hfree : h.isfree mptr (n + 4) = true
    · exact ⟨_, if_pos hfree⟩
    · rw [if_neg hfree]
      by_cases hend : mptr + pgSize = mend
      · rw [if_pos hend]
        by_cases htwo : nwrap + 1 = 2
        · exact ⟨_, if_pos htwo⟩
        · rw [if_neg htwo]
          refine ih (nwrap + 1) mbegin (by omega) (by decide) (by decide) ?_
          have hz : nwrap = 0 := by omega
          rw [hz] at hfuel ⊢
          simp only [pgSize, mend, mbegin] at hfuel hend ⊢
          omega
      · rw [if_neg hend]
        refine ih nwrap (mptr + pgSize) hwrap ?_ (by simpa using hal) ?_
        · simp only [pgSize, mend] at hlt hal hend ⊢
          omega
        · have hdiv : (mend - (mptr + pgSize)) / pgSize < (mend - mptr) / pgSize := by
            simp only [pgSize, mend] at hlt hal ⊢
            omega
          omega

theorem fresh_returns (n : Nat) (alloc : Nat → Option Nat) (hlt : h.mptr < mend)
    (hlo : mbegin ≤ h.mptr) (hal : h.mptr % pgSize = 0) : ∃ r, h.fresh n alloc = some r := by
  have hfuel : (mend - h.mptr) / pgSize + (1 - 0) * ((mend - mbegin) / pgSize) <
      Heap.searchFuel := by
    unfold Heap.searchFuel
    simp only [pgSize, mend, mbegin] at hlt hlo ⊢
    omega
  rcases search_returns h n 0 h.mptr (by omega) hlt hal hfuel with ⟨r, hs⟩
  exact ⟨_, by rw [Heap.fresh, hs, map_some]⟩

/-- What a program can rely on: its blocks are apart from each other, on pages of the heap
    that are there, and apart from the counts. -/
structure Safe (s : Session) : Prop where
  apart : s.live.Pairwise fun b c => b.1 + b.2 ≤ c.1 ∨ c.1 + c.2 ≤ b.1
  inside : ∀ b ∈ s.live, mbegin ≤ b.1 ∧ b.1 + b.2 ≤ mend
  mapped : ∀ b ∈ s.live, ∀ a, b.1 ≤ a → a < b.1 + b.2 → s.heap.present (a / pgSize) = true
  refs : ∀ b ∈ s.live, ∀ v, s.heap.present v = true → s.heap.continued v = false →
    b.1 + b.2 ≤ v * pgSize + (pgSize - 4) ∨ (v + 1) * pgSize ≤ b.1

theorem Heap.Ok.safe (hok : s.heap.Ok s.live) : Safe s := by
  refine ⟨hok.apart.imp ?_, ?_, ?_, ?_⟩
  · intro b c hbc
    exact hbc.imp (le_trans (Nat.add_le_add_left (le_size b) _))
      (le_trans (Nat.add_le_add_left (le_size c) _))
  · intro b hb
    have hsz := le_size b
    have hhi := (hok.blocks b hb).hi
    refine ⟨(hok.blocks b hb).lo, ?_⟩
    unfold last at hhi
    simp only [pgSize, mend] at hhi ⊢
    omega
  · intro b hb a hlo hhi
    have hsz := le_size b
    refine (hok.blocks b hb).present (a / pgSize) (Nat.div_le_div_right hlo) ?_
    exact Nat.div_le_div_right (by omega)
  · intro b hb v _ hcont
    have hsz := le_size b
    rcases (hok.blocks b hb).off_ref (Bool.eq_false_iff.1 hcont) with hoff | hoff
    · exact .inl (by omega)
    · exact .inr hoff

/-- A program that has fewer than `2 ^ 32` blocks whenever it goes on is safe, whatever it
    asks for, frees and writes. -/
theorem heap_safe (s s' : Session) (hstart : Start s)
    (hrun : Run step (fun s _ => s.live.length < 2 ^ 32) s s') : Safe s' :=
  Heap.Ok.safe (hrun.invariant (fun s => s.heap.Ok s.live)
    (fun _ _ _ hok hlen hs => step_ok hok hlen hs) hstart.ok)

/-- A program before its first call. -/
def blank : Session := ⟨⟨fun _ => 0, fun _ => 0, 0⟩, []⟩

theorem blank_start : Start blank := ⟨rfl, fun _ _ _ => rfl, rfl⟩

/-- The first block, of one word. -/
theorem blank_malloc : ∃ s, step blank (.malloc 4 fun _ => some 0) = some s ∧
    s.heap.mptr = mbegin + 4 ∧ s.live = [(mbegin, 4)] ∧ s.heap.continued (mbegin / pgSize) = false ∧
      s.heap.ref (mbegin / pgSize) = 2 := by
  have h : ((step blank (.malloc 4 fun _ => some 0)).map fun s =>
      (s.heap.mptr, s.live, s.heap.continued (mbegin / pgSize), s.heap.ref (mbegin / pgSize))) =
      some (mbegin + 4, [(mbegin, 4)], false, 2) := by decide +kernel
  rcases map_eq_some_iff.1 h with ⟨s, hs, hv⟩
  simp only [Prod.mk.injEq] at hv
  exact ⟨s, hs, hv.1, hv.2.1, hv.2.2.1, hv.2.2.2⟩

/-- A word, a block of two pages, and one behind it after the word was written and freed. -/
theorem heap_safe_three : ∃ s', s'.live = [(mbegin + 10096, 100), (mbegin + 4096, 6000)] ∧
    Safe s' := by
  have h : (Lib.checkEvents step (fun s _ => decide (s.live.length < 2 ^ 32)) blank
      [.malloc 4 fun _ => some 0, .malloc 6000 fun _ => some 0, .write (mbegin + 2) 9,
        .free mbegin 4, .malloc 100 fun _ => some 0]).map Session.live =
      some [(mbegin + 10096, 100), (mbegin + 4096, 6000)] := by decide +kernel
  rcases map_eq_some_iff.1 h with ⟨s, hs, hlive⟩
  exact ⟨s, hlive, heap_safe blank s blank_start
    (Run.of_checkEvents (fun _ _ => of_decide_eq_true) _ _ _ hs)⟩

/-- One word, and `k` blocks of no bytes behind it. -/
structure Crowded (k : Nat) (s : Session) : Prop where
  mptr : s.heap.mptr = mbegin + 4
  live : s.live = List.replicate k (mbegin + 4, 0) ++ [(mbegin, 4)]
  ends : s.heap.continued (mbegin / pgSize) = false
  ref : s.heap.ref (mbegin / pgSize) = (k + 2) % 2 ^ 32

/-- A block of no bytes more. -/
theorem Crowded.malloc (h : Crowded k s) :
    ∃ s', step s (.malloc 0 fun _ => none) = some s' ∧ Crowded (k + 1) s' := by
  have hm : s.heap.malloc 0 (fun _ => none) =
      some (mbegin + 4, { s.heap.setRef (mbegin / pgSize) (s.heap.ref (mbegin / pgSize) + 1) with
        mptr := mbegin + 4 }) := by
    have hptr : s.heap.mptr ≠ 0 := by
      rw [h.mptr]
      decide
    rw [Heap.malloc, if_neg hptr]
    dsimp only
    rw [if_neg (by decide), h.mptr, if_pos (by decide), if_pos (by decide)]
    rfl
  have hstep : step s (.malloc 0 fun _ => none) =
      some ⟨{ s.heap.setRef (mbegin / pgSize) (s.heap.ref (mbegin / pgSize) + 1) with
        mptr := mbegin + 4 }, (mbegin + 4, 0) :: s.live⟩ := by
    rw [step, if_pos (by decide), hm]
    rfl
  refine ⟨_, hstep, rfl, ?_, h.ends, ?_⟩
  · dsimp only
    rw [h.live, List.replicate_succ, List.cons_append]
  · refine (refOf_store_self s.heap.mem (mbegin / pgSize) _).trans ?_
    rw [h.ref]
    omega

theorem crowded (k : Nat) : ∃ s, Run step (fun _ _ => True) blank s ∧ Crowded k s := by
  induction k with
  | zero =>
    rcases blank_malloc with ⟨s, hs, hmptr, hlive, hends, href⟩
    exact ⟨s, Relation.ReflTransGen.single ⟨_, trivial, hs⟩, hmptr, hlive, hends, href⟩
  | succ k ih =>
    rcases ih with ⟨s, hrun, hk⟩
    rcases hk.malloc with ⟨s', hs, hk'⟩
    exact ⟨s', hrun.tail ⟨_, trivial, hs⟩, hk'⟩

/-- One of them is freed when the count is 1: the page is gone. -/
theorem Crowded.free (h : Crowded k s) (hpos : k ≠ 0) (hone : (k + 2) % 2 ^ 32 = (0 + 1) % 2 ^ 32) :
    ∃ heap live, step s (.free (mbegin + 4) 0) = some ⟨heap, live⟩ ∧
      heap.vpt (mbegin / pgSize) = 0 ∧ (mbegin, 4) ∈ live := by
  have href : refOf s.heap.mem (mbegin / pgSize) = (0 + 1) % 2 ^ 32 := h.ref.trans hone
  rcases dropRef_spec href (Nat.two_pow_pos 32) with ⟨-, hgone, -⟩
  rw [if_pos rfl] at hgone
  have hmem : (mbegin + 4, 0) ∈ s.live := by
    rw [h.live]
    exact List.mem_append_left _ (List.mem_replicate.2 ⟨hpos, rfl⟩)
  have hfree : s.heap.free (mbegin + 4) = some (s.heap.dropRef (mbegin / pgSize)) := by
    have hpage : (mbegin + 4) / pgSize = mbegin / pgSize := by decide
    rw [free_unmarked s.heap (mbegin + 4) (by decide) (by decide)
      (hpage ▸ Bool.eq_false_iff.1 h.ends), hpage]
  refine ⟨s.heap.dropRef (mbegin / pgSize), s.live.erase (mbegin + 4, 0),
    step_free hmem hfree, hgone, ?_⟩
  refine (List.mem_erase_of_ne (by decide)).2 ?_
  rw [h.live]
  exact List.mem_append_right _ List.mem_cons_self

/-- With `2 ^ 32` blocks the count of a page is 1, so that the next call of `free` takes the
    page from under the others. -/
theorem heap_unsafe :
    ∃ s s', Start s ∧ Run step (fun _ _ => True) s s' ∧ ¬Safe s' := by
  rcases crowded (2 ^ 32 - 1) with ⟨s, hrun, hk⟩
  rcases hk.free (by norm_num) (by norm_num) with ⟨heap, live, hstep, hgone, hword⟩
  refine ⟨blank, ⟨heap, live⟩, blank_start, hrun.tail ⟨_, trivial, hstep⟩, fun hsafe => ?_⟩
  have hin : (mbegin, 4).1 ≤ mbegin ∧ mbegin < (mbegin, 4).1 + (mbegin, 4).2 := by decide
  exact not_present_zero hgone (hsafe.mapped (mbegin, 4) hword mbegin hin.1 hin.2)

end Jos.Malloc
