import Jos.Theory.Malloc

/-!
# The Search for Room

What `malloc` gives for a size of any value. The search goes over the pages of the heap in
two passes and then gives up, as long as it starts below `mend`; there are two slips around
it. When `mptr` leaves the last page of the heap it is `mend` itself, which the search only
tests for after a step, so it goes on behind the heap and does not come back. And the size
is rounded up before it is compared, so that the three largest sizes are taken for 0.

## Main definitions

* `searched`: The heap that the two passes go over.
* `Room`: A place that a pass stops at.
* `Good`: What a call of `malloc` should give.
* `Stuck`: The place to fill is in the last page, and the block does not fit.
* `Served`: When a call gives what it should.

## Theorems

* `search_gives_up`: The two passes have seen every page.
* `search_behind`: From `mend` on the search does not come back.
* `malloc_cases`: A call fails, fills a page further or searches.
* `mallocWord_good_iff`: All programs with fewer than `2 ^ 32` blocks.
* `mallocWord_not_good`: A size that is taken for 0, and a program that waits for ever.
-/

namespace Jos.Malloc

open Heap (allocLoop mallocWord pagesFor roundup roundupWord)
open Lib Lib.Bytes

variable {h h' : Heap} {live : List (Nat × Nat)} {p k n : Nat} {s : Session}
  {alloc : Nat → Option Nat}

/-! ## The two passes -/

/-- There is room for `n` bytes and a count at a page of the heap. -/
structure Room (h : Heap) (n q : Nat) : Prop where
  lo : mbegin ≤ q
  hi : q < mend
  aligned : q % pgSize = 0
  free : h.isfree q (n + 4) = true

/-- A search that gives up has passed over every page from where it started, and over the
    whole heap if it was not in its second pass. -/
theorem search_gives_up {fuel : Nat} : ∀ nwrap mptr q, nwrap < 2 →
    mptr % pgSize = 0 → h.search n fuel nwrap mptr = some (false, q) →
      q = mbegin ∧ ∀ r, Room h n r → nwrap = 1 ∧ r < mptr := by
  induction fuel with
  | zero =>
    intro nwrap mptr q _ _ hs
    exact absurd hs (by simp [Heap.search])
  | succ fuel ih =>
    intro nwrap mptr q hwrap hal hs
    rw [Heap.search] at hs
    by_cases hfree : h.isfree mptr (n + 4) = true
    · rw [if_pos hfree] at hs
      cases hs
    rw [if_neg hfree] at hs
    -- the page that was tried has no room
    have hne : ∀ r, Room h n r → r ≠ mptr := by
      intro r hr heq
      exact hfree (heq ▸ hr.free)
    by_cases hend : mptr + pgSize = mend
    · rw [if_pos hend] at hs
      have hlast : ∀ r, Room h n r → r < mptr := by
        intro r hr
        have hrm := hne r hr
        have hra := hr.aligned
        have hrhi := hr.hi
        simp only [pgSize, mend] at hrhi hra hend hal ⊢
        omega
      by_cases htwo : nwrap + 1 = 2
      · rw [if_pos htwo, Option.some.injEq, Prod.mk.injEq] at hs
        exact ⟨hs.2.symm, fun r hr => ⟨by omega, hlast r hr⟩⟩
      · rw [if_neg htwo] at hs
        -- the second pass starts at `mbegin`, and no page is below
        rcases ih (nwrap + 1) mbegin q (by omega) (by decide) hs with ⟨hq, hpass⟩
        exact ⟨hq, fun r hr => absurd hr.lo (Nat.not_le.2 (hpass r hr).2)⟩
    · rw [if_neg hend] at hs
      rcases ih nwrap (mptr + pgSize) q hwrap (by simpa using hal) hs with ⟨hq, hpass⟩
      refine ⟨hq, fun r hr => ⟨(hpass r hr).1, ?_⟩⟩
      have hlt := (hpass r hr).2
      have hrm := hne r hr
      have hra := hr.aligned
      simp only [pgSize] at hlt hra hal ⊢
      omega

/-- The pages of a block are free if none is there. -/
theorem isfree_of_pages {v : Nat} (hpages : ∀ i < pagesFor n,
      v + i * pgSize < mend ∧ h.present (v / pgSize + i) = false) : h.isfree v n = true := by
  rw [Heap.isfree, List.all_eq_true]
  intro i hi
  rcases hpages i (List.mem_range.1 hi) with ⟨hlt, hgone⟩
  rw [hgone, Bool.not_false, Bool.and_true]
  exact decide_eq_true hlt

/-- Nothing behind the heap is free. -/
theorem isfree_behind (h : Heap) {mptr : Nat} (n : Nat) (hend : mend ≤ mptr) :
    h.isfree mptr (n + 4) = false := by
  refine Bool.eq_false_iff.2 fun hfree => ?_
  have hin := (isfree_spec hfree 0 (by rw [pagesFor_eq]; exact Nat.succ_pos _)).1
  omega

/-- From `mend` on the search does not come back, however long it goes on. -/
theorem search_behind (h : Heap) (n fuel : Nat) : ∀ nwrap mptr, mend ≤ mptr →
    h.search n fuel nwrap mptr = none := by
  induction fuel with
  | zero =>
    intro nwrap mptr _
    rfl
  | succ fuel ih =>
    intro nwrap mptr hend
    have hne : mptr + pgSize ≠ mend := by
      simp only [pgSize]
      omega
    rw [Heap.search, if_neg (Bool.eq_false_iff.1 (isfree_behind h n hend)), if_neg hne]
    exact ih nwrap (mptr + pgSize) (by omega)

/-- The second half of `malloc` below `mend`: two passes without room, or the pages of the
    first place with room. -/
theorem fresh_cases (n : Nat) (alloc : Nat → Option Nat) (hlo : mbegin ≤ h.mptr)
    (hlt : h.mptr < mend) (hal : h.mptr % pgSize = 0) :
    ((∀ q, ¬Room h n q) ∧ h.fresh n alloc = some (0, { h with mptr := mbegin })) ∨
      ∃ q, Room h n q ∧ h.fresh n alloc = some (({ h with mptr := q } : Heap).grab n alloc) := by
  rcases fresh_returns n alloc hlt hlo hal with ⟨res, hres⟩
  rw [Heap.fresh, Option.map_eq_some_iff] at hres
  rcases hres with ⟨⟨found, q⟩, hs, -⟩
  have hfresh : h.fresh n alloc = some (if found then ({ h with mptr := q } : Heap).grab n alloc
      else (0, { h with mptr := q })) := by
    rw [Heap.fresh, hs, Option.map_some]
  cases found with
  | false =>
    rcases search_gives_up 0 h.mptr q (by omega) hal hs with ⟨hq, hpass⟩
    refine .inl ⟨fun r hr => absurd (hpass r hr).1 (by decide), ?_⟩
    rw [hfresh, if_neg Bool.false_ne_true, hq]
  | true =>
    rcases search_spec 0 h.mptr true q hs hlo hal with ⟨hqlo, hqal, hqfree⟩
    have hqhi := (isfree_spec (hqfree rfl) 0 (by rw [pagesFor_eq]; exact Nat.succ_pos _)).1
    refine .inr ⟨q, ⟨hqlo, by omega, hqal.1, hqfree rfl⟩, ?_⟩
    rw [hfresh, if_pos rfl]

/-- Behind the heap there is no second half. -/
theorem fresh_behind (n : Nat) (alloc : Nat → Option Nat) (hend : mend ≤ h.mptr) :
    h.fresh n alloc = none := by
  rw [Heap.fresh, search_behind h n _ 0 h.mptr hend, Option.map_none]

/-! ## A call -/

/-- The heap that the two passes of a call go over, if it comes to them: `mptr` is at a page,
    or has left the one that was being filled. -/
def searched (h : Heap) (n : Nat) : Option Heap :=
  if maxmalloc ≤ n then none
  else if h.begun.mptr % pgSize = 0 then some h.begun
  else if Misfit h.begun n then
    (h.begun.free h.begun.mptr).map fun h =>
      { h with mptr := (h.mptr + pgSize) / pgSize * pgSize }
  else none

/-- What a call that asks for `n` bytes and gives `p` should do: the heap is `h` before and
    `h'` afterwards. -/
structure Good (h : Heap) (n : BitVec 64) (p : Nat) (h' : Heap) : Prop where
  block : p = 0 ∨ mbegin ≤ p ∧ p < mend ∧ p + n.toNat ≤ mend ∧
    ∀ a, p ≤ a → a < p + n.toNat → h'.present (a / pgSize) = true
  big : maxmalloc ≤ n.toNat → p = 0
  full : ∀ h1, searched h (roundupWord n).toNat = some h1 →
    (∀ q, ¬Room h1 (roundupWord n).toNat q) → p = 0

/-- The page that is being filled is the last one, and the block does not fit in it. -/
def Stuck (h : Heap) (n : Nat) : Prop := Misfit h n ∧ h.mptr / pgSize + 1 = mend / pgSize

/-- When a call gives what it should. A size that is not too large for the rounding is
    served unless the last page is being left. The other sizes are taken for 0 bytes, and
    there must be no room for these. -/
def Served (h : Heap) (n : BitVec 64) (alloc : Nat → Option Nat) : Prop :=
  if n.toNat + 3 < 2 ^ 64 then
    maxmalloc ≤ roundup n.toNat ∨ ¬Stuck h (roundup n.toNat)
  else
    h.mptr % pgSize = 0 ∧ ((∀ v, mbegin / pgSize ≤ v → v < mend / pgSize → h.present v = true) ∨
      alloc 0 = none)

theorem roundupWord_toNat (n : BitVec 64) :
    (roundupWord n).toNat =
      if n.toNat + 3 < 2 ^ 64 then roundup n.toNat else 0 := by
  have hsum : (n + 4 - 1).toNat = (n.toNat + 3) % 2 ^ 64 := by bv_omega
  have hlt := n.isLt
  have hle : (n + 4 - 1) % 4 ≤ n + 4 - 1 := by
    rw [BitVec.le_def, BitVec.toNat_umod]
    exact Nat.mod_le _ _
  rw [roundupWord, BitVec.toNat_sub_of_le hle, BitVec.toNat_umod, hsum, roundup]
  change _ - _ % 4 = _
  by_cases hn : n.toNat + 3 < 2 ^ 64
  · rw [if_pos hn, Nat.mod_eq_of_lt hn]
    omega
  · rw [if_neg hn]
    omega

theorem roundup_roundupWord (n : BitVec 64) :
    roundup (roundupWord n).toNat = (roundupWord n).toNat := by
  rw [roundupWord_toNat]
  by_cases hn : n.toNat + 3 < 2 ^ 64
  · rw [if_pos hn]
    unfold roundup
    omega
  · rw [if_neg hn]
    rfl

/-- A heap in order, with `mptr` below its end. -/
structure Below (h : Heap) (live : List (Nat × Nat)) : Prop where
  ok : h.Ok live
  lt : h.mptr < mend

theorem Below.begun (hb : Below h live) :
    h.begun.mptr < mend := by
  unfold Heap.begun
  split
  · exact (by decide : mbegin < mend)
  · exact hb.lt

/-- A call fails as the size is too large, fills a page further, or searches a heap in
    order from a page on. -/
theorem malloc_cases (hb : Below h live) (hlen : live.length < 2 ^ 32) (alloc : Nat → Option Nat)
    (hn : roundup n = n) :
    (maxmalloc ≤ n ∧ searched h n = none ∧ h.malloc n alloc = some (0, h.begun)) ∨
    (n < maxmalloc ∧ h.mptr % pgSize ≠ 0 ∧ ¬Misfit h n ∧ searched h n = none ∧
      ∃ h', h.malloc n alloc = some (h.mptr, h') ∧ h'.mptr = h.mptr + n) ∨
    (n < maxmalloc ∧ ∃ h1, searched h n = some h1 ∧ h.malloc n alloc = h1.fresh n alloc ∧
      mbegin ≤ h1.mptr ∧ h1.mptr % pgSize = 0 ∧
      ((h.mptr % pgSize = 0 ∧ h1 = h.begun ∧ h1.mptr < mend) ∨
        (Misfit h n ∧ h1.mptr = (h.mptr + pgSize) / pgSize * pgSize ∧
          h.free h.mptr = some { h1 with mptr := h.mptr }))) := by
  have hcall := malloc_asking n alloc hb.ok hlen
  rw [hn] at hcall
  rw [searched]
  rcases hcall with ⟨hbig, hres⟩ | ⟨hmax, ⟨hopen, hfit, hres⟩ | ⟨h1, hask, hinv, hal, hres⟩⟩
  · exact .inl ⟨hbig, if_pos hbig, hres⟩
  · refine .inr (.inl ⟨hmax, hopen, fun hmis => hmis.2 hfit, ?_, _, hres, rfl⟩)
    rw [if_neg (Nat.not_le.2 hmax), begun_eq hopen, if_neg hopen, if_neg fun hmis => hmis.2 hfit]
  refine .inr (.inr ⟨hmax, h1, ?_, hres, hinv.lo, hal, ?_⟩)
  · rw [if_neg (Nat.not_le.2 hmax)]
    cases hask with
    | page haligned => exact if_pos ((begun_mod h).trans haligned)
    | left h2 hmis hfree hdrop =>
      rw [begun_eq hmis.1, if_neg hmis.1, if_pos hmis, hfree, Option.map_some,
        (fewer_free hfree).1]
  · cases hask with
    | page haligned => exact .inl ⟨haligned, rfl, hb.begun⟩
    | left h2 hmis hfree hdrop =>
      refine .inr ⟨hmis, rfl, ?_⟩
      rw [hfree, ← (fewer_free hfree).1]

/-! ## Programs -/

/-- `mptr` stays below `mend`. -/
theorem mallocWord_below (hb : Below h live) (hlen : live.length < 2 ^ 32) {n : BitVec 64}
    (hm : h.mallocWord n alloc = some (p, h')) :
    Below h' (if p = 0 then live else (p, (roundupWord n).toNat) :: live) := by
  have hlt := hb.lt
  refine ⟨malloc_spec hb.ok hlen hm, ?_⟩
  rcases malloc_asking (roundupWord n).toNat alloc hb.ok hlen with ⟨-, hres⟩ |
    ⟨-, ⟨hopen, hfit, hres⟩ | ⟨h1, -, hinv1, hal, hres⟩⟩
  · rw [mallocWord, hres] at hm
    cases hm
    exact hb.begun
  · rw [mallocWord, hres] at hm
    cases hm
    simp only [Heap.placed, pgSize, mend] at hfit hlt hopen ⊢
    omega
  · rw [mallocWord, hres] at hm
    rcases fresh_spec hinv1.lo hal hm with ⟨-, -, -, -, hend⟩ | ⟨hg, hptr⟩
    · exact hend
    · exact lt_of_eq_of_lt hptr hg.below

/-- One step keeps the heap in order and `mptr` below `mend`, as long as the counts do not
    overflow. -/
theorem Below.request {s' : Session} {req : Request} (hb : Below s.heap s.live)
    (hlen : s.live.length < 2 ^ 32) (hs : Malloc.request s req = some s') :
    Below s'.heap s'.live := by
  cases req with
  | malloc n alloc =>
    rw [Malloc.request, Option.map_eq_some_iff] at hs
    rcases hs with ⟨⟨p, h'⟩, hm, hs'⟩
    rw [← hs']
    exact mallocWord_below hb hlen hm
  | free p n =>
    rw [Malloc.request] at hs
    refine ⟨step_ok hb.ok hlen hs, ?_⟩
    rcases step_freed hs with ⟨-, heap, hf, hs'⟩
    rw [hs']
    exact lt_of_eq_of_lt (fewer_free hf).1 hb.lt
  | write a x =>
    rw [Malloc.request] at hs
    refine ⟨step_ok hb.ok hlen hs, ?_⟩
    rw [(step_written hs).2]
    exact hb.lt

theorem Start.below (h : Start s) : Below s.heap s.live :=
  ⟨h.ok, by rw [h.mptr]; decide⟩

theorem good_zero (h : Heap) (n : BitVec 64) (h' : Heap) : Good h n 0 h' :=
  ⟨.inl rfl, fun _ => rfl, fun _ _ _ => rfl⟩

/-- A block of a heap in order is where it should be. -/
theorem Returned.block (hr : Returned n live p h') (hk : k ≤ n) :
    p = 0 ∨ mbegin ≤ p ∧ p < mend ∧ p + k ≤ mend ∧
      ∀ a, p ≤ a → a < p + k → h'.present (a / pgSize) = true := by
  by_cases hz : p = 0
  · exact .inl hz
  · rw [Returned, if_neg hz] at hr
    have hsafe := Heap.Ok.safe (s := ⟨h', (p, n) :: live⟩) hr
    have hin := hsafe.inside (p, n) List.mem_cons_self
    have hhi := (hr.blocks (p, n) List.mem_cons_self).hi
    have hsz := le_size (p, n)
    refine .inr ⟨hin.1, ?_, le_trans (Nat.add_le_add_left hk p) hin.2, ?_⟩
    · unfold last at hhi
      simp only [pgSize, mend] at hhi ⊢
      omega
    · intro a hlo hhi
      exact hsafe.mapped (p, n) List.mem_cons_self a hlo
        (lt_of_lt_of_le hhi (Nat.add_le_add_left hk p))

/-- `mptr` leaves a page, and the heap if it is the last. -/
theorem moved_lt_iff {mptr : Nat} (hlt : mptr < mend) :
    (mptr + pgSize) / pgSize * pgSize < mend ↔ mptr / pgSize + 1 ≠ mend / pgSize := by
  simp only [pgSize, mend] at hlt ⊢
  omega

/-- A size that the rounding does not spoil. -/
theorem mallocWord_small (hb : Below h live) (hlen : live.length < 2 ^ 32) {n : BitVec 64}
    (alloc : Nat → Option Nat) (hn : n.toNat + 3 < 2 ^ 64) :
    (∃ p h', h.mallocWord n alloc = some (p, h') ∧ Good h n p h') ↔
      (maxmalloc ≤ roundup n.toNat ∨ ¬Stuck h (roundup n.toNat)) := by
  have hword : (roundupWord n).toNat = roundup n.toNat := by
    rw [roundupWord_toNat, if_pos hn]
  clear hn
  have hle : n.toNat ≤ roundup n.toNat := le_size (0, n.toNat)
  have hlt := hb.lt
  -- what comes back is a block, so only the last part of `Good` is open
  have hgood : ∀ p h', h.mallocWord n alloc = some (p, h') →
      roundup n.toNat < maxmalloc →
      (∀ h1, searched h (roundup n.toNat) = some h1 →
        (∀ q, ¬Room h1 (roundup n.toNat) q) → p = 0) → Good h n p h' := by
    intro p h' hm hmax hfull
    refine ⟨?_, fun hbig => absurd hbig (by omega), by rwa [hword]⟩
    exact Returned.block (malloc_spec hb.ok hlen hm) (by rwa [hword])
  have hcases := malloc_cases hb hlen alloc (roundup_roundupWord n)
  rw [← mallocWord, hword] at hcases
  rcases hcases with ⟨hbig, -, hres⟩ | ⟨hmax, -, hfit, hno, h', hres, -⟩ |
    ⟨hmax, h1, hsearch, hres, hlo, hal, hwhere⟩
  · exact ⟨fun _ => .inl hbig, fun _ => ⟨0, _, hres, good_zero h n _⟩⟩
  · refine ⟨fun _ => .inr fun hstuck => hfit hstuck.1, fun _ => ⟨_, h', hres, ?_⟩⟩
    exact hgood _ _ hres hmax fun h1 hs => absurd (hno.symm.trans hs) (by simp)
  -- the search comes back if it starts below `mend`
  have hback : h1.mptr < mend ↔ ¬Stuck h (roundup n.toNat) := by
    rcases hwhere with ⟨haligned, -, hend⟩ | ⟨hmis, hptr, -⟩
    · exact ⟨fun _ hstuck => hstuck.1.1 haligned, fun _ => hend⟩
    · rw [hptr, moved_lt_iff hlt]
      exact ⟨fun hne hstuck => hne hstuck.2, fun hstuck heq => hstuck ⟨hmis, heq⟩⟩
  by_cases hend : h1.mptr < mend
  · refine ⟨fun _ => .inr (hback.1 hend), fun _ => ?_⟩
    rcases fresh_cases _ alloc hlo hend hal with ⟨-, hfresh⟩ | ⟨q, hroom, hfresh⟩
    · exact ⟨0, _, hres.trans hfresh, good_zero h n _⟩
    · rcases hgrab : ({ h1 with mptr := q } : Heap).grab (roundup n.toNat) alloc with ⟨p, h'⟩
      rw [hgrab] at hfresh
      refine ⟨p, h', hres.trans hfresh, hgood p h' (hres.trans hfresh) hmax ?_⟩
      intro h2 hs hnone
      rw [hsearch] at hs
      cases hs
      exact absurd hroom (hnone q)
  · refine ⟨?_, ?_⟩
    · rintro ⟨p, h', hm, -⟩
      rw [hres, fresh_behind _ alloc (Nat.not_lt.1 hend)] at hm
      cases hm
    · intro hserved
      rcases hserved with hbig | hstuck
      · exact absurd hbig (Nat.not_le.2 hmax)
      · exact absurd (hback.2 hstuck) hend

/-- There is room for no bytes and a count as long as a page is not there. -/
theorem room_zero_iff (h : Heap) :
    (∀ q, ¬Room h 0 q) ↔
      ∀ v, mbegin / pgSize ≤ v → v < mend / pgSize → h.present v = true := by
  refine ⟨fun hnone v hlo hhi => ?_, fun hall q hroom => ?_⟩
  · by_contra hgone
    have hdiv : v * pgSize / pgSize = v := Nat.mul_div_cancel v (by decide)
    refine hnone (v * pgSize) ⟨?_, ?_, Nat.mul_mod_left _ _, ?_⟩
    · simp only [pgSize, mbegin] at hlo ⊢
      omega
    · simp only [pgSize, mend] at hhi ⊢
      omega
    · refine isfree_of_pages fun i hi => ?_
      have hzero : i = 0 := by
        rw [pagesFor_eq] at hi
        simp only [pgSize] at hi
        omega
      rw [hzero, hdiv, Nat.add_zero]
      refine ⟨?_, Bool.eq_false_iff.2 hgone⟩
      simp only [pgSize, mend] at hhi ⊢
      omega
  · have hfree := (isfree_spec hroom.free 0 (by rw [pagesFor_eq]; exact Nat.succ_pos _)).2
    refine hfree (hall _ (Nat.div_le_div_right hroom.lo) ?_)
    have hhi := hroom.hi
    simp only [pgSize, mend] at hhi ⊢
    omega

/-- A block of no bytes takes one page. -/
theorem grab_zero_iff (alloc : Nat → Option Nat) (hne : h.mptr ≠ 0) :
    (h.grab 0 alloc).1 = 0 ↔ alloc 0 = none := by
  have hone : pagesFor (0 + 4) = 1 := by decide
  cases halloc : alloc 0 with
  | none =>
    have hloop : h.allocLoop (h.mptr / pgSize) 0 alloc 0 (pagesFor (0 + 4)) =
        (h, some 0) := by
      rw [hone, allocLoop, halloc]
    rw [grab_failed hloop]
    exact ⟨fun _ => rfl, fun _ => rfl⟩
  | some pp =>
    have hloop : ∃ h1, h.allocLoop (h.mptr / pgSize) 0 alloc 0 (pagesFor (0 + 4)) =
        (h1, none) := by
      rw [hone, allocLoop, halloc]
      exact ⟨_, rfl⟩
    rcases hloop with ⟨h1, hloop⟩
    rw [grab_done hloop]
    exact ⟨fun hz => absurd hz hne, fun hno => by cases hno⟩

/-- A size that the rounding takes for 0. -/
theorem mallocWord_large (hb : Below h live) (hlen : live.length < 2 ^ 32) {n : BitVec 64}
    (alloc : Nat → Option Nat) (hn : ¬n.toNat + 3 < 2 ^ 64) :
    (∃ p h', h.mallocWord n alloc = some (p, h') ∧ Good h n p h') ↔
      (h.mptr % pgSize = 0 ∧
        ((∀ v, mbegin / pgSize ≤ v → v < mend / pgSize → h.present v = true) ∨
          alloc 0 = none)) := by
  have hword : (roundupWord n).toNat = 0 := by rw [roundupWord_toNat, if_neg hn]
  -- only 0 is right for such a size
  have hgood : ∀ p h', Good h n p h' ↔ p = 0 := by
    intro p h'
    refine ⟨fun hg => hg.big ?_, fun hz => hz ▸ good_zero h n h'⟩
    simp only [maxmalloc]
    omega
  simp only [hgood]
  have hcases := malloc_cases hb hlen alloc (roundup_roundupWord n)
  rw [← mallocWord, hword] at hcases
  rcases hcases with ⟨hbig, -⟩ | ⟨-, hopen, -, -, h', hres, -⟩ |
    ⟨-, h1, -, hres, hlo, hal, ⟨haligned, hh1, hend⟩ | ⟨hmis, -⟩⟩
  · cases hbig
  · refine ⟨?_, fun hserved => absurd hserved.1 hopen⟩
    rintro ⟨p, h2, hm, hz⟩
    rw [hres, Option.some.injEq, Prod.mk.injEq, hz] at hm
    rw [hm.1] at hopen
    exact absurd rfl hopen
  · have hpages : ∀ v, h1.present v = h.present v := by
      intro v
      rw [hh1, Heap.present, begun_vpt, ← Heap.present]
    have hroom := room_zero_iff h1
    simp only [hpages] at hroom
    rw [← hroom]
    rcases fresh_cases 0 alloc hlo hend hal with ⟨hnone, hfresh⟩ | ⟨q, hq, hfresh⟩
    · exact ⟨fun _ => ⟨haligned, .inl hnone⟩, fun _ => ⟨0, _, hres.trans hfresh, rfl⟩⟩
    · rw [hres, hfresh]
      have hgrab := grab_zero_iff (h := { h1 with mptr := q }) alloc (ne_zero_of_lo hq.lo)
      refine ⟨?_, ?_⟩
      · rintro ⟨p, h2, hm, hz⟩
        rw [Option.some.injEq] at hm
        exact ⟨haligned, .inr (hgrab.1 (by rwa [hm]))⟩
      · intro hserved
        rcases hserved.2 with hnone | hfail
        · exact absurd hq (hnone q)
        · exact ⟨_, _, rfl, hgrab.2 hfail⟩
  · -- no bytes and a count always fit, as `mptr` is at a word
    have hopen := hmis.1
    have hno := hmis.2
    have hword4 := hb.ok.begun.aligned
    rw [begun_eq hopen] at hword4
    simp only [pgSize] at hopen hno
    omega

/-- In a program that has fewer than `2 ^ 32` blocks whenever it goes on, a call of `malloc`
    comes back with what it should exactly if the last page is not being left, and the size
    is not one that is taken for 0 while there is room for that. -/
theorem mallocWord_good_iff (s s' : Session) (hstart : Start s)
    (hrun : Run request (fun s _ => s.live.length < 2 ^ 32) s s')
    (hlen : s'.live.length < 2 ^ 32) (n : BitVec 64) (alloc : Nat → Option Nat) :
    (∃ p h', s'.heap.mallocWord n alloc = some (p, h') ∧ Good s'.heap n p h') ↔
      Served s'.heap n alloc := by
  have hb : Below s'.heap s'.live := hrun.invariant (fun s => Below s.heap s.live)
    (fun s req s' hb hlen hs => hb.request hlen hs) hstart.below
  rw [Served]
  by_cases hn : n.toNat + 3 < 2 ^ 64
  · rw [if_pos hn]
    exact mallocWord_small hb hlen alloc hn
  · rw [if_neg hn]
    exact mallocWord_large hb hlen alloc hn

/-- A block that does not fit behind the others in their last page. -/
theorem mallocWord_good_iff_next : ∃ s : Session, s.live = [(mbegin + 4096, 6000)] ∧
    Served s.heap 5000 (fun _ => some 0) ∧
      ∃ p h', s.heap.mallocWord 5000 (fun _ => some 0) = some (p, h') ∧ Good s.heap 5000 p h' := by
  have h : (Lib.checkEvents request (fun s _ => decide (s.live.length < 2 ^ 32)) blank
      [.malloc 4 fun _ => some 0, .malloc 6000 fun _ => some 0, .free mbegin 4]).map (fun s =>
        (s.live, s.heap.mptr)) = some ([(mbegin + 4096, 6000)], mbegin + 10096) := by decide +kernel
  rcases Option.map_eq_some_iff.1 h with ⟨s, hs, hfacts⟩
  rw [Prod.mk.injEq] at hfacts
  have hserved : Served s.heap 5000 (fun _ => some 0) := by
    rw [Served, if_pos (by decide)]
    refine .inr fun hstuck => absurd hstuck.2 ?_
    rw [hfacts.2]
    decide
  exact ⟨s, hfacts.1, hserved, (mallocWord_good_iff blank s blank_start
    (Run.of_checkEvents (fun _ _ => of_decide_eq_true) _ _ _ hs) (by rw [hfacts.1]; decide) 5000
      _).2 hserved⟩

/-! ## A program that waits for ever -/

/-- The loop over the pages of a block ends early only if there is no page. -/
theorem allocLoop_failed {s : Nat} {left : Nat} :
    ∀ (h h' : Heap) (i j : Nat), h.allocLoop s n alloc i left = (h', some j) →
      alloc j = none := by
  induction left with
  | zero =>
    intro h h' i j hl
    exact absurd hl (by simp [allocLoop])
  | succ left ih =>
    intro h h' i j hl
    rw [allocLoop] at hl
    cases halloc : alloc i with
    | none =>
      rw [halloc] at hl
      cases hl
      exact halloc
    | some pp =>
      rw [halloc] at hl
      exact ih _ h' (i + 1) j hl

/-- The search ends at once where there is room. -/
theorem fresh_here (alloc : Nat → Option Nat) (hfree : h.isfree h.mptr (n + 4) = true) :
    h.fresh n alloc = some (h.grab n alloc) := by
  rw [Heap.fresh, Heap.searchFuel, Heap.search, if_pos hfree, Option.map_some, if_pos rfl]

/-- The largest blocks there are, one behind the other from `mbegin` on. -/
structure Filled (k : Nat) (s : Session) : Prop where
  below : Below s.heap s.live
  length : s.live.length = k
  mptr : s.heap.mptr + 4 = mbegin + k * maxmalloc
  rest : ∀ v, mbegin / pgSize + k * 256 ≤ v → s.heap.present v = false

/-- One block more. -/
theorem Filled.more {h1 : Heap} (hb : Below s.heap s.live) (hlength : s.live.length = k)
    (hk : k < 128)
    (hm : s.heap.mallocWord 1048572 (fun _ => some 0) = h1.fresh 1048572 fun _ => some 0)
    (hptr : h1.mptr = mbegin + k * maxmalloc)
    (hrest : ∀ v, mbegin / pgSize + k * 256 ≤ v → h1.present v = false) :
    ∃ s', Malloc.request s (.malloc 1048572 fun _ => some 0) = some s' ∧ Filled (k + 1) s' := by
  have hpages : pagesFor (1048572 + 4) = 256 := by decide
  have hpage : h1.mptr / pgSize = mbegin / pgSize + k * 256 := by
    rw [hptr]
    simp only [pgSize, mbegin, maxmalloc]
    omega
  -- the search ends where it begins
  have hfree : h1.isfree h1.mptr (1048572 + 4) = true := by
    refine isfree_of_pages fun i hi => ⟨?_, hrest _ (by omega)⟩
    rw [hpages] at hi
    rw [hptr]
    simp only [pgSize, mbegin, mend, maxmalloc]
    omega
  rw [fresh_here _ hfree] at hm
  rcases hloop : h1.allocLoop (h1.mptr / pgSize) 1048572 (fun _ => some 0) 0
    (pagesFor (1048572 + 4)) with ⟨h2, r⟩
  cases r with
  | some j => cases (allocLoop_failed _ _ _ _ hloop)
  | none =>
    rcases allocLoop_spec _ h2 0 none hloop with ⟨-, hv, -⟩
    rw [grab_done hloop] at hm
    have hne : h1.mptr ≠ 0 := ne_zero_of_lo (hptr ▸ Nat.le_add_right _ _)
    have hstep : Malloc.request s (.malloc 1048572 fun _ => some 0) =
        some ⟨{ h2.setRef (h1.mptr / pgSize + (pagesFor (1048572 + 4) - 1)) 2 with
          mptr := h1.mptr + 1048572 },
          (h1.mptr, (roundupWord 1048572).toNat) :: s.live⟩ := by
      rw [Malloc.request, hm, Option.map_some, if_neg hne]
    refine ⟨_, hstep, hb.request (by omega) hstep, ?_, ?_, ?_⟩
    · rw [List.length_cons, hlength]
    · dsimp only
      rw [hptr]
      simp only [maxmalloc]
      omega
    · intro v hlo
      have hsame : h2.vpt v = h1.vpt v := hv v (by rw [hpages]; omega)
      change hasFlags (h2.vpt v) pteP = false
      rw [hsame]
      refine hrest v (le_trans (Nat.add_le_add_left ?_ _) hlo)
      exact Nat.mul_le_mul_right 256 (Nat.le_succ k)

/-- The page of the last block is full, so that a call leaves it; the heap behind it is as
    empty as before. -/
theorem Filled.leaves (h : Filled (k + 1) s) (hk : k < 128) {n : BitVec 64}
    (hround : (roundupWord n).toNat = n.toNat) (hpos : 0 < n.toNat) (hmax : n.toNat < maxmalloc) :
    ∃ h1 : Heap, s.heap.mallocWord n (fun _ => some 0) = h1.fresh n.toNat (fun _ => some 0) ∧
      h1.mptr = mbegin + (k + 1) * maxmalloc ∧
      ∀ v, mbegin / pgSize + (k + 1) * 256 ≤ v → h1.present v = false := by
  have hptr := h.mptr
  have hlen := h.length
  have hcases := malloc_cases h.below (by omega) (fun _ => some 0) (roundup_roundupWord n)
  rw [← mallocWord, hround] at hcases
  rcases hcases with ⟨hbig, -⟩ | ⟨-, hopen, hfit, -⟩ |
    ⟨-, h1, -, hres, -, -, ⟨haligned, -⟩ | ⟨-, hmoved, hfree⟩⟩
  · exact absurd hmax (Nat.not_lt.2 hbig)
  · refine absurd ⟨hopen, ?_⟩ hfit
    simp only [pgSize, mbegin, maxmalloc] at hptr ⊢
    omega
  · simp only [pgSize, mbegin, maxmalloc] at hptr haligned
    omega
  · refine ⟨h1, hres, ?_, fun v hlo => ?_⟩
    · rw [hmoved]
      simp only [pgSize, mbegin, maxmalloc] at hptr ⊢
      omega
    · -- the page that is left may go, but none comes
      have hgone := h.rest v hlo
      rcases (fewer_free hfree).2 v with hsame | hzero
      · exact (congrArg (fun e => hasFlags e pteP) hsame).trans hgone
      · exact Bool.eq_false_iff.2 (not_present_zero hzero)

theorem Filled.next (h : Filled (k + 1) s) (hk : k + 1 < 128) :
    ∃ s', Malloc.request s (.malloc 1048572 fun _ => some 0) = some s' ∧ Filled (k + 2) s' := by
  rcases h.leaves (n := 1048572) (by omega) (by decide) (by decide) (by decide) with
    ⟨h1, hres, hptr, hrest⟩
  exact Filled.more h.below h.length hk hres hptr hrest

theorem filled_one : ∃ s, Malloc.request blank (.malloc 1048572 fun _ => some 0) = some s ∧
    Filled 1 s := by
  have hcases := malloc_cases blank_start.below (by decide) (fun _ => some 0)
    (roundup_roundupWord 1048572)
  have hround : (roundupWord 1048572).toNat = 1048572 := by decide
  rw [← mallocWord, hround] at hcases
  rcases hcases with ⟨hbig, -⟩ | ⟨-, hopen, -⟩ |
    ⟨-, h1, -, hres, -, -, ⟨-, hh1, -⟩ | ⟨hmis, -⟩⟩
  · exact absurd hbig (by decide)
  · exact absurd rfl hopen
  · refine Filled.more blank_start.below rfl (by decide) hres ?_ ?_
    · rw [hh1]
      rfl
    · intro v _
      rw [hh1]
      exact Bool.eq_false_iff.2 (not_present_zero rfl)
  · exact absurd rfl hmis.1

theorem filled (k : Nat) (hk : k < 128) :
    ∃ s, Run Malloc.request (fun s _ => s.live.length < 2 ^ 32) blank s ∧ Filled (k + 1) s := by
  induction k with
  | zero =>
    rcases filled_one with ⟨s, hs, hone⟩
    exact ⟨s, Relation.ReflTransGen.single ⟨_, Nat.two_pow_pos 32, hs⟩, hone⟩
  | succ k ih =>
    rcases ih (by omega) with ⟨s, hrun, hfilled⟩
    rcases hfilled.next hk with ⟨s', hs, hnext⟩
    have hlen := hfilled.length
    exact ⟨s', hrun.tail ⟨_, (by omega), hs⟩, hnext⟩

/-- With the heap filled to its last word, a call for one word more does not come back. -/
theorem Filled.waits (h : Filled 128 s) :
    s.heap.mallocWord 4 (fun _ => some 0) = none := by
  rcases h.leaves (n := 4) (by decide) (by decide) (by decide) (by decide) with
    ⟨h1, hres, hptr, -⟩
  rw [hres]
  refine fresh_behind _ _ (le_of_eq ?_)
  rw [hptr]
  rfl

/-- In a new program the largest size gives a block, though it is above `MAXMALLOC`. And a
    program that has filled its heap with 128 blocks waits for ever for one word more. -/
theorem mallocWord_not_good :
    (∃ h', blank.heap.mallocWord (-1) (fun _ => some 0) = some (mbegin, h') ∧
      ¬Good blank.heap (-1) mbegin h') ∧
    ∃ s, Run request (fun s _ => s.live.length < 2 ^ 32) blank s ∧
      s.heap.mallocWord 4 (fun _ => some 0) = none := by
  refine ⟨?_, ?_⟩
  · have hval : (blank.heap.mallocWord (-1) fun _ => some 0).map Prod.fst = some mbegin := by
      decide +kernel
    rcases Option.map_eq_some_iff.1 hval with ⟨⟨p, h'⟩, hm, hp⟩
    dsimp only at hp
    rw [hp] at hm
    exact ⟨h', hm, fun hgood => absurd (hgood.big (by decide)) (by decide)⟩
  · rcases filled 127 (by decide) with ⟨s, hrun, hfilled⟩
    exact ⟨s, hrun, hfilled.waits⟩

end Jos.Malloc
