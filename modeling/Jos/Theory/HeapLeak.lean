import Jos.Theory.HeapSearch

/-!
# Pages That Stay

What is left of a heap when a program has freed all its blocks. A page has one count for
each block that ends in it and one for `mptr`, and `malloc` gives the latter back when it
leaves the page. But it only looks for a page to leave if `mptr` is inside of it. A block
whose room is a multiple of the page size, 0 bytes included, leaves `mptr` at the beginning
of its last page, and the count for it is never given back.

## Main definitions

* `holders`: Who should be counted in a page.
* `Tight`: Every page is there for a block or for `mptr`.
* `NoLeak`: Without blocks there is only the page that is being filled.
* `Tidy`: The requests that do not leave `mptr` at the beginning of a page.

## Theorems

* `Tight.drop`: A count goes down, and the page goes with the last one.
* `Tight.fresh`: A block on pages of its own.
* `Tight.request`: One step.
* `noLeak_of_run`: All programs with such requests.
* `leak`: A block of no bytes, and one of a page.
-/

namespace Jos.Malloc

open Lib Lib.Bytes

variable {mptr v mptr' n : Nat} {h h' : Heap} {live : List (Nat × Nat)} {s : Session}
  {req : Request}

instance (mptr v : Nat) : Decidable (Open mptr v) := inferInstanceAs (Decidable (_ ∧ _))

/-- Who should be counted in a page: the blocks that end there, and `mptr` inside of it. -/
def holders (mptr : Nat) (live : List (Nat × Nat)) (v : Nat) : Nat :=
  attached live v + if Open mptr v then 1 else 0

/-- A page is there for a block that goes on on the next, or for those counted in it. -/
def Needed (h : Heap) (mptr : Nat) (live : List (Nat × Nat)) (v : Nat) : Prop :=
  (∃ b ∈ live, first b ≤ v ∧ v < last b) ∨
    (¬Continued h.vpt v ∧ refOf h.mem v = holders mptr live v % 2 ^ 32 ∧ 0 < holders mptr live v)

/-- Every page of the heap is needed. -/
def Tight (h : Heap) (mptr : Nat) (live : List (Nat × Nat)) : Prop :=
  ∀ v, mbegin / pgSize ≤ v → v < mend / pgSize → Present h.vpt v → Needed h mptr live v

/-- Without blocks only the page that is being filled is there. -/
def NoLeak (s : Session) : Prop :=
  s.live = [] → ∀ v, mbegin / pgSize ≤ v → v < mend / pgSize → s.heap.present v = true →
    Open s.heap.mptr v

theorem holders_cons (mptr : Nat) (b : Nat × Nat) (live : List (Nat × Nat)) (v : Nat) :
    holders mptr (b :: live) v = holders mptr live v + if last b = v then 1 else 0 := by
  rw [holders, attached_cons, holders]
  omega

/-- Only the page of `mptr` counts it. -/
theorem holders_closed (live : List (Nat × Nat)) (h : ¬Open mptr v) :
    holders mptr live v = attached live v := by
  rw [holders, if_neg h, Nat.add_zero]

theorem not_open_of_aligned (h : mptr % pgSize = 0) (v : Nat) : ¬Open mptr v :=
  fun hv => hv.1 h

theorem Needed.congr (hn : Needed h mptr live v) (hvpt : h'.vpt v = h.vpt v)
    (href : ¬Continued h.vpt v → refOf h'.mem v = refOf h.mem v)
    (hholders : holders mptr' live v = holders mptr live v) : Needed h' mptr' live v := by
  rcases hn with hblock | ⟨hends, hcount, hpos⟩
  · exact .inl hblock
  · refine .inr ⟨by rwa [Continued, hvpt], ?_, by rwa [hholders]⟩
    rw [href hends, hcount, hholders]

/-- The count of a page that is not marked is right. -/
theorem Needed.count (hn : Needed h mptr live v) (hblocks : ∀ b ∈ live, BlockOk h.vpt b)
    (hends : ¬Continued h.vpt v) : refOf h.mem v = holders mptr live v % 2 ^ 32 := by
  rcases hn with ⟨b, hb, hlo, hhi⟩ | hcount
  · exact absurd ((hblocks b hb).continued v hlo hhi) hends
  · exact hcount.2.1

/-- A count goes down, and the page goes with the last one. -/
theorem Tight.drop {c : Nat}
    (hrest : ∀ v, v ≠ c → mbegin / pgSize ≤ v → v < mend / pgSize → Present h.vpt v →
      Needed h mptr live v) (hends : ¬Continued h.vpt c)
    (href : refOf h.mem c = (holders mptr live c + 1) % 2 ^ 32)
    (hlt : holders mptr live c < 2 ^ 32) : Tight (h.dropRef c) mptr live := by
  rcases dropRef_spec href hlt with ⟨hother, hself, hrc, hro⟩
  intro v hlo hhi hp
  by_cases hv : v = c
  · rw [hv] at hp ⊢
    by_cases hz : holders mptr live c = 0
    · rw [if_pos hz] at hself
      exact absurd hp (not_present_zero hself)
    · rw [if_neg hz] at hself
      refine .inr ⟨by rwa [Continued, hself], ?_, Nat.pos_of_ne_zero hz⟩
      rw [hrc, Nat.mod_eq_of_lt hlt]
  · rw [Present, hother v hv] at hp
    exact (hrest v hv hlo hhi hp).congr (hother v hv) (fun _ => hro v hv) rfl

/-- A block is freed. -/
theorem Tight.free {b : Nat × Nat} (ht : Tight h mptr (b :: live))
    (hblocks : ∀ c ∈ b :: live, BlockOk h.vpt c) (hlen : live.length + 1 < 2 ^ 32)
    (hf : h.free b.1 = some h') : Tight h' mptr live := by
  have hb := hblocks b List.mem_cons_self
  have hfl := first_le_last b
  rcases hb.free with ⟨h1, hfree, -, hmem1, hvpt1⟩
  rw [hf, Option.some.injEq] at hfree
  have hr := hb.hasRef
  have hsame : ∀ v, ¬(first b ≤ v ∧ v < last b) → h1.vpt v = h.vpt v := fun v hv => by
    rw [hvpt1 v, if_neg hv]
  have hlast := hsame (last b) (by omega)
  have hcount := (ht _ hr.lo hr.hi hr.present).count hblocks hb.ends
  rw [holders_cons, if_pos rfl] at hcount
  rw [hfree]
  refine Tight.drop ?_ (by rw [Continued, hlast]; exact hb.ends) (by rw [hmem1, hcount]) ?_
  · intro v hv hlov hhiv hp
    -- the pages before the last one are gone
    have hout : ¬(first b ≤ v ∧ v < last b) := fun hin =>
      not_present_zero (by rw [hvpt1 v, if_pos hin]) hp
    rw [Present, hsame v hout] at hp
    rcases ht v hlov hhiv hp with ⟨c, hc, hin⟩ | ⟨hends, href, hpos⟩
    · rcases List.mem_cons.1 hc with hc | hc
      · exact absurd (hc ▸ hin) hout
      · exact .inl ⟨c, hc, hin⟩
    · rw [holders_cons, if_neg hv.symm, Nat.add_zero] at href hpos
      exact .inr ⟨by rwa [Continued, hsame v hout], by rwa [hmem1], hpos⟩
  · have hle := attached_le live (last b)
    unfold holders
    split
    · omega
    · omega

/-- `mptr` leaves the page that was being filled. -/
theorem Tight.left (ht : Tight h h.mptr live) (hinv : Inv h.vpt h.mem h.mptr live)
    (hlen : live.length < 2 ^ 32) (hopen : h.mptr % pgSize ≠ 0) (hal : mptr' % pgSize = 0) :
    Tight (h.dropRef (h.mptr / pgSize)) mptr' live := by
  rcases hinv.filling _ ⟨hopen, rfl⟩ with ⟨hr, -⟩
  have hcount := (ht _ hr.lo hr.hi hr.present).count hinv.blocks hr.ends
  rw [holders, if_pos ⟨hopen, rfl⟩] at hcount
  have hle := attached_le live (h.mptr / pgSize)
  have hno := not_open_of_aligned hal
  refine Tight.drop ?_ hr.ends (by rw [holders_closed live (hno _), hcount]) ?_
  · intro v hv hlo hhi hp
    refine (ht v hlo hhi hp).congr rfl (fun _ => rfl) ?_
    rw [holders_closed live (hno v), holders_closed live fun ho => hv ho.2.symm]
  · rw [holders_closed live (hno _)]
    omega

/-- A block in the page that is being filled. -/
theorem Tight.place (ht : Tight h h.mptr live) (hinv : Inv h.vpt h.mem h.mptr live)
    (hopen : h.mptr % pgSize ≠ 0)
    (hroom : h.mptr / pgSize = (h.mptr + Heap.roundup n - 1 + 4) / pgSize) :
    Tight (h.placed (Heap.roundup n)) (h.mptr + Heap.roundup n) ((h.mptr, n) :: live) := by
  rcases fits_page hinv.aligned hopen hroom with ⟨hlast, hend⟩
  rcases hinv.filling _ ⟨hopen, rfl⟩ with ⟨hr, -⟩
  have hcount := (ht _ hr.lo hr.hi hr.present).count hinv.blocks hr.ends
  intro v hlo hhi hp
  by_cases hv : v = h.mptr / pgSize
  · have hsum : holders (h.mptr + Heap.roundup n) ((h.mptr, n) :: live) v =
        holders h.mptr live v + 1 := by
      rw [holders_cons, if_pos (hlast.trans hv.symm), holders, if_pos (hv ▸ hend), holders,
        if_pos ⟨hopen, hv.symm⟩]
    refine .inr ⟨hv ▸ hr.ends, ?_, hsum ▸ Nat.succ_pos _⟩
    rw [hsum, hv]
    refine (refOf_store_self h.mem _ _).trans ?_
    have href : h.ref (h.mptr / pgSize) = _ := hcount
    rw [href]
    omega
  · have hsum : holders (h.mptr + Heap.roundup n) ((h.mptr, n) :: live) v =
        holders h.mptr live v := by
      rw [holders_cons, if_neg fun he => hv (he.symm.trans hlast), Nat.add_zero,
        holders_closed live fun ho => hv (ho.2.symm.trans hend.2),
        holders_closed live fun ho => hv ho.2.symm]
    rcases ht v hlo hhi hp with ⟨b, hb, hin⟩ | ⟨hends, href, hpos⟩
    · exact .inl ⟨b, List.mem_cons_of_mem _ hb, hin⟩
    · refine .inr ⟨hends, ?_, by rwa [hsum]⟩
      rw [hsum]
      exact (refOf_store_ne h.mem _ hv).trans href

/-- Nothing has come of asking for pages. -/
theorem Tight.frame (ht : Tight h mptr live) (hsame : Same h h') (hal : mptr % pgSize = 0)
    (hal' : mptr' % pgSize = 0) : Tight h' mptr' live := by
  intro v hlo hhi hp
  have hold := hsame.gone v hp
  refine (ht v hlo hhi hold).congr (hsame.kept v hold)
    (fun hends => hsame.refs v ⟨hlo, hhi, hold, hends⟩) ?_
  rw [holders_closed live (not_open_of_aligned hal v),
    holders_closed live (not_open_of_aligned hal' v)]

/-- A block on pages of its own, of which `mptr` is inside the last. -/
theorem Tight.fresh {q : Nat} (ht : Tight h mptr live) (hblocks : ∀ b ∈ live, BlockOk h.vpt b)
    (hg : Grown h h' q n) (hal : mptr % pgSize = 0) (hn : Heap.roundup n % pgSize ≠ 0) :
    Tight h' (q + Heap.roundup n) ((q, n) :: live) := by
  intro v hlo hhi hp
  by_cases hout : v < first (q, n) ∨ last (q, n) < v
  · rcases hg.kept v hout with ⟨hvpt, href⟩
    rw [Present, hvpt] at hp
    have hfl := first_le_last (q, n)
    have hne : v ≠ last (q, n) := by omega
    have hneed := (ht v hlo hhi hp).congr hvpt (fun _ => href)
      ((holders_closed live fun ho => hne ((hg.filling v).1 ho).2).trans
        (holders_closed live (not_open_of_aligned hal v)).symm)
    rcases hneed with ⟨b, hb, hin⟩ | hcount
    · exact .inl ⟨b, List.mem_cons_of_mem _ hb, hin⟩
    · refine .inr ?_
      rwa [holders_cons, if_neg hne.symm, Nat.add_zero]
  · by_cases hv : v = last (q, n)
    · -- two are counted in the last page: the block and `mptr`
      have hnone : attached live v = 0 := by
        rw [hv]
        exact attached_eq_zero.2 fun b hb => hg.unused (hblocks b hb)
      have htwo : holders (q + Heap.roundup n) ((q, n) :: live) v = 2 := by
        rw [holders_cons, if_pos hv.symm, holders, if_pos ((hg.filling v).2 ⟨hn, hv⟩), hnone]
      refine .inr ⟨hv ▸ hg.block.ends, ?_, htwo ▸ Nat.two_pos⟩
      rw [htwo, hv, hg.ref]
      rfl
    · exact .inl ⟨(q, n), List.mem_cons_self, by omega, by omega⟩

/-- The request does not leave `mptr` at the beginning of a page: the block is too large, fits
    in the page that is being filled or does not end with a page. And there are fewer than
    `2 ^ 32` blocks. -/
def Tidy (s : Session) : Request → Prop
  | .malloc n _ =>
    s.live.length < 2 ^ 32 ∧ (maxmalloc ≤ (Heap.roundupWord n).toNat ∨
      (s.heap.mptr % pgSize ≠ 0 ∧ ¬Misfit s.heap (Heap.roundupWord n).toNat) ∨
      (Heap.roundupWord n).toNat % pgSize ≠ 0)
  | .free _ _ => s.live.length < 2 ^ 32
  | .write _ _ => s.live.length < 2 ^ 32

theorem Tidy.length (h : Tidy s req) : s.live.length < 2 ^ 32 := by
  cases req with
  | malloc n alloc => exact h.1
  | free p n => exact h
  | write a x => exact h

/-- The heap in which a call asks for pages. -/
theorem Tight.asking {h1 : Heap} (ht : Tight h h.mptr live) (hok : h.Ok live)
    (hlen : live.length < 2 ^ 32) (hask : Asking h n h1) : Tight h1 h1.mptr live := by
  cases hask with
  | page hal =>
    have hmem : h.begun.mem = h.mem := by
      unfold Heap.begun
      split
      · rfl
      · rfl
    refine ht.frame ⟨fun v _ => congrFun (begun_vpt h) v, fun v hp => ?_, fun v _ => ?_⟩ hal
      ((begun_mod h).trans hal)
    · rwa [begun_vpt] at hp
    · rw [hmem]
  | left h2 hmis hfree hdrop =>
    have hinv := hok.begun
    rw [begun_eq hmis.1] at hinv
    have hleft := ht.left hinv hlen hmis.1
      (Nat.mul_mod_left ((h.mptr + pgSize) / pgSize) pgSize)
    rw [hdrop] at hleft
    exact fun v hlo hhi hp => (hleft v hlo hhi hp).congr rfl (fun _ => rfl) rfl

theorem Tight.malloc {p : Nat} {alloc : Nat → Option Nat} (ht : Tight h h.mptr live)
    (hok : h.Ok live) (hlen : live.length < 2 ^ 32) (htidy : maxmalloc ≤ Heap.roundup n ∨
      (h.mptr % pgSize ≠ 0 ∧ ¬Misfit h (Heap.roundup n)) ∨ Heap.roundup n % pgSize ≠ 0)
    (hm : h.malloc n alloc = some (p, h')) :
    Tight h' h'.mptr (if p = 0 then live else (p, n) :: live) := by
  have hinv := hok.begun
  rcases malloc_asking n alloc hok hlen with ⟨-, hres⟩ |
    ⟨hmax, ⟨hopen, hfit, hres⟩ | ⟨h1, hask, hinv1, hal, hres⟩⟩
  · rw [hres, Option.some.injEq, Prod.mk.injEq] at hm
    rw [← hm.1, ← hm.2, if_pos rfl]
    by_cases hopen : h.mptr % pgSize ≠ 0
    · rwa [begun_eq hopen]
    · exact ht.asking hok hlen (.page (n := n) (not_not.1 hopen))
  · rw [hres, Option.some.injEq, Prod.mk.injEq] at hm
    rw [begun_eq hopen] at hinv
    rw [← hm.1, ← hm.2, if_neg (ne_zero_of_lo hinv.lo)]
    exact ht.place hinv hopen hfit
  · rw [hres] at hm
    have ht1 := ht.asking hok hlen hask
    rcases fresh_spec hinv1.lo hal hm with ⟨hp, hsame, -, hal', -⟩ | ⟨hg, hptr⟩
    · rw [if_pos hp]
      exact ht1.frame hsame hal hal'
    · -- the call has searched, so it is the size that is right
      have hsize : Heap.roundup n % pgSize ≠ 0 := by
        rcases htidy with hbig | ⟨hopen, hfit⟩ | hsize
        · exact absurd hbig (Nat.not_le.2 hmax)
        · cases hask with
          | page haligned => exact absurd haligned hopen
          | left h2 hmis _ _ => exact absurd hmis hfit
        · exact hsize
      rw [if_neg (ne_zero_of_lo hg.lo), hptr]
      exact ht1.fresh hinv1.blocks hg hal hsize

/-- One step: every page of the heap stays needed. -/
theorem Tight.request {s' : Session} (ht : Tight s.heap s.heap.mptr s.live) (hok : s.heap.Ok s.live)
    (htidy : Tidy s req) (hs : Malloc.request s req = some s') :
    Tight s'.heap s'.heap.mptr s'.live := by
  have hlen := htidy.length
  cases req with
  | malloc n alloc =>
    rw [Malloc.request, Option.map_eq_some_iff] at hs
    rcases hs with ⟨⟨p, h'⟩, hm, hs'⟩
    rw [← hs']
    refine ht.malloc hok hlen ?_ hm
    rw [roundup_roundupWord]
    exact htidy.2
  | free p n =>
    rcases step_freed hs with ⟨hmem, heap, hf, hs'⟩
    have hperm := List.perm_cons_erase hmem
    have hl := hperm.length_eq
    rw [List.length_cons] at hl
    have ht' : Tight s.heap s.heap.mptr ((p, n) :: s.live.erase (p, n)) := by
      intro v hlo hhi hp
      have hsum : holders s.heap.mptr ((p, n) :: s.live.erase (p, n)) v =
          holders s.heap.mptr s.live v := by
        rw [holders, holders, attached, ← hperm.countP_eq, ← attached]
      rcases ht v hlo hhi hp with ⟨b, hb, hin⟩ | hcount
      · exact .inl ⟨b, hperm.mem_iff.1 hb, hin⟩
      · exact .inr (hsum.symm ▸ hcount)
    rw [hs', (fewer_free hf).1]
    exact ht'.free (fun c hc => hok.blocks c (hperm.mem_iff.2 hc)) (by omega) hf
  | write a x =>
    rcases step_written hs with ⟨⟨b, hb, hlo, hhi⟩, hs'⟩
    rw [hs']
    intro v hlov hhiv hp
    exact (ht v hlov hhiv hp).congr rfl
      (fun hends => (hok.blocks b hb).refOf_write s.heap.mem x hlo hhi hends) rfl

/-- In a program whose requests do not leave `mptr` at the beginning of a page there is, once
    all blocks are freed, no page of the heap but the one that is being filled. -/
theorem noLeak_of_run (s s' : Session) (hstart : Start s) (hrun : Run request Tidy s s') :
    NoLeak s' := by
  have hempty : Tight s.heap s.heap.mptr s.live := fun v hlo hhi hp =>
    absurd hp (not_present_zero (hstart.empty v hlo hhi))
  have hinv := hrun.invariant
    (fun s => Below s.heap s.live ∧ Tight s.heap s.heap.mptr s.live)
    (fun s req s' h htidy hs =>
      ⟨h.1.request htidy.length hs, h.2.request h.1.ok htidy hs⟩) ⟨hstart.below, hempty⟩
  intro hlive v hlo hhi hp
  rcases hinv.2 v hlo hhi hp with ⟨b, hb, -⟩ | ⟨-, -, hpos⟩
  · rw [hlive] at hb
    exact absurd hb List.not_mem_nil
  · -- nobody but `mptr` can be counted
    by_contra hclosed
    rw [holders_closed _ hclosed, hlive] at hpos
    exact absurd hpos (Nat.lt_irrefl 0)

/-- What a program has left after a request for `n` bytes, and after the block is freed. -/
def askAndFree (n : BitVec 64) : Option Session :=
  (request blank (.malloc n some)).bind fun s => request s (.free mbegin (Heap.roundupWord n).toNat)

theorem noLeak_of_run_word :
    ∃ s', askAndFree 4 = some s' ∧ s'.live = [] ∧ s'.heap.present (mbegin / pgSize) = true ∧
      NoLeak s' := by
  have hval : (askAndFree 4).map (fun s => (s.live, s.heap.present (mbegin / pgSize))) =
      some ([], true) := by decide +kernel
  rcases Option.map_eq_some_iff.1 hval with ⟨s', hs', hv⟩
  rw [Prod.mk.injEq] at hv
  refine ⟨s', hs', hv.1, hv.2, ?_⟩
  rcases Option.bind_eq_some_iff.1 hs' with ⟨s1, hs1, hs2⟩
  have hlen : (request blank (.malloc 4 some)).map (fun s => s.live.length) = some 1 := by
    decide +kernel
  rw [hs1, Option.map_some, Option.some.injEq] at hlen
  have htidy : Tidy s1 (.free mbegin (Heap.roundupWord 4).toNat) := by
    rw [Tidy, hlen]
    decide
  have hfirst : Tidy blank (.malloc 4 some) := ⟨by decide, .inr (.inr (by decide))⟩
  exact noLeak_of_run blank s' blank_start
    ((Relation.ReflTransGen.single ⟨_, hfirst, hs1⟩).tail ⟨_, htidy, hs2⟩)

/-- A block of no bytes, or of a page, leaves `mptr` at the beginning of its last page, which
    stays when the block is freed. -/
theorem leak :
    (∃ s', askAndFree 0 = some s' ∧ s'.heap.mptr = mbegin ∧ ¬NoLeak s') ∧
      ∃ s', askAndFree 4096 = some s' ∧ s'.heap.mptr = mbegin + pgSize ∧ ¬NoLeak s' := by
  have hleft : ∀ (r : Option Session) (q : Nat), q % pgSize = 0 → mbegin / pgSize ≤ q / pgSize →
      q / pgSize < mend / pgSize →
      r.map (fun s => (s.live, s.heap.mptr, s.heap.present (q / pgSize))) = some ([], q, true) →
      ∃ s', r = some s' ∧ s'.heap.mptr = q ∧ ¬NoLeak s' := by
    intro r q hal hlo hhi hval
    rcases Option.map_eq_some_iff.1 hval with ⟨s', hs', hv⟩
    simp only [Prod.mk.injEq] at hv
    refine ⟨s', hs', hv.2.1, fun hno => ?_⟩
    exact (hno hv.1 _ hlo hhi hv.2.2).1 (hv.2.1 ▸ hal)
  exact ⟨hleft _ mbegin (by decide) (by decide) (by decide) (by decide +kernel),
    hleft _ (mbegin + pgSize) (by decide) (by decide) (by decide) (by decide +kernel)⟩

end Jos.Malloc
