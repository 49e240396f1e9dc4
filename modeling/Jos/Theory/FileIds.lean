import Jos.Theory.OpenFiles

/-!
# The Ids of Open Files

Each time an entry of the table of open files is used again, `openfile_alloc`
adds `MAXOPEN` to its id, which is how the server tells the uses apart. The id
tells the entry by its remainder, and that stays so when the 32 bits of the id
wrap around.

The id is also the value that `openfile_alloc` returns, as an `int`, and its
caller takes a negative value for an error. From about the two millionth use of
an entry on, there is nothing wrong and still the open fails.

## Main definitions

* `Numbered`: The remainder of an id is the entry.
* `FailsProperly`: `openfile_alloc` fails for a reason only.
* `taken`, `Countable`: The entry that is used next, and that its id is not
  negative.

## Theorems

* `openfileAlloc_rest`, `World.step_rest`: Ids keep their remainders.
* `failsProperly_iff`: When `openfile_alloc` fails properly.
* `World.reuse`: An entry can be used any number of times.
* `World.fileids_iff`: Ids in the states of a run.
-/

namespace Jos.Fs

open Lib.Bytes (load)
open BitVec (ofNat toNat_ofNat)

variable {s : Server} {w w' : World} {i n : Nat}

/-- The id of an entry tells the entry by its remainder. -/
def Numbered (s : Server) : Prop := ∀ i < 1024, (s.opentab i).fileid.toNat % 1024 = i

/-- The ids have the remainders they had. -/
def SameRest (s s' : Server) : Prop :=
  ∀ i, (s'.opentab i).fileid.toNat % 1024 = (s.opentab i).fileid.toNat % 1024

/-- The first entry that no client has open: `openfile_alloc` takes it. -/
def taken (s : Server) : Option Nat :=
  (List.range 1024).find? fun i => pageref s i == 0 || pageref s i == 1

/-- The page of the entry has mappings other than the server's own: a client has
    it, or it is the page of a request. -/
def Shared (s : Server) (i : Nat) : Prop :=
  2 ≤ pageref s i ∧ ∃ p, s.fdPage i = some p ∧ (0 < p.clients ∨ s.request = some i)

/-- `openfile_alloc` fails only if all entries are shared, with `-E_MAX_OPEN`, or
    if `sys_page_alloc` fails for an entry without a page, with its error. -/
def FailsProperly (s : Server) : Prop :=
  ∀ nomem, (openfileAlloc s nomem).1 < 0 →
    (openfileAlloc s nomem).1 = eMaxOpen ∧ (∀ i < 1024, Shared s i) ∨
      nomem = some (openfileAlloc s nomem).1 ∧ ∃ i, taken s = some i ∧ pageref s i = 0

/-- The next id of the entry that is taken is not negative as an `int`. -/
def Countable (s : Server) : Prop :=
  ∀ i, taken s = some i → ((s.opentab i).fileid + 1024).toNat < 2 ^ 31

/-! ## Remainders -/

/-- Adding `MAXOPEN` keeps the remainder, also when it wraps around. -/
theorem rest_add (id : BitVec 32) : (id + 1024).toNat % 1024 = id.toNat % 1024 := by
  rw [BitVec.toNat_add]
  change (id.toNat + 1024) % 2 ^ 32 % 1024 = id.toNat % 1024
  omega

theorem openfileTake_rest (s : Server) (i : Nat) : SameRest s (openfileTake s i).2.2 := by
  intro j
  simp only [openfileTake, Server.setPage, Server.setEntry]
  by_cases hj : j = i
  · rw [if_pos hj, hj]
    exact rest_add _
  · rw [if_neg hj]

theorem openfileAlloc_rest (s : Server) (nomem : Option Int) :
    SameRest s (openfileAlloc s nomem).2.2 := by
  unfold openfileAlloc
  cases (List.range 1024).find? fun i => pageref s i == 0 || pageref s i == 1 with
  | none => exact fun _ => rfl
  | some i =>
    by_cases h0 : pageref s i = 0
    · simp only [if_pos h0]
      cases nomem with
      | none => exact openfileTake_rest (s.setPage i ⟨Fd.blank, 0⟩) i
      | some e => exact fun _ => rfl
    · simp only [if_neg h0]
      exact openfileTake_rest s i

theorem serveOpen_rest {s' : Server} {page : Mem} {nomem : Option Int} {r : Int} {pg : Option Nat}
    (h : serveOpen s page nomem = some (r, pg, s')) : SameRest s s' := by
  have hrest := openfileAlloc_rest s nomem
  unfold serveOpen at h
  rcases halloc : openfileAlloc s nomem with ⟨r1, i, s1⟩
  rw [halloc] at hrest h
  simp only at hrest h
  by_cases hr : r1 < 0
  · rw [if_pos hr] at h
    cases h
    exact hrest
  · rw [if_neg hr] at h
    split at h
    · cases h
    · cases h
      exact hrest
    · rcases Option.map_eq_some_iff.1 h with ⟨m', -, hm⟩
      cases hm
      intro j
      rw [← hrest j]
      simp only [Server.setPage, Server.setEntry, Server.setDisk]
      -- the file and the mode of the entry are set, not its id
      by_cases hj : j = i
      · rw [if_pos hj, hj]
      · rw [if_neg hj]

namespace World

theorem answer_opentab (s : Server) (pg : Option Nat) (accept : Bool) :
    (answer s pg accept).opentab = s.opentab := by
  unfold answer
  split <;> rfl

theorem onPage_opentab {k : FdPage → FdPage} (h : w.onPage i k = some w') :
    w'.server.opentab = w.server.opentab := by
  rcases Option.bind_eq_some_iff.1 h with ⟨p, -, hk⟩
  split at hk
  · rw [← Option.some.inj hk]
    rfl
  · cases hk

/-- No event of a run changes a remainder. -/
theorem step_rest {ev : Event} (h : step w ev = some w') :
    SameRest w.server w'.server := by
  have hsame : w'.server.opentab = w.server.opentab → SameRest w.server w'.server := by
    intro htab i
    rw [htab]
  cases ev with
  | share i => exact hsame (onPage_opentab h)
  | drop i => exact hsame (onPage_opentab h)
  | poke i fd =>
    rcases Option.map_eq_some_iff.1 h with ⟨p, -, rfl⟩
    exact hsame rfl
  | send o =>
    cases o with
    | none =>
      rw [← Option.some.inj h]
      exact fun _ => rfl
    | some i =>
      rcases Option.map_eq_some_iff.1 h with ⟨w1, hw, rfl⟩
      have htab := onPage_opentab hw
      exact hsame htab
  | serve req page nomem accept =>
    rcases Option.map_eq_some_iff.1 h with ⟨⟨r, pg, page', s'⟩, hrun, rfl⟩
    intro i
    dsimp only
    rw [answer_opentab]
    rcases handle_cases hrun with ⟨-, hq⟩ | hopen
    · rw [hq.opentab]
    · exact serveOpen_rest hopen i

theorem numbered_init (m : Mem) : Numbered (init m).server := by
  intro i hi
  change (ofNat 32 i).toNat % 1024 = i
  rw [toNat_ofNat]
  omega

end World

/-! ## Failures -/

theorem shared_of_pageref (h : 2 ≤ pageref s i) : Shared s i := by
  refine ⟨h, ?_⟩
  unfold pageref at h
  cases hp : s.fdPage i with
  | none =>
    rw [hp] at h
    cases h
  | some p =>
    refine ⟨p, rfl, ?_⟩
    by_contra hnot
    rw [not_or, Nat.not_lt, Nat.le_zero] at hnot
    simp only [hp, hnot.1, if_neg hnot.2] at h
    omega

/-- What `openfile_alloc` returns for the entry that is taken. -/
theorem openfileAlloc_taken (h : taken s = some i) (nomem : Option Int) :
    (openfileAlloc s nomem).1 = ((s.opentab i).fileid + 1024).toInt ∨
      nomem = some (openfileAlloc s nomem).1 ∧ pageref s i = 0 := by
  unfold taken at h
  unfold openfileAlloc
  rw [h]
  by_cases h0 : pageref s i = 0
  · cases nomem with
    | none =>
      left
      simp only [if_pos h0, openfileTake, Server.setPage]
    | some e =>
      right
      simp only [if_pos h0, true_and]
      exact h0
  · left
    simp only [if_neg h0, openfileTake]

theorem toInt_neg_iff (x : BitVec 32) : x.toInt < 0 ↔ 2 ^ 31 ≤ x.toNat := by
  have hlt := x.isLt
  rw [BitVec.toInt_eq_toNat_cond]
  by_cases hx : 2 * x.toNat < 2 ^ 32
  · rw [if_pos hx]
    omega
  · rw [if_neg hx]
    omega

theorem taken_pageref (h : taken s = some i) :
    i < 1024 ∧ (pageref s i = 0 ∨ pageref s i = 1) := by
  unfold taken at h
  refine ⟨List.mem_range.1 (List.mem_of_find?_eq_some h), ?_⟩
  have href := List.find?_some h
  simpa only [Bool.or_eq_true, beq_iff_eq] using href

theorem failsProperly_iff (s : Server) : FailsProperly s ↔ Countable s := by
  constructor
  · intro hfails i hi
    by_contra hlarge
    have hval : (openfileAlloc s none).1 = ((s.opentab i).fileid + 1024).toInt := by
      refine (openfileAlloc_taken hi none).resolve_right ?_
      rintro ⟨hnone, -⟩
      cases hnone
    have hneg : (openfileAlloc s none).1 < 0 := by
      rw [hval, toInt_neg_iff]
      omega
    -- the entry is not shared and no allocation has failed
    rcases hfails none hneg with ⟨-, hall⟩ | ⟨hnone, -⟩
    · rcases taken_pageref hi with ⟨hlt, href⟩
      have htwo := (hall i hlt).1
      omega
    · cases hnone
  · intro hcount nomem hneg
    cases htaken : taken s with
    | none =>
      left
      refine ⟨?_, fun i hi => ?_⟩
      · unfold taken at htaken
        unfold openfileAlloc
        rw [htaken]
      · unfold taken at htaken
        have hnot := List.find?_eq_none.1 htaken i (List.mem_range.2 hi)
        simp only [Bool.or_eq_true, beq_iff_eq, not_or] at hnot
        exact shared_of_pageref (by omega)
    | some i =>
      right
      rcases openfileAlloc_taken htaken nomem with hval | ⟨hnomem, h0⟩
      · rw [hval, toInt_neg_iff] at hneg
        exact absurd (hcount i htaken) (by omega)
      · exact ⟨hnomem, i, rfl, h0⟩

/-! ## Using an entry again and again -/

namespace World

/-- Entry 0 was used `n` times, and no client has it open. -/
structure Reused (n : Nat) (w : World) : Prop where
  request : w.server.request = none
  fileid : (w.server.opentab 0).fileid = ofNat 32 (1024 * n)
  page : ∀ p, w.server.fdPage 0 = some p → p.clients = 0

theorem Reused.taken (h : Reused n w) : Fs.taken w.server = some 0 := by
  have href : pageref w.server 0 = 0 ∨ pageref w.server 0 = 1 := by
    unfold pageref
    cases hp : w.server.fdPage 0 with
    | none => exact .inl rfl
    | some p =>
      right
      simp only [h.page p hp, h.request, reduceCtorEq, if_false]
  unfold Fs.taken
  rw [List.range_succ_eq_map]
  refine List.find?_cons_of_pos ?_
  simpa only [Bool.or_eq_true, beq_iff_eq] using href

/-- The server after an entry without clients was taken. -/
theorem openfileAlloc_reused (h : Reused n w) :
    ∃ s, openfileAlloc w.server none = ((ofNat 32 (1024 * (n + 1))).toInt, 0, s) ∧
      s.disk = w.server.disk ∧ s.request = none ∧
      (s.opentab 0).fileid = ofNat 32 (1024 * (n + 1)) ∧
      s.fdPage 0 = some ⟨Fd.blank, 0⟩ := by
  have hid : (w.server.opentab 0).fileid + 1024 = ofNat 32 (1024 * (n + 1)) := by
    rw [h.fileid, Nat.mul_succ, BitVec.ofNat_add]
    rfl
  have htaken := h.taken
  unfold Fs.taken at htaken
  unfold openfileAlloc
  rw [htaken]
  by_cases h0 : pageref w.server 0 = 0
  · refine ⟨(openfileTake (w.server.setPage 0 ⟨Fd.blank, 0⟩) 0).2.2, ?_, rfl, h.request, ?_, ?_⟩
    · simp only [if_pos h0, openfileTake, Server.setPage, hid]
    · simp only [openfileTake, Server.setPage, Server.setEntry, if_true, hid]
    · simp only [openfileTake, Server.setPage, Server.setEntry, if_true, Option.map_some,
        Option.getD_some]
  · refine ⟨(openfileTake w.server 0).2.2, ?_, rfl, h.request, ?_, ?_⟩
    · simp only [if_neg h0, openfileTake, hid]
    · simp only [openfileTake, Server.setPage, Server.setEntry, if_true, hid]
    · have hclients : ((w.server.fdPage 0).map FdPage.clients).getD 0 = 0 := by
        cases hp : w.server.fdPage 0 with
        | none => rfl
        | some p => exact h.page p hp
      simp only [openfileTake, Server.setPage, Server.setEntry, if_true, hclients]

/-- The empty path is that of the root. -/
theorem openPath_root (m : Mem) : openPath m [] 0#32 = some (.ok sRoot, m) := rfl

/-- A client opens the root and closes it. -/
theorem Reused.again (h : Reused n w) (hn : n + 1 < 2 ^ 21) :
    ∃ w', Lib.Run step (fun _ _ => True) w w' ∧ Reused (n + 1) w' := by
  rcases openfileAlloc_reused h with ⟨s, halloc, hdisk, hreq, hid, hpage⟩
  have hpos : ¬(ofNat 32 (1024 * (n + 1))).toInt < 0 := by
    rw [toInt_neg_iff, toNat_ofNat]
    omega
  -- the request page is blank: the empty path, and no flags
  have hpath : reqPath (fun _ => 0) = [] := by decide +kernel
  have hmode : ofNat 32 (load (fun _ => (0 : BitVec 8)) 4 1024) = 0#32 := by decide
  have hopen : ∃ s1 fd, serveOpen w.server (fun _ => 0) none = some (0, some 0, s1) ∧
      (s1.opentab 0).fileid = ofNat 32 (1024 * (n + 1)) ∧
      s1.fdPage 0 = some ⟨fd, 0⟩ := by
    simp only [serveOpen, halloc, if_neg hpos, hpath, hmode, openPath_root]
    refine ⟨_, ⟨102, 0, 0#32 &&& 3, (s.opentab 0).fileid⟩, rfl, ?_, ?_⟩
    · simp only [Server.setPage, Server.setEntry, Server.setDisk, if_true, hid]
    · simp only [Server.setPage, Server.setEntry, Server.setDisk, if_true, hpage,
        Option.map_some, Option.getD_some]
  rcases hopen with ⟨s1, fd, hserve, hid1, hpage1⟩
  have hanswer : answer s1 (some 0) true = { s1.setPage 0 ⟨fd, 1⟩ with request := none } := by
    simp only [answer, Option.bind_some, hpage1, if_true, Nat.zero_add]
  have hopened : step w (.serve 1 (fun _ => 0) none true) =
      some ⟨answer s1 (some 0) true, handouts s1 (some 0) ++ w.history⟩ := by
    simp only [step, handle, hserve, Option.map_some]
  have hclosed : step ⟨answer s1 (some 0) true, handouts s1 (some 0) ++ w.history⟩ (.drop 0) =
      some ⟨(answer s1 (some 0) true).setPage 0 ⟨fd, 0⟩,
        handouts s1 (some 0) ++ w.history⟩ := by
    simp only [step, onPage, hanswer, Server.setPage, if_true, Option.bind_some, Nat.lt_one_iff,
      Nat.sub_self]
  refine ⟨_, Relation.ReflTransGen.tail (Relation.ReflTransGen.single ⟨_, trivial, hopened⟩)
    ⟨_, trivial, hclosed⟩, ?_, ?_, ?_⟩
  · rw [hanswer]
    rfl
  · rw [hanswer]
    exact hid1
  · intro p hp
    simp only [Server.setPage, if_true, Option.some.injEq] at hp
    rw [← hp]

/-- Any number of uses below 2²¹. -/
theorem reuse (m : Mem) (n : Nat) : n < 2 ^ 21 →
    ∃ w, Lib.Run step (fun _ _ => True) (init m) w ∧ Reused n w := by
  induction n with
  | zero =>
    intro _
    refine ⟨init m, Relation.ReflTransGen.refl, rfl, rfl, fun p hp => ?_⟩
    cases hp
  | succ n ih =>
    intro hn
    rcases ih (by omega) with ⟨w, hrun, hw⟩
    rcases hw.again hn with ⟨w', hrun', hw'⟩
    exact ⟨w', hrun.trans hrun', hw'⟩

/-- In every state of a run, ids tell their entries, and `openfile_alloc` fails
    properly exactly if the next id of the entry it takes is not negative. -/
theorem fileids_iff (m : Mem) (w : World) (hrun : Lib.Run step (fun _ _ => True) (init m) w) :
    Numbered w.server ∧ (FailsProperly w.server ↔ Countable w.server) := by
  refine ⟨?_, failsProperly_iff w.server⟩
  refine hrun.invariant (fun w => Numbered w.server) ?_ (numbered_init m)
  intro w ev w' hnum _ hstep i hi
  rw [step_rest hstep i]
  exact hnum i hi

theorem fileids_once : ∃ w, Lib.Run step (fun _ _ => True) (init oneFile) w ∧
    (w.server.opentab 0).fileid = 1024 ∧ Numbered w.server ∧ FailsProperly w.server := by
  rcases reuse oneFile 1 (by omega) with ⟨w, hrun, hw⟩
  rcases fileids_iff oneFile w hrun with ⟨hnum, hiff⟩
  refine ⟨w, hrun, hw.fileid, hnum, hiff.2 fun i hi => ?_⟩
  rw [hw.taken, Option.some.injEq] at hi
  rw [← hi, hw.fileid]
  decide

/-- After 2097151 opens of the same entry, the next one fails with a negative id,
    although no entry is shared and there is memory. -/
theorem fileid_negative : ∃ w, Lib.Run step (fun _ _ => True) (init oneFile) w ∧
    (openfileAlloc w.server none).1 = -2147483648 ∧ ¬Shared w.server 0 ∧
    ¬FailsProperly w.server := by
  rcases reuse oneFile (2 ^ 21 - 1) (by omega) with ⟨w, hrun, hw⟩
  have hid : ((w.server.opentab 0).fileid + 1024).toNat = 2 ^ 31 := by
    rw [hw.fileid]
    decide
  rcases openfileAlloc_reused hw with ⟨s, halloc, -⟩
  refine ⟨w, hrun, ?_, ?_, fun hfails => ?_⟩
  · rw [halloc]
    exact (by decide : (ofNat 32 (1024 * (2 ^ 21 - 1 + 1))).toInt = -2147483648)
  · rintro ⟨htwo, -⟩
    have href := (taken_pageref hw.taken).2
    omega
  · have hsmall := (failsProperly_iff w.server).1 hfails 0 hw.taken
    omega

end World

end Jos.Fs
