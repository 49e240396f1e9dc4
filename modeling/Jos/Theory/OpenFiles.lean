import Jos.Core.Serv
import Jos.Lib.Flow
import Jos.Theory.ReadBack

/-!
# Who May Use an Open File

A run of the server with its clients: requests are served one after the other,
while clients map, unmap and write the `Fd` pages they were given. The server
tells from the reference count of an `Fd` page whether the file is still open,
and from `o_fileid` whether an id is that of the last `serve_open`.

The count has a third value that the lookup does not expect: it is 0 for an entry
that was never used, and then any of the first 1024 ids is accepted with a null
pointer for the file. And a client that sends an `Fd` page as its request adds a
mapping of the server's own.

## Main definitions

* `Handout`, `World`: The server, and the successful opens so far.
* `World.step`: The events of a run.
* `World.Authorized`: What a lookup should stand for.
* `World.Inv`: What holds in every state of a run.

## Theorems

* `handle_cases`, `serveOpen_spec`: What requests and `serve_open` change.
* `World.lookup_authorized_iff`: Which lookups stand for it.
-/

namespace Jos.Fs

open Lib.Bytes (load)
open Option (bind_eq_some_iff bind_some getD_some map_eq_some_iff map_some some.inj some.injEq)

/-! ## What requests change -/

/-- Neither the table nor the mappings of `Fd` pages change. -/
structure Quiet (s s' : Server) : Prop where
  opentab : s'.opentab = s.opentab
  request : s'.request = s.request
  clients : ∀ i, (s'.fdPage i).map FdPage.clients = (s.fdPage i).map FdPage.clients

variable {i : Nat} {p : FdPage} {s s' : Server} {r : Int} {page' : Mem} {nomem : Option Int}
  {pg : Option Nat}

namespace Quiet

variable {s s' : Server}

theorem refl (s : Server) : Quiet s s := ⟨rfl, rfl, fun _ => rfl⟩

theorem setDisk (s : Server) (m : Mem) : Quiet s (s.setDisk m) := ⟨rfl, rfl, fun _ => rfl⟩

variable (h : Quiet s s')
include h

/-- The contents of an `Fd` page change. -/
theorem setPage (hp : s'.fdPage i = some p) (fd : Fd) :
    Quiet s (s'.setPage i { p with fd := fd }) := by
  refine ⟨h.opentab, h.request, fun j => ?_⟩
  rw [← h.clients j]
  unfold Server.setPage
  by_cases hj : j = i
  · simp only [hj, if_true, hp, map_some]
  · simp only [if_neg hj]

theorem advance (i : Nat) (n : Int) : Quiet s (s'.advance i n) := by
  unfold Server.advance
  split
  · exact h
  · next p hp => exact h.setPage hp _

theorem page {p' : FdPage} (hp : s'.fdPage i = some p') :
    ∃ p, s.fdPage i = some p ∧ p.clients = p'.clients := by
  have hc := h.clients i
  rw [hp] at hc
  rcases hs : s.fdPage i with _ | p
  · rw [hs] at hc
    cases hc
  · rw [hs, map_some, map_some, some.injEq] at hc
    exact ⟨p, rfl, hc.symm⟩

theorem page_none (hp : s'.fdPage i = none) : s.fdPage i = none := by
  have hc := h.clients i
  rw [hp, Option.map_none] at hc
  exact Option.map_eq_none_iff.1 hc.symm

end Quiet

/-- A handler for an open file is quiet if what it does with the file is. -/
theorem withFile_quiet {α : Type} (server : α → Server) {page : Mem} {fail : Int → α}
    {k : Nat → Nat → Option α} {a : α} (h : withFile s page fail k = some a)
    (hfail : server (fail eInval) = s) (hk : ∀ i f b, k i f = some b → Quiet s (server b)) :
    Quiet s (server a) := by
  unfold withFile at h
  split at h
  · rw [← some.inj h, hfail]
    exact Quiet.refl s
  · rcases bind_eq_some_iff.1 h with ⟨f, -, hf⟩
    exact hk _ f a hf

theorem serveSetSize_quiet {page : Mem} (h : serveSetSize s page = some (r, s')) : Quiet s s' := by
  refine withFile_quiet Prod.snd h rfl fun i f b hb => ?_
  rcases map_eq_some_iff.1 hb with ⟨m, -, rfl⟩
  exact Quiet.setDisk s m

theorem serveRead_quiet {page : Mem} (h : serveRead s page = some (r, page', s')) : Quiet s s' := by
  rcases map_eq_some_iff.1 h with ⟨⟨r1, s1, buf⟩, hrun, hres⟩
  cases hres
  simp only [serveReadBy] at hrun
  refine withFile_quiet (fun x => x.2.1) hrun rfl fun i f b hb => ?_
  rcases bind_eq_some_iff.1 hb with ⟨fd, -, hb⟩
  rcases map_eq_some_iff.1 hb with ⟨x, -, rfl⟩
  simp only
  split
  · exact Quiet.setDisk s _
  · exact (Quiet.setDisk s _).advance i _

theorem serveWrite_quiet {page : Mem} (h : serveWrite s page = some (r, s')) : Quiet s s' := by
  rcases map_eq_some_iff.1 h with ⟨⟨r1, s1, buf⟩, hrun, hres⟩
  cases hres
  refine withFile_quiet (fun x => x.2.1) hrun rfl fun i f b hb => ?_
  rcases bind_eq_some_iff.1 hb with ⟨fd, -, hb⟩
  rcases map_eq_some_iff.1 hb with ⟨x, -, rfl⟩
  exact (Quiet.setDisk s _).advance i _

theorem serveStat_quiet {page : Mem} (h : serveStat s page = some (r, page', s')) : Quiet s s' := by
  refine withFile_quiet (fun x => x.2.2) h rfl fun i f b hb => ?_
  rw [← some.inj hb]
  exact Quiet.refl s

theorem serveFlush_quiet {page : Mem} (h : serveFlush s page = some (r, s')) : Quiet s s' := by
  refine withFile_quiet Prod.snd h rfl fun i f b hb => ?_
  rcases map_eq_some_iff.1 hb with ⟨u, -, rfl⟩
  exact Quiet.refl s

theorem serveRemove_quiet {page : Mem} (h : serveRemove s page = some (r, s')) : Quiet s s' := by
  rcases map_eq_some_iff.1 h with ⟨⟨e | u, m⟩, -, hres⟩
  · cases hres
    exact Quiet.setDisk s m
  · cases hres
    exact Quiet.setDisk s m

/-- Only an open sends a page, and the other requests are quiet. -/
theorem handle_cases {req : Nat} {page : Mem}
    (h : handle s req page nomem = some (r, pg, page', s')) :
    (pg = none ∧ Quiet s s') ∨ serveOpen s page nomem = some (r, pg, s') := by
  have hquiet : ∀ {x : Option (Int × Server)}, (x.map fun r => (r.1, (none : Option Nat), page,
      r.2)) = some (r, pg, page', s') → (∀ r s1, x = some (r, s1) → Quiet s s1) →
      pg = none ∧ Quiet s s' := by
    intro x hx hq
    rcases map_eq_some_iff.1 hx with ⟨⟨r1, s1⟩, hx1, hres⟩
    cases hres
    exact ⟨rfl, hq r1 s1 hx1⟩
  have hquiet' : ∀ {x : Option (Int × Mem × Server)}, (x.map fun r => (r.1, (none : Option Nat),
      r.2)) = some (r, pg, page', s') → (∀ r p s1, x = some (r, p, s1) → Quiet s s1) →
      pg = none ∧ Quiet s s' := by
    intro x hx hq
    rcases map_eq_some_iff.1 hx with ⟨⟨r1, p1, s1⟩, hx1, hres⟩
    simp only [Prod.mk.injEq] at hres
    rcases hres with ⟨-, rfl, -, rfl⟩
    exact ⟨rfl, hq r1 p1 s1 hx1⟩
  unfold handle at h
  split at h
  · rcases map_eq_some_iff.1 h with ⟨⟨r1, pg1, s1⟩, hopen, hres⟩
    cases hres
    exact .inr hopen
  · exact .inl (hquiet h fun r s1 hx => serveSetSize_quiet hx)
  · exact .inl (hquiet' h fun r p s1 hx => serveRead_quiet hx)
  · exact .inl (hquiet h fun r s1 hx => serveWrite_quiet hx)
  · exact .inl (hquiet' h fun r p s1 hx => serveStat_quiet hx)
  · exact .inl (hquiet h fun r s1 hx => serveFlush_quiet hx)
  · exact .inl (hquiet h fun r s1 hx => serveRemove_quiet hx)
  · cases h
    exact .inl ⟨rfl, Quiet.refl s⟩
  · cases h
    exact .inl ⟨rfl, Quiet.refl s⟩

/-! ## What opening a file changes -/

/-- No reference count of an `Fd` page overflows its 16 bits. -/
def Fits (s : Server) : Prop := ∀ i p, s.fdPage i = some p → p.clients + 2 < 65536

/-- The entry `i`, which no client had open, is given a new id. -/
structure Reassigned (s s' : Server) (i : Nat) : Prop where
  idle : ∀ p, s.fdPage i = some p → p.clients = 0
  page : ∃ fd, s'.fdPage i = some ⟨fd, 0⟩
  others : ∀ j, j ≠ i → s'.opentab j = s.opentab j ∧ s'.fdPage j = s.fdPage j
  request : s'.request = s.request

/-- The reference count of a page that is there. -/
theorem pageref_some (hfits : Fits s) (hp : s.fdPage i = some p) :
    pageref s i = 1 + p.clients + if s.request = some i then 1 else 0 := by
  unfold pageref
  rw [hp]
  refine Nat.mod_eq_of_lt ?_
  have := hfits i p hp
  split <;> omega

theorem pageref_eq_zero (hfits : Fits s) (h : pageref s i = 0) : s.fdPage i = none := by
  cases hp : s.fdPage i with
  | none => rfl
  | some p =>
    rw [pageref_some hfits hp] at h
    omega

theorem openfileTake_reassigned {s1 : Server} (hidle : ∀ p, s.fdPage i = some p →
      p.clients = 0) (hsame : ∀ j, j ≠ i → s1.fdPage j = s.fdPage j)
    (hpage : ((s1.fdPage i).map FdPage.clients).getD 0 = 0) (htab : s1.opentab = s.opentab)
    (hreq : s1.request = s.request) : Reassigned s (openfileTake s1 i).2.2 i := by
  refine ⟨hidle, ⟨Fd.blank, ?_⟩, ?_, hreq⟩
  · simp only [openfileTake, Server.setPage, hpage, if_true]
  · intro j hj
    refine ⟨?_, ?_⟩
    · simp only [openfileTake, Server.setPage, Server.setEntry, if_neg hj, htab]
    · simp only [openfileTake, Server.setPage, Server.setEntry, if_neg hj]
      exact hsame j hj

/-- `openfile_alloc` fails and changes nothing, or it reassigns an entry. -/
theorem openfileAlloc_spec (hfits : Fits s) (hneg : ∀ e, nomem = some e → e < 0) :
    ((openfileAlloc s nomem).1 < 0 ∧ (openfileAlloc s nomem).2.2 = s) ∨
      Reassigned s (openfileAlloc s nomem).2.2 (openfileAlloc s nomem).2.1 := by
  unfold openfileAlloc
  cases hfind : (List.range 1024).find? fun i => pageref s i == 0 || pageref s i == 1 with
  | none => exact .inl ⟨show eMaxOpen < 0 by decide, rfl⟩
  | some i =>
    have href := List.find?_some hfind
    simp only [Bool.or_eq_true, beq_iff_eq] at href
    by_cases h0 : pageref s i = 0
    · simp only [if_pos h0]
      have hnone := pageref_eq_zero hfits h0
      cases nomem with
      | some e => exact .inl ⟨hneg e rfl, rfl⟩
      | none =>
        refine .inr (openfileTake_reassigned ?_ ?_ ?_ rfl rfl)
        · intro p hp
          rw [hnone] at hp
          cases hp
        · intro j hj
          simp only [Server.setPage, if_neg hj]
        · simp only [Server.setPage, if_true, map_some, getD_some]
    · simp only [if_neg h0]
      -- the server has the only mapping
      have hidle : ∀ p, s.fdPage i = some p → p.clients = 0 := by
        intro p hp
        have h1 := href.resolve_left h0
        rw [pageref_some hfits hp] at h1
        omega
      refine .inr (openfileTake_reassigned hidle (fun _ _ => rfl) ?_ rfl rfl)
      rcases hp : s.fdPage i with _ | p
      · rfl
      · rw [map_some, getD_some]
        exact hidle p hp

/-- `serve_open` hands out an entry, or fails; then it may have given some entry
    a new id. -/
theorem serveOpen_spec {page : Mem} (hfits : Fits s) (hneg : ∀ e, nomem = some e → e < 0)
    (h : serveOpen s page nomem = some (r, pg, s')) :
    (pg = none ∧ (Quiet s s' ∨ ∃ i, Reassigned s s' i)) ∨
      ∃ i f, pg = some i ∧ r = 0 ∧ Reassigned s s' i ∧ (s'.opentab i).file = some f := by
  have hspec := openfileAlloc_spec hfits hneg
  unfold serveOpen at h
  rcases halloc : openfileAlloc s nomem with ⟨r1, i, s1⟩
  rw [halloc] at hspec h
  simp only at hspec h
  by_cases hr : r1 < 0
  · rw [if_pos hr, some.injEq, Prod.mk.injEq, Prod.mk.injEq] at h
    rcases h with ⟨-, rfl, rfl⟩
    rcases hspec with ⟨-, rfl⟩ | hre
    · exact .inl ⟨rfl, .inl (Quiet.refl s1)⟩
    · exact .inl ⟨rfl, .inr ⟨i, hre⟩⟩
  · rw [if_neg hr] at h
    have hre := hspec.resolve_left fun hc => hr hc.1
    split at h
    · cases h
    · cases h
      exact .inl ⟨rfl, .inr ⟨i, hre.idle, hre.page, hre.others, hre.request⟩⟩
    · next f m _ =>
      rcases map_eq_some_iff.1 h with ⟨m', -, hm⟩
      cases hm
      refine .inr ⟨i, f, rfl, rfl, ⟨hre.idle, ?_, ?_, hre.request⟩, ?_⟩
      · rcases hre.page with ⟨fd, hfd⟩
        refine ⟨⟨102, 0, BitVec.ofNat 32 (load page 4 1024) &&& 3, (s1.opentab i).fileid⟩, ?_⟩
        simp only [Server.setPage, if_true, hfd, map_some, getD_some]
      · intro j hj
        simp only [Server.setPage, Server.setEntry, Server.setDisk, if_neg hj]
        exact hre.others j hj
      · simp only [Server.setPage, Server.setEntry, Server.setDisk, if_true]

/-! ## Runs -/

/-- A `serve_open` that returned 0: the entry, its id and the file. -/
structure Handout where
  entry : Nat
  fileid : BitVec 32
  file : Option Nat
  deriving DecidableEq

/-- The server, and the successful opens so far, the last one first. -/
structure World where
  server : Server
  history : List Handout

namespace World

/-- What happens in a run. -/
inductive Event
  /-- A client gives an `Fd` page it has mapped to another place or environment. -/
  | share (i : Nat)
  /-- A client unmaps an `Fd` page. -/
  | drop (i : Nat)
  /-- An `Fd` page is written to, by a client or, if it is the page of a request,
      by the server. -/
  | poke (i : Nat) (fd : Fd)
  /-- A request arrives; its page may be an `Fd` page of the client. -/
  | send (i : Option Nat)
  /-- The server handles the request and answers. `accept` is whether the client
      takes the page that is sent with the answer. -/
  | serve (req : Nat) (page : Mem) (nomem : Option Int) (accept : Bool)

/-- Change the `Fd` page of an entry that clients have mapped. -/
def onPage (w : World) (i : Nat) (k : FdPage → FdPage) : Option World :=
  (w.server.fdPage i).bind fun p =>
    if 0 < p.clients then some { w with server := w.server.setPage i (k p) } else none

/-- The end of the loop in `serve`: the page goes to the client, and the page of
    the request is unmapped. -/
def answer (s : Server) (pg : Option Nat) (accept : Bool) : Server :=
  match pg.bind s.fdPage, pg with
  | some p, some i =>
    { s.setPage i { p with clients := if accept then p.clients + 1 else p.clients } with
      request := none }
  | _, _ => { s with request := none }

/-- The handout for the page that is sent with an answer. -/
def handouts (s : Server) (pg : Option Nat) : List Handout :=
  match pg with
  | some i => [⟨i, (s.opentab i).fileid, (s.opentab i).file⟩]
  | none => []

def step (w : World) : Event → Option World
  | .share i => w.onPage i fun p => { p with clients := p.clients + 1 }
  | .drop i => w.onPage i fun p => { p with clients := p.clients - 1 }
  | .poke i fd =>
    (w.server.fdPage i).map fun p => { w with server := w.server.setPage i { p with fd := fd } }
  | .send none => some { w with server := { w.server with request := none } }
  | .send (some i) =>
    (w.onPage i id).map fun w => { w with server := { w.server with request := some i } }
  | .serve req page nomem accept =>
    (handle w.server req page nomem).map fun r =>
      ⟨answer r.2.2.2 r.2.1 accept, handouts r.2.2.2 r.2.1 ++ w.history⟩

/-- The reference counts of 16 bits do not overflow, and errors are negative. -/
def Plain (w : World) : Event → Prop
  | .share i => ∀ p, w.server.fdPage i = some p → p.clients + 3 < 65536
  | .serve _ _ nomem _ => ∀ e, nomem = some e → e < 0
  | _ => True

/-- The server at its start. -/
def init (m : Mem) : World := ⟨serveInit m, []⟩

/-- The last open of an entry that succeeded. -/
def last (w : World) (i : Nat) : Option Handout := w.history.find? fun e => e.entry == i

/-- What a lookup of `fileid` with entry `i` should stand for: the last successful
    open of the entry gave out this id, clients have the `Fd` page, and the file is
    the one that was opened. -/
def Authorized (w : World) (fileid : BitVec 32) (i : Nat) : Prop :=
  ∃ f p, w.last i = some ⟨i, fileid, some f⟩ ∧ w.server.fdPage i = some p ∧ 0 < p.clients ∧
    (w.server.opentab i).file = some f

/-- The invariant of a run: an entry without a page was never handed out, and
    what clients have mapped was handed out last. -/
structure Inv (w : World) : Prop where
  fits : Fits w.server
  fresh : ∀ i, w.server.fdPage i = none → w.last i = none
  live : ∀ i p, w.server.fdPage i = some p → 0 < p.clients → ∃ f,
    w.last i = some ⟨i, (w.server.opentab i).fileid, some f⟩ ∧
      (w.server.opentab i).file = some f

theorem Inv.init (m : Mem) : Inv (World.init m) :=
  ⟨fun _ _ h => absurd h (by simp [World.init, serveInit]), fun _ _ => rfl,
    fun _ _ h => absurd h (by simp [World.init, serveInit])⟩

variable {h : List Handout} {w : World}

theorem Inv.quiet (hi : Inv ⟨s, h⟩) (hq : Quiet s s') : Inv ⟨s', h⟩ := by
  refine ⟨?_, ?_, ?_⟩
  · intro i p' hp
    rcases hq.page hp with ⟨p, hs, hc⟩
    rw [← hc]
    exact hi.fits i p hs
  · intro i hp
    exact hi.fresh i (hq.page_none hp)
  · intro i p' hp hpos
    rcases hq.page hp with ⟨p, hs, hc⟩
    have hl := hi.live i p hs (by rwa [hc])
    simp only [hq.opentab]
    exact hl

/-- The number of mappings of one page changes, but not from zero. -/
theorem Inv.onPage {w' : World} {k : FdPage → FdPage} (hi : Inv w) (h : w.onPage i k = some w')
    (hfits : ∀ p, w.server.fdPage i = some p → (k p).clients + 2 < 65536) : Inv w' := by
  rcases bind_eq_some_iff.1 h with ⟨p, hp, hk⟩
  rcases Option.ite_none_right_eq_some.1 hk with ⟨hpos, hk⟩
  cases hk
  refine ⟨?_, ?_, ?_⟩
  · intro j q hq
    simp only [Server.setPage] at hq
    split at hq
    · rw [← some.inj hq]
      exact hfits p hp
    · exact hi.fits j q hq
  · intro j hq
    simp only [Server.setPage] at hq
    split at hq
    · cases hq
    · exact hi.fresh j hq
  · intro j q hq hqpos
    simp only [Server.setPage] at hq
    split at hq
    · next hj =>
      rw [hj]
      exact hi.live i p hp hpos
    · exact hi.live j q hq hqpos

theorem Inv.request (hi : Inv w) (o : Option Nat) :
    Inv { w with server := { w.server with request := o } } :=
  ⟨hi.fits, hi.fresh, hi.live⟩

/-- An entry gets a new id. -/
theorem Inv.reassigned (hi : Inv ⟨s, h⟩) (hre : Reassigned s s' i) : Inv ⟨s', h⟩ := by
  rcases hre.page with ⟨fd, hfd⟩
  refine ⟨?_, ?_, ?_⟩
  · intro j p hp
    by_cases hj : j = i
    · rw [hj, hfd] at hp
      rw [← some.inj hp]
      simp only
      omega
    · rw [(hre.others j hj).2] at hp
      exact hi.fits j p hp
  · intro j hp
    by_cases hj : j = i
    · rw [hj, hfd] at hp
      cases hp
    · rw [(hre.others j hj).2] at hp
      exact hi.fresh j hp
  · intro j p hp hpos
    by_cases hj : j = i
    · rw [hj, hfd] at hp
      rw [← some.inj hp] at hpos
      exact absurd hpos (Nat.lt_irrefl 0)
    · rw [(hre.others j hj).2] at hp
      have hl := hi.live j p hp hpos
      simp only [(hre.others j hj).1]
      exact hl

/-- A successful open, and the answer with the page. -/
theorem Inv.handout {f : Nat} (hi : Inv ⟨s, h⟩) (hre : Reassigned s s' i)
    (hf : (s'.opentab i).file = some f) (accept : Bool) :
    Inv ⟨answer s' (some i) accept, handouts s' (some i) ++ h⟩ := by
  have hnew := hi.reassigned hre
  rcases hre.page with ⟨fd, hfd⟩
  have hlast : ∀ j, j ≠ i → last ⟨answer s' (some i) accept, handouts s' (some i) ++ h⟩ j =
      last ⟨s', h⟩ j := by
    intro j hj
    unfold last handouts
    exact List.find?_cons_of_neg (by simpa using Ne.symm hj)
  have hpage : ∀ j, j ≠ i → (answer s' (some i) accept).fdPage j = s'.fdPage j := by
    intro j hj
    simp only [answer, bind_some, hfd, Server.setPage, if_neg hj]
  have htab : (answer s' (some i) accept).opentab = s'.opentab := by
    simp only [answer, bind_some, hfd, Server.setPage]
  have hhere : (answer s' (some i) accept).fdPage i =
      some ⟨fd, if accept then 1 else 0⟩ := by
    simp only [answer, bind_some, hfd, Server.setPage, if_true, Nat.zero_add]
  refine ⟨?_, ?_, ?_⟩
  · intro j p hp
    by_cases hj : j = i
    · rw [hj, hhere] at hp
      rw [← some.inj hp]
      simp only
      split <;> omega
    · rw [hpage j hj] at hp
      exact hnew.fits j p hp
  · intro j hp
    by_cases hj : j = i
    · rw [hj, hhere] at hp
      cases hp
    · rw [hpage j hj] at hp
      rw [hlast j hj]
      exact hnew.fresh j hp
  · intro j p hp hpos
    by_cases hj : j = i
    · -- the entry that is handed out is the last one
      rw [hj]
      refine ⟨f, ?_, by rwa [htab]⟩
      rw [htab, ← hf]
      exact List.find?_cons_of_pos (by simp)
    · rw [hpage j hj] at hp
      rw [hlast j hj, htab]
      exact hnew.live j p hp hpos

theorem Inv.answer_none (hi : Inv ⟨s, h⟩) (accept : Bool) :
    Inv ⟨answer s none accept, handouts s none ++ h⟩ :=
  hi.request none

theorem Inv.step {w w' : World} {ev : Event} (hi : Inv w) (hc : Plain w ev)
    (h : step w ev = some w') : Inv w' := by
  cases ev with
  | share i =>
    refine hi.onPage h fun p hp => ?_
    have := hc p hp
    simp only
    omega
  | drop i =>
    refine hi.onPage h fun p hp => ?_
    have := hi.fits i p hp
    simp only
    omega
  | poke i fd =>
    rcases map_eq_some_iff.1 h with ⟨p, hp, rfl⟩
    exact hi.quiet ((Quiet.refl w.server).setPage hp fd)
  | send o =>
    cases o with
    | none =>
      rw [← some.inj h]
      exact hi.request none
    | some i =>
      rcases map_eq_some_iff.1 h with ⟨w1, hw, rfl⟩
      exact (hi.onPage hw fun p hp => hi.fits i p hp).request (some i)
  | serve req page nomem accept =>
    rcases map_eq_some_iff.1 h with ⟨⟨r, pg, page', s'⟩, hrun, rfl⟩
    rcases w with ⟨s, hist⟩
    rcases handle_cases hrun with ⟨rfl, hq⟩ | hopen
    · exact (hi.quiet hq).answer_none accept
    · rcases serveOpen_spec hi.fits hc hopen with ⟨rfl, hq | ⟨i, hre⟩⟩ | ⟨i, f, rfl, -, hre, hf⟩
      · exact (hi.quiet hq).answer_none accept
      · exact (hi.reassigned hre).answer_none accept
      · exact hi.handout hre hf accept

/-- In every state of a run, a lookup of an id stands for an open file exactly if
    the id is not that of its entry, or the entry has a page and the server has
    not the only mappings of it. -/
theorem lookup_authorized_iff (m : Mem) (w : World) (hrun : Lib.Run step Plain (init m) w)
    (fileid : BitVec 32) :
    (∀ i, openfileLookup w.server fileid = some i → w.Authorized fileid i) ↔
      ((w.server.opentab (fileid.toNat % 1024)).fileid = fileid →
        ∃ p, w.server.fdPage (fileid.toNat % 1024) = some p ∧
          (w.server.request = some (fileid.toNat % 1024) → 0 < p.clients)) := by
  have hi : Inv w := hrun.invariant Inv (fun _ _ _ hi hc h => hi.step hc h) (Inv.init m)
  constructor
  · intro hall hid
    by_cases hone : pageref w.server (fileid.toNat % 1024) = 1
    · -- the lookup fails, since the server has the only mapping
      cases hp : w.server.fdPage (fileid.toNat % 1024) with
      | none =>
        unfold pageref at hone
        rw [hp] at hone
        exact absurd hone Nat.zero_ne_one
      | some p =>
        refine ⟨p, rfl, fun hreq => ?_⟩
        rw [pageref_some hi.fits hp, if_pos hreq] at hone
        omega
    · have hlook : openfileLookup w.server fileid = some (fileid.toNat % 1024) := by
        unfold openfileLookup
        exact if_neg fun h => h.elim hone fun hne => hne hid
      rcases hall _ hlook with ⟨f, p, -, hp, hpos, -⟩
      exact ⟨p, hp, fun _ => hpos⟩
  · intro hcond i hlook
    simp only [openfileLookup] at hlook
    split at hlook
    · cases hlook
    · next hok =>
      rw [not_or, not_not] at hok
      rw [← some.inj hlook]
      rcases hcond hok.2 with ⟨p, hp, hreq⟩
      -- a count other than 1 means that some client has the page
      have hpos : 0 < p.clients := by
        have hne := hok.1
        rw [pageref_some hi.fits hp] at hne
        by_cases hr : w.server.request = some (fileid.toNat % 1024)
        · exact hreq hr
        · rw [if_neg hr] at hne
          omega
      rcases hi.live _ p hp hpos with ⟨f, hlast, hfile⟩
      rw [hok.2] at hlast
      exact ⟨f, p, hlast, hp, hpos, hfile⟩

/-- A request to open the file `a`. -/
def openRequest : Mem := copy (fun _ => 0) 0 [97]

theorem lookup_authorized_oneFile : ∃ w, Lib.Run step Plain (init oneFile) w ∧
    openfileLookup w.server 1024 = some 0 ∧ w.Authorized 1024 0 := by
  have hobs : (step (init oneFile) (.serve 1 openRequest none true)).map (fun w =>
      (openfileLookup w.server 1024, (w.server.fdPage 0).map FdPage.clients)) =
      some (some 0, some 1) := by decide +kernel
  rcases map_eq_some_iff.1 hobs with ⟨w, hstep, hw⟩
  rw [Prod.mk.injEq] at hw
  have hplain : Plain (init oneFile) (.serve 1 openRequest none true) := by
    intro e he
    cases he
  have hrun : Lib.Run step Plain (init oneFile) w :=
    Relation.ReflTransGen.single ⟨_, hplain, hstep⟩
  refine ⟨w, hrun, hw.1, (lookup_authorized_iff oneFile w hrun 1024).2 (fun _ => ?_) 0 hw.1⟩
  rcases map_eq_some_iff.1 hw.2 with ⟨p, hp, hc⟩
  exact ⟨p, hp, fun _ => by omega⟩

/-- Before anything was opened, the id 5 is accepted, for a null pointer. -/
theorem lookup_not_authorized : Lib.Run step Plain (init oneFile) (init oneFile) ∧
    openfileLookup (init oneFile).server 5 = some 5 ∧
    ((init oneFile).server.opentab 5).file = none ∧ ¬(init oneFile).Authorized 5 5 := by
  refine ⟨Relation.ReflTransGen.refl, rfl, rfl, ?_⟩
  rintro ⟨f, p, -, hp, -⟩
  exact absurd hp (by simp [init, serveInit])

end World

end Jos.Fs
