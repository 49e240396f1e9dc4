import Jos.Lib.Flow
import Jos.Theory.Image
import Jos.Theory.Offsets

/-!
# Every Block Has One Owner

Runs of the operations of the file system from a formatted disk. In each state
the blocks of the root directory and of the files in it are different and in
use, as long as the directory never takes over a block with old bytes in it:
`dir_alloc_file` and `dir_lookup` read a new block of the directory as entries,
whatever is there. A disk that `fsformat` makes without any file is another
exception, since its directory begins with a block that is free.

## Main definitions

* `Op`, `Session`: The operations and the state of a run.
* `Session.Safe`: No block with old bytes becomes a part of the directory.

## Theorems

* `Session.Inv.step`: Each operation keeps the order.
* `exclusive_of_run`: What holds in every state of a run.
-/

namespace Jos.Fs

open Format
open Option (map_eq_some_iff map_some some.injEq)

variable {m : Mem} {f : Nat} {path : List (BitVec 8)} {r : Except Int Nat × Mem} {s' : Session}

/-- A call of an operation. A file is given by the address of its structure. -/
inductive Op
  | create (path : List (BitVec 8))
  | openFile (path : List (BitVec 8))
  | read (f : Nat) (count : BitVec 64) (offset : BitVec 32)
  | write (f : Nat) (buf : List (BitVec 8)) (offset : BitVec 32)
  | setSize (f : Nat) (size : BitVec 32)
  | remove (path : List (BitVec 8))

/-- The calls in question are for files, not for the root directory, with
    positions that are not negative and sizes up to `MAXFILESIZE`. -/
def Op.Legal : Op → Prop
  | .create _ => True
  | .openFile _ => True
  | .read f _ offset => f ≠ sRoot ∧ 0 ≤ offset.toInt
  | .write f _ offset => f ≠ sRoot ∧ 0 ≤ offset.toInt
  | .setSize f size => f ≠ sRoot ∧ 0 ≤ size.toInt ∧ size.toInt ≤ 1034 * 4096
  | .remove path => skipSlash path ≠ []

/-- The disk, and the files that `file_create` and `file_open` have returned. -/
structure Session where
  mem : Mem
  given : List Nat

namespace Session

/-- The file that was returned, if any, can be used from then on. -/
def give (s : Session) (r : Except Int Nat × Mem) : Session :=
  match r with
  | (.ok f, m) => ⟨m, f :: s.given⟩
  | (.error _, m) => ⟨m, s.given⟩

def step (s : Session) : Op → Option Session
  | .create path => (fileCreate s.mem path).map s.give
  | .openFile path => (fileOpen s.mem path).map s.give
  | .read f count offset =>
    if f ∈ s.given then (fileRead s.mem f count offset).map fun r => ⟨r.2.2, s.given⟩ else none
  | .write f buf offset =>
    if f ∈ s.given then (fileWrite s.mem f buf offset).map fun r => ⟨r.2, s.given⟩ else none
  | .setSize f size =>
    if f ∈ s.given then (fileSetSize s.mem f size).map fun m => ⟨m, s.given⟩ else none
  | .remove path => (fileRemove s.mem path).map fun r => ⟨r.2, s.given⟩

/-- The directory takes over no block, or the free blocks are blank. -/
def Safe (s : Session) : Op → Prop
  | .create _ => Roomy s.mem ∨ Spare s.mem
  | .openFile _ => Ready s.mem
  | .remove _ => Ready s.mem
  | _ => True

/-- The invariant: files that were returned are the root directory or entries. -/
structure Inv (s : Session) : Prop where
  tidy : Tidy s.mem
  given : ∀ f ∈ s.given, f = sRoot ∨ Entry s.mem f

namespace Inv

variable {s : Session}

theorem widened (h : Inv s) (hw : Widened s.mem m) : Inv ⟨m, s.given⟩ := by
  refine ⟨hw.tidy, fun f hf => ?_⟩
  rcases h.given f hf with hroot | he
  · exact .inl hroot
  · exact .inr (hw.old f he).1

/-- An operation on an entry. -/
theorem fileStep (h : Inv s) (hf : Entry s.mem f) (hs : FileStep s.mem m f) : Inv ⟨m, s.given⟩ := by
  have hroot := hs.other h.tidy.root (h.tidy.top f hf)
  refine ⟨h.tidy.step hf hs, fun g hg => ?_⟩
  rw [entry_congr hroot.slots]
  exact h.given g hg

theorem give (hi : Inv ⟨m, s.given⟩) (hf : f = sRoot ∨ Entry m f) :
    Inv (s.give (.ok f, m)) := by
  refine ⟨hi.tidy, fun g hg => ?_⟩
  rcases List.mem_cons.1 hg with rfl | hg
  · exact hf
  · exact hi.given g hg

variable (h : Inv s)
include h

theorem create (hsafe : Roomy s.mem ∨ Spare s.mem) (hrun : fileCreate s.mem path = some r) :
    Inv (s.give r) := by
  rcases r with ⟨r, m'⟩
  rcases fileCreate_spec h.tidy hsafe hrun with
    ⟨m1, hw, ⟨⟨e, rfl⟩, rfl⟩ | ⟨f, name, rfl, hf, -, hlen, rfl⟩⟩
  · exact h.widened hw
  · -- the entry is there before the name is
    have h1 := h.widened hw
    have hs := copyName_step (h1.tidy.entry f hf) hlen
    refine give (h1.fileStep hf hs) (.inr ?_)
    rwa [entry_congr (hs.other h1.tidy.root (h1.tidy.top f hf)).slots]

theorem openFile (hsafe : Ready s.mem) (hrun : fileOpen s.mem path = some r) :
    Inv (s.give r) := by
  rcases r with ⟨e | f, m'⟩
  · exact h.widened (fileOpen_spec h.tidy hsafe hrun).1
  · rcases fileOpen_spec h.tidy hsafe hrun with ⟨hw, hf⟩
    exact give (h.widened hw) ((hf f rfl).imp_left And.left)

theorem remove {r : Except Int Unit × Mem} (hpath : skipSlash path ≠ [])
    (hsafe : Ready s.mem) (hrun : fileRemove s.mem path = some r) :
    Inv ⟨r.2, s.given⟩ := by
  rcases fileRemove_spec h.tidy hsafe hpath hrun with
    ⟨r1, m1, -, hw, ⟨-, hm⟩ | ⟨f, m2, -, hf, htrunc, hm⟩⟩
  · rw [hm]
    exact h.widened hw
  · rw [hm]
    have h1 := h.widened hw
    exact h1.fileStep hf (fileRemove_step (h1.tidy.entry f hf) htrunc)

/-- A call is one with a path, or an operation on an entry. -/
theorem step_cases {op : Op} (hlegal : op.Legal) (hs : s.step op = some s') :
    (∃ path r, op = .create path ∧ fileCreate s.mem path = some r ∧ s' = s.give r) ∨
    (∃ path r, op = .openFile path ∧ fileOpen s.mem path = some r ∧ s' = s.give r) ∨
    (∃ path r, op = .remove path ∧ fileRemove s.mem path = some r ∧ s' = ⟨r.2, s.given⟩) ∨
    ∃ f m, Entry s.mem f ∧ FileStep s.mem m f ∧ s' = ⟨m, s.given⟩ := by
  -- a file that may be used and is not the directory is an entry
  have hentry : ∀ f, f ≠ sRoot → f ∈ s.given → Entry s.mem f := fun f hne hf =>
    (h.given f hf).resolve_left hne
  cases op with
  | create path =>
    rcases map_eq_some_iff.1 hs with ⟨r, hrun, rfl⟩
    exact .inl ⟨path, r, rfl, hrun, rfl⟩
  | openFile path =>
    rcases map_eq_some_iff.1 hs with ⟨r, hrun, rfl⟩
    exact .inr (.inl ⟨path, r, rfl, hrun, rfl⟩)
  | remove path =>
    rcases map_eq_some_iff.1 hs with ⟨r, hrun, rfl⟩
    exact .inr (.inr (.inl ⟨path, r, rfl, hrun, rfl⟩))
  | read f count offset =>
    simp only [Session.step] at hs
    rcases Option.ite_none_right_eq_some.1 hs with ⟨hf, hs⟩
    have hf := hentry f hlegal.1 hf
    rcases fileRead_spec count h.tidy.sane (h.tidy.entry f hf)
      (toNat_of_nonneg hlegal.2) with ⟨r, out, m', p, hrun, hg, -⟩
    rw [hrun, map_some, some.injEq] at hs
    exact .inr (.inr (.inr ⟨f, m', hf, hg.fileStep, hs.symm⟩))
  | write f buf offset =>
    simp only [Session.step] at hs
    rcases Option.ite_none_right_eq_some.1 hs with ⟨hf, hs⟩
    have hf := hentry f hlegal.1 hf
    rcases fileWrite_step s.mem f buf offset h.tidy.sane (h.tidy.entry f hf)
      (toNat_of_nonneg hlegal.2) with ⟨r, m', hrun, hstep⟩
    rw [hrun, map_some, some.injEq] at hs
    exact .inr (.inr (.inr ⟨f, m', hf, hstep, hs.symm⟩))
  | setSize f size =>
    simp only [Session.step] at hs
    rcases Option.ite_none_right_eq_some.1 hs with ⟨hf, hs⟩
    have hf := hentry f hlegal.1 hf
    rcases fileSetSize_step size (h.tidy.entry f hf) with ⟨m', hrun, hstep⟩
    rw [hrun, map_some, some.injEq] at hs
    exact .inr (.inr (.inr ⟨f, m', hf, hstep, hs.symm⟩))

theorem step (op : Op) (hlegal : op.Legal) (hsafe : s.Safe op)
    (hs : s.step op = some s') : Inv s' := by
  rcases h.step_cases hlegal hs with ⟨path, r, rfl, hrun, rfl⟩ | ⟨path, r, rfl, hrun, rfl⟩ |
    ⟨path, r, rfl, hrun, rfl⟩ | ⟨f, m, hf, hstep, rfl⟩
  · exact h.create hsafe hrun
  · exact h.openFile hsafe hrun
  · exact h.remove hlegal hsafe hrun
  · exact h.fileStep hf hstep

end Inv

end Session

/-- A disk with at least one file, and no name that is too long. -/
structure Formatted (n : Nat) (files : List Input) (m : Mem) : Prop where
  run : fsformat n files = some m
  some : files ≠ []
  names : ∀ file ∈ files, (last file.name).length ≤ 127

theorem Formatted.image {n : Nat} {files : List Input} (h : Formatted n files m) :
    Image m n files :=
  fsformat_image h.some (fun file hf => by have := h.names file hf; omega) h.run

/-- From a formatted disk on no block is ever referred to twice. -/
theorem exclusive_of_run (n : Nat) (files : List Input) (m : Mem) (s : Session)
    (hm : Formatted n files m)
    (hrun : Lib.Run Session.step (fun s op => op.Legal ∧ s.Safe op) ⟨m, []⟩ s) :
    Exclusive s.mem := by
  have hstart : Session.Inv ⟨m, []⟩ :=
    ⟨hm.image.tidy, fun f hf => absurd hf List.not_mem_nil⟩
  have hinv : Session.Inv s :=
    Lib.Run.invariant Session.Inv (fun t op t' ht hop hs => ht.step op hop.1 hop.2 hs) hrun hstart
  exact hinv.tidy.exclusive

/-- A file is opened and a byte written to it. -/
theorem exclusive_of_run_single : ∃ m f s, Formatted 6 [⟨[97], []⟩] m ∧
    Session.step ⟨m, []⟩ (.openFile [97]) = some ⟨m, [f]⟩ ∧
    Session.step ⟨m, [f]⟩ (.write f [7] 0) = some s ∧ Exclusive s.mem := by
  have hsome : (fsformat 6 [⟨[97], []⟩]).isSome = true := by decide
  rcases Option.isSome_iff_exists.1 hsome with ⟨m, hm⟩
  have hfmt : Formatted 6 [⟨[97], []⟩] m := ⟨hm, by decide, by decide⟩
  have himg := hfmt.image
  have hlook := himg.dirLookup ⟨by decide, by decide, by decide⟩ (List.getElem?_cons_zero)
  have hwalk := walkPath_single 0 last_slash (by decide) (by decide) himg.type hlook
  have hentry := (himg.place_entry (i := 0) rfl).1
  rw [show List.replicate 0 slash ++ last [97] = [97] by decide] at hwalk
  have hne : Image.place [⟨[97], []⟩] 0 ≠ sRoot := by decide
  generalize Image.place [⟨[97], []⟩] 0 = f at *
  have hopen : Session.step ⟨m, []⟩ (.openFile [97]) = some ⟨m, [f]⟩ := by
    simp only [Session.step, fileOpen, hwalk, map_some, Session.give]
  rcases fileWrite_step m f [7] 0 himg.sane (himg.entry_owns hentry) (by decide) with
    ⟨r, m', hrun, -⟩
  have hwrite : Session.step ⟨m, [f]⟩ (.write f [7] 0) = some ⟨m', [f]⟩ := by
    simp only [Session.step, List.mem_singleton, if_true, hrun, map_some]
  refine ⟨m, f, ⟨m', [f]⟩, hfmt, hopen, hwrite, exclusive_of_run 6 [⟨[97], []⟩] m _ hfmt ?_⟩
  exact Relation.ReflTransGen.head ⟨.openFile [97], ⟨trivial, .inl himg.noGap⟩, hopen⟩
    (Relation.ReflTransGen.single ⟨.write f [7] 0, ⟨⟨hne, by decide⟩, trivial⟩, hwrite⟩)

/-- Sixteen files, so that the block of the directory is full. The first one has
    one block of data, in which the number 4 is where a structure has its first
    block number. -/
def crafted : List Input :=
  ⟨[97], List.replicate 136 0 ++ [4]⟩ ::
    (List.range 15).map fun i => ⟨[BitVec.ofNat 8 (98 + i)], []⟩

/-- The first file gives its block back, and a new file makes the directory grow:
    the new entry has the directory's own block. And without files, the directory
    has a block that is free. -/
theorem not_exclusive :
    (∃ m s, fsformat 6 crafted = some m ∧
      Lib.Run Session.step (fun _ op => op.Legal) ⟨m, []⟩ s ∧ ¬Exclusive s.mem) ∧
    ∃ m, fsformat 6 [] = some m ∧ ¬Exclusive m := by
  have hgrow : ((fsformat 6 crafted).bind fun m =>
      (Lib.runEvents Session.step ⟨m, []⟩
        [.openFile [97], .setSize 16384 0, .create [113]]).map fun s =>
          (slot s.mem sRoot 0, slot s.mem sRoot 1, slot s.mem 12288 0, s.mem 12288)) =
      some (4, 3, 4, 113) := by decide +kernel
  have hempty : ((fsformat 6 []).map fun m => (slot m sRoot 0, blockIsFree m 3)) =
      some (3, true) := by decide +kernel
  refine ⟨?_, ?_⟩
  · rcases Option.bind_eq_some_iff.1 hgrow with ⟨m, hm, hrun⟩
    rcases map_eq_some_iff.1 hrun with ⟨s, hs, hfacts⟩
    simp only [Prod.mk.injEq] at hfacts
    rcases hfacts with ⟨hroot, hnew, hslot, hname⟩
    refine ⟨m, s, hm, Lib.Run.of_forall _ _ ?_ hs, fun hex => ?_⟩
    · intro op hop _
      simp only [List.mem_cons, List.not_mem_nil, or_false] at hop
      rcases hop with rfl | rfl | rfl
      · exact trivial
      · exact ⟨by decide, by decide, by decide⟩
      · exact trivial
    · have hentry : Entry s.mem 12288 :=
        ⟨1, by decide, 0, by decide, by rw [hnew]; decide, by rw [hnew]⟩
      have hlisted : Listed s.mem 12288 := ⟨hentry, by rw [hname]; decide⟩
      have hsame := (hex.once sRoot 12288 0 0 (.inl rfl) (.inr hlisted) (by decide) (by decide)
        (by rw [hroot]; decide) (by rw [hroot, hslot])).1
      cases hsame
  · rcases map_eq_some_iff.1 hempty with ⟨m, hm, hfacts⟩
    simp only [Prod.mk.injEq] at hfacts
    refine ⟨m, hm, fun hex => ?_⟩
    have hused := (hex.used sRoot 0 (.inl rfl) (by decide) (by rw [hfacts.1]; decide)).1
    rw [hfacts.1, hfacts.2] at hused
    cases hused

end Jos.Fs
