import Jos.Core.Mmu
import Jos.Lib.Bytes

/-!
# Spawn

`spawn` of `lib/spawn.c` with `init_stack` and `map_segment`. Of the caller there is what
the function takes and has to give back: a descriptor, the page at `UTEMP` and a new
environment. Whether a call succeeds comes from outside, with one answer for each call that
may fail, and the calls are written down.

The header of the program is read to a buffer on the stack. Around the buffer there is what
the stack holds, which also comes from outside.

## Main definitions

* `Stack`, `initStack`: The page with the arguments, and what was written for it.
* `Op`, `Outside`: The calls that may fail, and how they come out.
* `World`: What `spawn` changes.
* `mapSegment`: A segment of the program.
* `spawn`: The function.
-/

namespace Jos.Spawn

open Lib.Bytes
open BitVec (ofNat)

/-- `UTEMP` -/
def utemp : Nat := 0x400000

def eInval : Int := -3

def eNoMem : Int := -4

def eNoFreeEnv : Int := -5

def eNotFound : Int := -11

def eNotExec : Int := -14

/-! ## The stack page -/

/-- Memory, and the ranges that were written to. -/
structure Stack where
  mem : Nat → BitVec 8
  log : List (Nat × Nat)

/-- A word is stored. -/
def Stack.put (p : Stack) (a v : BitVec 64) : Stack :=
  ⟨store p.mem 8 a.toNat v.toNat, (a.toNat, 8) :: p.log⟩

/-- `strcpy` -/
def Stack.strcpy (p : Stack) (a : BitVec 64) (s : List (BitVec 8)) : Stack where
  mem x := if a.toNat ≤ x ∧ x ≤ a.toNat + s.length then s.getD (x - a.toNat) 0 else p.mem x
  log := (a.toNat, s.length + 1) :: p.log

/-- `strlen(s) + 1` as it is added to a pointer. -/
def room (s : List (BitVec 8)) : BitVec 64 := (ofNat 32 s.length + 1).signExtend 64

/-- `string_size` -/
def stringSize (argv : List (List (BitVec 8))) : BitVec 64 := (argv.map room).sum

/-- `UTEMP2USTACK` -/
def utemp2ustack (a : BitVec 64) : BitVec 64 :=
  a + ofNat 64 (ustacktop - pgSize) - ofNat 64 utemp

/-- `string_store` -/
def stringStore (argv : List (List (BitVec 8))) : BitVec 64 :=
  ofNat 64 (utemp + pgSize) - stringSize argv

/-- `argc` -/
def argc (argv : List (List (BitVec 8))) : BitVec 32 := ofNat 32 argv.length

/-- `argv_store` -/
def argvStore (argv : List (List (BitVec 8))) : BitVec 64 :=
  stringStore argv - stringStore argv % 8 - (8 * (argc argv + 1)).signExtend 64

/-- The loop over the arguments. -/
def Stack.copyArgs (p : Stack) : BitVec 64 → BitVec 64 → List (List (BitVec 8)) → Stack
  | _, _, [] => p
  | a, q, s :: rest =>
    ((p.put a (utemp2ustack q)).strcpy q s).copyArgs (a + 8) (q + room s) rest

/-- `init_stack` up to the mapping of the page: the page and the initial stack pointer, or
    `none` for `-E_NO_MEM`. The assertion in it holds, as `string_store` goes up by what was
    taken off before. -/
def initStack (argv : List (List (BitVec 8))) : Option (Stack × BitVec 64) :=
  let a := argvStore argv
  if a - 16 < ofNat 64 utemp then none
  else
    let args := (⟨fun _ => 0, []⟩ : Stack).copyArgs a (stringStore argv)
      (argv.take (argc argv).toInt.toNat)
    let n := (argc argv).signExtend 64
    some (((args.put (a + 8 * n) 0).put (a - 8) (utemp2ustack a)).put (a - 16) n,
      utemp2ustack (a - 16))

/-! ## Segments -/

/-- The calls that may fail: `open`, the `readn` of the header, `sys_exofork`, the
    `sys_page_alloc` and the `sys_page_map` of the stack page, the `sys_page_alloc` for the
    new environment and for `UTEMP`, `seek` with `readn`, the `sys_page_map` of a page of the
    file, and what comes last. -/
inductive Op
  | openFile | header | exofork | stackPage | stackMap | blank | utemp | read | map | start
  deriving DecidableEq

/-- How the call with a number comes out, and what a read leaves in the page that is asked
    for bytes in front of the file. -/
structure Outside where
  ok : Nat → Bool
  reply : Nat → Nat → BitVec 8

/-- A page with its flags, and the number of the call that allocated it, if it is not from
    before. -/
structure Page where
  bytes : Nat → BitVec 8
  perm : BitVec 32
  born : Option Nat

/-- What `spawn` changes: the page at `UTEMP`, whether there is a new environment, its
    pages, and whether the program is open. `seen` are the headers it has looked at, and
    `ops` the calls it has made, the last one first. -/
structure World where
  utemp : Option Page
  alive : Bool
  child : Nat → Option Page
  fd : Bool
  seen : List (BitVec 64)
  ops : List Op

def World.next (w : World) (op : Op) : World := { w with ops := op :: w.ops }

/-- The next call succeeds. -/
def Outside.succeeds (o : Outside) (w : World) : Bool := o.ok w.ops.length

/-- An address that `sys_page_alloc` and `sys_page_map` refuse. -/
def badVa (va : BitVec 64) : Bool := utop ≤ va.toNat || va.toNat % pgSize != 0

/-- A page is mapped in the new environment. -/
def World.insert (w : World) (va : BitVec 64) (page : Page) : World :=
  { w with child := Function.update w.child (va.toNat / pgSize) (some page) }

/-- The arguments of `map_segment`. -/
structure Segment where
  va : BitVec 64
  memsz : BitVec 64
  filesz : BitVec 64
  off : BitVec 32
  write : Bool

/-- `perm`, which the kernel accepts. -/
def Segment.perm (s : Segment) : BitVec 32 := if s.write then 7 else 5

/-- What is read to a page: `n` bytes at `pos`, as far as the file has them. -/
def readn (file : List (BitVec 8)) (pos n : Nat) (k : Nat) : BitVec 8 :=
  if k < n then file.getD (pos + k) 0 else 0

/-- What `seek` and `readn` bring to the page of a round. `seek` takes any offset. -/
def Segment.bytes (s : Segment) (o : Outside) (file : List (BitVec 8)) (i : BitVec 32)
    (w : World) : Nat → BitVec 8 :=
  let pos := (s.off + i).toInt
  if pos < 0 then o.reply w.ops.length
  else readn file pos.toNat (min pgSize (s.filesz - i.signExtend 64).toNat)

/-- One round of the loop, with `none` for a panic. -/
def mapPage (o : Outside) (file : List (BitVec 8)) (s : Segment) (i : BitVec 32) (w : World) :
    Option Int × World :=
  let x := i.signExtend 64
  let born := some w.ops.length
  if s.filesz ≤ x then
    if badVa (s.va + x) then (some eInval, w.next .blank)
    else if !o.succeeds w then (some eNoMem, w.next .blank)
    else (some 0, (w.next .blank).insert (s.va + x) ⟨fun _ => 0, s.perm, born⟩)
  else if !o.succeeds w then (some eNoMem, w.next .utemp)
  else
    let w := { w.next .utemp with utemp := some ⟨fun _ => 0, 7, born⟩ }
    let bytes := s.bytes o file i w
    if !o.succeeds w then (some eInval, w.next .read)
    else
      let w := { w.next .read with utemp := some ⟨bytes, 7, born⟩ }
      if badVa (s.va + x) || !o.succeeds w then (none, w.next .map)
      else (some 0, { (w.next .map).insert (s.va + x) ⟨bytes, s.perm, born⟩ with utemp := none })

/-- The loop, with `none` also when it does not end. -/
def mapLoop (o : Outside) (file : List (BitVec 8)) (s : Segment) :
    Nat → BitVec 32 → World → Option Int × World
  | 0, _, w => (none, w)
  | fuel + 1, i, w =>
    if i.signExtend 64 < s.memsz then
      match mapPage o file s i w with
      | (some 0, w) => mapLoop o file s fuel (i + 4096) w
      | r => r
    else (some 0, w)

/-- The segment with its start rounded down. -/
def Segment.rounded (s : Segment) : Segment :=
  let i := s.va % 4096
  { s with va := s.va - i, memsz := s.memsz + i, filesz := s.filesz + i,
           off := s.off - i.setWidth 32 }

/-- `map_segment`. The variable of the loop has `2 ^ 20` values. -/
def mapSegment (o : Outside) (file : List (BitVec 8)) (s : Segment) (w : World) :
    Option Int × World :=
  mapLoop o file s.rounded (2 ^ 20 + 1) 0 w

/-! ## The function -/

/-- The buffer with the beginning of the file, and what is around it. -/
def elfBuf (file : List (BitVec 8)) (around : BitVec 64 → BitVec 8) (a : BitVec 64) : BitVec 8 :=
  if a.toNat < 512 then file.getD a.toNat 0 else around a

/-- A field of `n` bytes. -/
def field (m : BitVec 64 → BitVec 8) (n : Nat) (a : BitVec 64) : Nat := load m n a

/-- The segment of the program header at `a`. -/
def segment (m : BitVec 64 → BitVec 8) (a : BitVec 64) : Segment where
  va := ofNat 64 (field m 8 (a + 16))
  memsz := ofNat 64 (field m 8 (a + 40))
  filesz := ofNat 64 (field m 8 (a + 32))
  off := ofNat 32 (field m 8 (a + 8))
  write := ofNat 32 (field m 4 (a + 4)) &&& 2 != 0

/-- The loop over the program headers from `a` on, with the cleaning up after an error. -/
def headers (o : Outside) (file : List (BitVec 8)) (m : BitVec 64 → BitVec 8) :
    Nat → BitVec 64 → World → Option Int × World
  | 0, _, w => (some 0, w)
  | n + 1, a, w =>
    let w := { w with seen := a :: w.seen }
    if field m 4 a ≠ 1 then headers o file m n (a + 56) w
    else
      match mapSegment o file (segment m a) w with
      | (some 0, w) => headers o file m n (a + 56) w
      | (some r, w) => (some r, { w with alive := false, fd := false })
      | (none, w) => (none, w)

/-- The file has a header, and it is one of a program. -/
def isElf (file : List (BitVec 8)) : Bool :=
  512 ≤ file.length && field (elfBuf file fun _ => 0) 4 0 == 0x464C457F

/-- The stack page is mapped in the new environment, and no longer at `UTEMP`. -/
def World.withStack (w : World) (bytes : Nat → BitVec 8) : World :=
  { ((w.next .stackPage).next .stackMap).insert (ofNat 64 (ustacktop - pgSize))
      ⟨bytes, 7, some w.ops.length⟩ with utemp := none }

/-- `spawn` from the stack page on, with 0 for the new environment. What comes after the
    segments panics if it fails. -/
def loadImage (o : Outside) (file : List (BitVec 8)) (m : BitVec 64 → BitVec 8) (page : Stack)
    (w : World) : Option Int × World :=
  if !o.succeeds w then (some eNoMem, w.next .stackPage)
  else if !o.succeeds (w.next .stackPage) then
    (some eNoMem, { (w.next .stackPage).next .stackMap with utemp := none })
  else
    match headers o file m (field m 2 56) (ofNat 64 (field m 8 32))
      (w.withStack fun k => page.mem (utemp + k)) with
    | (some 0, w) => (if o.succeeds w then some 0 else none, { w.next .start with fd := false })
    | r => r

/-- The program is open, and there is a new environment. -/
def World.forked (w : World) : World :=
  { ((w.next .openFile).next .header).next .exofork with
    fd := true, alive := true, child := fun _ => none }

/-- `spawn` -/
def spawn (o : Outside) (file : List (BitVec 8)) (around : BitVec 64 → BitVec 8)
    (argv : List (List (BitVec 8))) (w : World) : Option Int × World :=
  let opened := w.next .openFile
  let checked := opened.next .header
  if !o.succeeds w then (some eNotFound, opened)
  else if !isElf file || !o.succeeds opened then (some eNotExec, { checked with fd := false })
  else if !o.succeeds checked then (some eNoFreeEnv, { checked.next .exofork with fd := true })
  else
    match initStack argv with
    | none => (some eNoMem, w.forked)
    | some (page, _) => loadImage o file (elfBuf file around) page w.forked

end Jos.Spawn
