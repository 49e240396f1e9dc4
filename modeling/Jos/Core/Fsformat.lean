import Jos.Core.Fs

/-!
# Formatting a Disk

The host program `fs/fsformat.c`, which makes the image of a disk from a list of
files. Disk and heap of the program are one memory: the image is mapped at
address 0, and the entries of the root directory, which `malloc` returns zeroed,
are at `heap`, behind any disk. `none` is a panic or the message about the usage.

The two `ROUNDUP` of the program are the same macro: on the `uint32_t` of `alloc`
and `finishfile` it wraps around for 0, on the `int` of `finishdir` it does not.

## Main definitions

* `Input`, `Format`: The files, and the state of the program.
* `alloc`, `opendisk`, `finishfile`, `diradd`, `writefile`, `finishdir`,
  `finishdisk`: The parts of the program.
* `fsformat`: The image.
-/

namespace Jos.Fs

open Lib.Bytes (load store storeList)

/-- A file of the host: its name on the command line and its contents. -/
structure Input where
  name : List (BitVec 8)
  data : List (BitVec 8)

/-- The globals of the program. -/
structure Format where
  nblocks : Nat
  mem : Mem
  diskpos : Nat
  super : Nat
  bitmap : Nat

namespace Format

/-- Where `malloc` puts the entries of the directory. -/
def heap : Nat := 0x100000000

/-- `ROUNDUP(n, BLKSIZE)` for a `uint32_t` -/
def roundup (n : BitVec 32) : BitVec 32 := n - 1#32 + 4096#32 - (n - 1#32) % 4096#32

/-- `ROUNDUP(n, BLKSIZE)` for an `int` -/
def roundupInt (n : BitVec 32) : BitVec 32 := n - 1#32 + 4096#32 - (n - 1#32).srem 4096#32

def blockof (pos : Nat) : Nat := pos / 4096

/-- `alloc`: where the bytes begin, and the state. -/
def alloc (s : Format) (bytes : BitVec 32) : Option (Nat × Format) :=
  let pos := s.diskpos + (roundup bytes).toNat
  if s.nblocks ≤ blockof pos then none else some (s.diskpos, { s with diskpos := pos })

def setMem (s : Format) (m : Mem) : Format := { s with mem := m }

/-- `opendisk`. The disk is all zeros after `ftruncate`. -/
def opendisk (nblocks : Nat) : Option Format :=
  (alloc ⟨nblocks, fun _ => 0, 0, 0, 0⟩ 4096).bind fun r =>
    (alloc r.2 4096).bind fun r =>
      let super := r.1
      let m := store r.2.mem 4 super 0x4A0530AE
      let m := store m 4 (super + 4) nblocks
      let m := store m 4 (super + 8 + 132) 1
      let m := copy m (super + 8) [slash, 0]
      let nbitblocks := (nblocks + 32767) / 32768
      (alloc (r.2.setMem m) (BitVec.ofNat 32 (nbitblocks * 4096))).map fun r =>
        let bitmap := r.1
        let m := copy r.2.mem bitmap (List.replicate (nbitblocks * 4096) 0xFF)
        { r.2 with mem := m, super := super, bitmap := bitmap }

/-- `finishfile`: fill in the size and the block numbers of a file whose blocks
    begin at `start`. The two loops store numbers in a row. -/
def finishfile (s : Format) (f start : Nat) (len : BitVec 32) : Option Format :=
  let m := setSize s.mem f len
  let n := (roundup len).toNat / 4096
  let i := min n 10
  let m := storeList m 4 (f + 136) ((List.range i).map fun i => start + i)
  if i = 10 then
    (alloc (s.setMem m) 4096).map fun r =>
      let ind := r.1
      let m := setIndirect r.2.mem f (blockof ind)
      r.2.setMem (storeList m 4 ind ((List.range (n - 10)).map fun i => start + (10 + i)))
  else some (s.setMem m)

/-- `diradd` to a directory with `n` entries: the new entry, and the state. -/
def diradd (s : Format) (n : Nat) (type : Nat) (name : List (BitVec 8)) : Option (Nat × Format) :=
  let out := heap + 256 * n
  if 128 < n + 1 then none
  else
    let m := copy s.mem out (name ++ [0])
    some (out, s.setMem (store m 4 (out + 132) type))

/-- The part of a path after the last slash. -/
def last (name : List (BitVec 8)) : List (BitVec 8) :=
  (name.reverse.takeWhile (· != slash)).reverse

/-- `writefile` to a directory with `n` entries. -/
def writefile (s : Format) (n : Nat) (file : Input) : Option Format :=
  if 1034 * 4096 ≤ file.data.length then none
  else
    (diradd s n 0 (last file.name)).bind fun r =>
      let f := r.1
      (alloc r.2 (BitVec.ofNat 32 file.data.length)).bind fun r =>
        let start := r.1
        finishfile (r.2.setMem (copy r.2.mem start file.data)) f (blockof start)
          (BitVec.ofNat 32 file.data.length)

/-- The loop over the files, from a directory with `n` entries on. -/
def writefiles : Format → Nat → List Input → Option Format
  | s, _, [] => some s
  | s, n, file :: files => (writefile s n file).bind fun s => writefiles s (n + 1) files

/-- `finishdir` for the root directory with `n` entries. -/
def finishdir (s : Format) (n : Nat) : Option Format :=
  let size := n * 256
  (alloc s (BitVec.ofNat 32 size)).bind fun r =>
    let start := r.1
    finishfile (r.2.setMem (copy r.2.mem start (bytes r.2.mem heap size))) (r.2.super + 8)
      (blockof start) (roundupInt (BitVec.ofNat 32 size))

/-- `bitmap[i/32] &= ~(1<<(i%32))` -/
def clearBit (bitmap : Nat) (m : Mem) (i : Nat) : Mem :=
  let w := bitmap + 4 * (i / 32)
  store m 4 w (load m 4 w &&& ((2 ^ 32 - 1) ^^^ (1 <<< (i % 32))))

/-- `finishdisk` -/
def finishdisk (s : Format) : Mem :=
  (List.range (blockof s.diskpos)).foldl (clearBit s.bitmap) s.mem

end Format

open Format in
/-- The program: the image of a disk with `nblocks` blocks. -/
def fsformat (nblocks : Nat) (files : List Input) : Option Mem :=
  if nblocks < 2 ∨ 10240 < nblocks then none
  else
    (opendisk nblocks).bind fun s =>
      (writefiles s 0 files).bind fun s =>
        (finishdir s files.length).map fun s =>
          let m := finishdisk s
          fun a => if a < nblocks * 4096 then m a else 0

end Jos.Fs
