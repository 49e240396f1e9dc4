import Jos.Lib.Bytes
import Jos.Lib.Loop
import Jos.Lib.Outcome

/-!
# The File System

The file system of `fs/fs.c`. The disk is one memory of bytes, addressed from
`DISKMAP` on: the block cache of `fs/bc.c` loads and writes back blocks without
changing what is read. The super block is block 1, the bitmap begins at
block 2, and a `struct File` has 256 bytes, wherever it is.

A function that can `panic` returns an `Outcome`: `none` is the panic, an
`.error` the negative code. The numbers of `inc/fs.h` are written out: `BLKSIZE`
is 4096, `NDIRECT` 10, `NINDIRECT` 1024, `MAXNAMELEN` 128 and `BLKFILES` 16.
Block numbers are below `DISKSIZE / BLKSIZE`, as `check_super` makes sure, so
that they fit an `int`.

## Main definitions

* `Mem`: The disk.
* `blockIsFree`, `freeBlock`, `allocBlock`: The bitmap.
* `fileBlockWalk`, `fileGetBlock`: The blocks of a file.
* `dirLookup`, `dirAllocFile`, `walkPath`: Directories and paths.
* `fileCreate`, `fileOpen`, `fileRead`, `fileWrite`, `fileSetSize`, `fileRemove`:
  The operations.
-/

namespace Jos.Fs

open Lib.Bytes (load store)

/-- The disk: the byte at each address from `DISKMAP` on. -/
abbrev Mem := Nat → BitVec 8

/-- The outcome of a function over the disk. -/
abbrev Res (α : Type) := Lib.Outcome Mem Int α

def eInval : Int := -3
def eNoDisk : Int := -9
def eNotFound : Int := -11
def eBadPath : Int := -12
def eFileExists : Int := -13

/-! ## Memory -/

/-- `memset(a, 0, n)` -/
def zero (m : Mem) (a n : Nat) : Mem := fun x => if a ≤ x ∧ x < a + n then 0 else m x

/-- The `n` bytes from `a` on. -/
def bytes (m : Mem) (a n : Nat) : List (BitVec 8) := (List.range n).map fun i => m (a + i)

/-- Copy bytes to `a` and the following addresses. -/
def copy (m : Mem) (a : Nat) (bs : List (BitVec 8)) : Mem := fun x =>
  if a ≤ x ∧ x < a + bs.length then bs.getD (x - a) 0 else m x

/-- `strcmp(a, s) == 0` for a string `s` without its NUL. -/
def strEq (m : Mem) (a : Nat) : List (BitVec 8) → Bool
  | [] => m a == 0
  | c :: s => m a == c && strEq m (a + 1) s

/-! ## Structures -/

/-- `super->s_nblocks` -/
def sNblocks (m : Mem) : Nat := load m 4 4100

/-- `&super->s_root` -/
def sRoot : Nat := 4104

def fSize (m : Mem) (f : Nat) : BitVec 32 := BitVec.ofNat 32 (load m 4 (f + 128))
def fType (m : Mem) (f : Nat) : Nat := load m 4 (f + 132)
def fIndirect (m : Mem) (f : Nat) : Nat := load m 4 (f + 176)

/-- `f->f_size = size` -/
def setSize (m : Mem) (f : Nat) (size : BitVec 32) : Mem := store m 4 (f + 128) size.toNat

/-- `f->f_indirect = blockno` -/
def setIndirect (m : Mem) (f blockno : Nat) : Mem := store m 4 (f + 176) blockno

/-- `diskaddr` -/
def diskaddr (m : Mem) (blockno : Nat) : Option Nat :=
  if blockno = 0 ∨ sNblocks m ≤ blockno then none else some (blockno * 4096)

/-! ## The bitmap -/

/-- The address of the word of the bitmap with the bit for a block. -/
def bitmapWord (blockno : Nat) : Nat := 8192 + 4 * (blockno / 32)

/-- `block_is_free` -/
def blockIsFree (m : Mem) (blockno : Nat) : Bool :=
  decide (blockno < sNblocks m) && (load m 4 (bitmapWord blockno)).testBit (blockno % 32)

/-- `free_block` -/
def freeBlock (m : Mem) (blockno : Nat) : Option Mem :=
  if blockno = 0 then none
  else
    let w := bitmapWord blockno
    some (store m 4 w (load m 4 w ||| 1 <<< (blockno % 32)))

/-- `alloc_block`: the first free block. The flush of block 2 panics on a disk
    that does not have it. -/
def allocBlock (m : Mem) : Res Nat :=
  match (List.range' 1 (sNblocks m - 1)).find? (blockIsFree m) with
  | none => some (.error eNoDisk, m)
  | some blockno =>
    (diskaddr m 2).map fun _ =>
      let w := bitmapWord blockno
      (.ok blockno, store m 4 w (load m 4 w ^^^ 1 <<< (blockno % 32)))

/-! ## The blocks of a file -/

/-- The part of `file_block_walk` that makes sure of the indirect block. A new
    one is cleared. -/
def needIndirect (m : Mem) (f : Nat) (alloc : Bool) : Res Unit :=
  if fIndirect m f ≠ 0 then some (.ok (), m)
  else if !alloc then some (.error eNotFound, m)
  else
    (allocBlock m).andThen fun r m =>
      let m := setIndirect m f r
      (diskaddr m (fIndirect m f)).map fun a => (.ok (), zero m a 4096)

/-- `file_block_walk`: the address of the slot for a block of the file. -/
def fileBlockWalk (m : Mem) (f filebno : Nat) (alloc : Bool) : Res Nat :=
  if 1034 ≤ filebno then some (.error eInval, m)
  else if filebno < 10 then some (.ok (f + 136 + 4 * filebno), m)
  else
    (needIndirect m f alloc).andThen fun _ m =>
      (diskaddr m (fIndirect m f)).map fun a => (.ok (a + 4 * (filebno - 10)), m)

/-- The part of `file_get_block` that makes sure of the data block: a new one
    keeps what is in it. -/
def needBlock (m : Mem) (slot : Nat) : Res Unit :=
  if load m 4 slot ≠ 0 then some (.ok (), m)
  else
    match allocBlock m with
    | none => none
    | some (.error _, m) => some (.error eNoDisk, m)
    | some (.ok r, m) => some (.ok (), store m 4 slot r)

/-- `file_get_block`: the address of a block of the file, allocated if need be. -/
def fileGetBlock (m : Mem) (f filebno : Nat) : Res Nat :=
  (fileBlockWalk m f filebno true).andThen fun slot m =>
    (needBlock m slot).andThen fun _ m =>
      (diskaddr m (load m 4 slot)).map fun a => (.ok a, m)

/-- `file_free_block`, without the code it returns: its caller prints a warning
    and goes on. -/
def fileFreeBlock (m : Mem) (f filebno : Nat) : Option Mem :=
  match fileBlockWalk m f filebno false with
  | none => none
  | some (.error _, m) => some m
  | some (.ok slot, m) =>
    if load m 4 slot ≠ 0 then (freeBlock m (load m 4 slot)).map fun m => store m 4 slot 0
    else some m

/-- `(size + BLKSIZE - 1) / BLKSIZE`, computed in `int` and stored in a
    `uint32_t`. -/
def sizeBlocks (size : BitVec 32) : Nat := ((size + 4095).sdiv 4096).toNat

/-- `file_truncate_blocks` -/
def fileTruncateBlocks (m : Mem) (f : Nat) (newsize : BitVec 32) : Option Mem :=
  let oldNblocks := sizeBlocks (fSize m f)
  let newNblocks := sizeBlocks newsize
  (Lib.forUpto (fun i m => fileFreeBlock m f (newNblocks + i)) (oldNblocks - newNblocks) m).bind
    fun m =>
      if newNblocks ≤ 10 ∧ fIndirect m f ≠ 0 then
        (freeBlock m (fIndirect m f)).map fun m => setIndirect m f 0
      else some m

/-- `file_set_size` -/
def fileSetSize (m : Mem) (f : Nat) (newsize : BitVec 32) : Option Mem :=
  (if newsize.slt (fSize m f) then fileTruncateBlocks m f newsize else some m).map fun m =>
    setSize m f newsize

/-- `file_flush`: it changes nothing that is read, but `diskaddr` can panic. -/
def fileFlush (m : Mem) (f : Nat) : Option Unit :=
  (Lib.forUpto (fun i (_ : Unit) =>
      match fileBlockWalk m f i false with
      | none => none
      | some (.error _, _) => some ()
      | some (.ok slot, m) =>
        if load m 4 slot = 0 then some () else (diskaddr m (load m 4 slot)).map fun _ => ())
    ((fSize m f + 4095).sdiv 4096).toInt.toNat ()).bind fun _ =>
      if fIndirect m f ≠ 0 then (diskaddr m (fIndirect m f)).map fun _ => () else some ()

/-! ## Reading and writing -/

/-- The number of bytes that one turn of the loops of `file_read` and
    `file_write` copies: `MIN(BLKSIZE - pos % BLKSIZE, offset + count - pos)`,
    where `stop` is `offset + count`. The comparison is that of `size_t`. -/
def chunk (pos : BitVec 32) (stop : BitVec 64) : BitVec 32 :=
  let a := (4096#32 - pos.srem 4096#32).signExtend 64
  let b := stop - pos.signExtend 64
  (if a ≤ b then a else b).setWidth 32

/-- The loop of `file_read` and `file_write` from `pos` to `stop`. `act` copies
    between the disk and a buffer. At most 1035 turns are possible, since block
    numbers from `NDIRECT + NINDIRECT` on are refused. -/
def fileLoop {σ : Type} (act : Mem → Nat → Nat → σ → Mem × σ) (f : Nat) (stop : BitVec 64) :
    Nat → BitVec 32 → Mem × σ → Lib.Outcome (Mem × σ) Int Unit
  | 0, _, _ => none
  | n + 1, pos, (m, x) =>
    if pos.signExtend 64 < stop then
      match fileGetBlock m f (pos.sdiv 4096#32).toNat with
      | none => none
      | some (.error e, m) => some (.error e, (m, x))
      | some (.ok blk, m) =>
        let bn := chunk pos stop
        fileLoop act f stop n (pos + bn)
          (act m (blk + (pos.srem 4096#32).toInt).toNat bn.toNat x)
    else some (.ok (), (m, x))

/-- `memmove(buf, blk + pos % BLKSIZE, bn)` -/
def readChunk (m : Mem) (a n : Nat) (buf : List (BitVec 8)) : Mem × List (BitVec 8) :=
  (m, buf ++ bytes m a n)

/-- `memmove(blk + pos % BLKSIZE, buf, bn)` -/
def writeChunk (m : Mem) (a n : Nat) (buf : List (BitVec 8)) : Mem × List (BitVec 8) :=
  (copy m a (buf.take n), buf.drop n)

/-- The value of a `size_t` returned as an `int`. -/
def asInt (n : BitVec 64) : Int := (n.setWidth 32).toInt

/-- What the loop means for the caller: a code or, after all turns, the count. -/
def counted {σ : Type} (count : BitVec 64) (r : Except Int Unit × Mem × σ) : Int × Mem × σ :=
  match r with
  | (.error e, s) => (e, s)
  | (.ok _, s) => (asInt count, s)

/-- `file_read`, with `act` for the copying: the value returned, the disk, and
    what `act` has made of `x`. -/
def fileReadBy {σ : Type} (act : Mem → Nat → Nat → σ → Mem × σ) (m : Mem) (f : Nat)
    (count : BitVec 64) (offset : BitVec 32) (x : σ) : Option (Int × Mem × σ) :=
  if (fSize m f).sle offset then some (0, m, x)
  else
    let rest := (fSize m f - offset).signExtend 64
    let count := if count ≤ rest then count else rest
    (fileLoop act f (offset.signExtend 64 + count) 1036 offset (m, x)).map (counted count)

/-- `file_read`: the value returned, what is in the buffer, and the disk. -/
def fileRead (m : Mem) (f : Nat) (count : BitVec 64) (offset : BitVec 32) :
    Option (Int × List (BitVec 8) × Mem) :=
  (fileReadBy readChunk m f count offset []).map fun r => (r.1, r.2.2, r.2.1)

/-- `file_write`, with `act` for the copying. -/
def fileWriteBy {σ : Type} (act : Mem → Nat → Nat → σ → Mem × σ) (m : Mem) (f : Nat)
    (count : BitVec 64) (offset : BitVec 32) (x : σ) : Option (Int × Mem × σ) :=
  let stop := offset.signExtend 64 + count
  (if (fSize m f).signExtend 64 < stop then fileSetSize m f (stop.setWidth 32) else some m).bind
    fun m => (fileLoop act f stop 1036 offset (m, x)).map (counted count)

/-- `file_write`: the value returned and the disk. -/
def fileWrite (m : Mem) (f : Nat) (buf : List (BitVec 8)) (offset : BitVec 32) :
    Option (Int × Mem) :=
  (fileWriteBy writeChunk m f (BitVec.ofNat 64 buf.length) offset buf).map fun r => (r.1, r.2.1)

/-! ## Directories -/

/-- The loops of `dir_lookup` and `dir_alloc_file`: the first entry with a
    property in `n` blocks of the directory from block `i` on. -/
def dirScan (p : Mem → Nat → Bool) (dir : Nat) : Nat → Nat → Mem → Res (Option Nat)
  | 0, _, m => some (.ok none, m)
  | n + 1, i, m =>
    (fileGetBlock m dir i).andThen fun blk m =>
      match (List.range 16).find? fun j => p m (blk + 256 * j) with
      | some j => some (.ok (some (blk + 256 * j)), m)
      | none => dirScan p dir n (i + 1) m

/-- `dir->f_size / BLKSIZE`, with the assertion that it is a whole number. -/
def dirNblock (m : Mem) (dir : Nat) : Option Nat :=
  if (fSize m dir).srem 4096#32 = 0 then some ((fSize m dir).sdiv 4096#32).toNat else none

/-- `dir_lookup` -/
def dirLookup (m : Mem) (dir : Nat) (name : List (BitVec 8)) : Res Nat :=
  (dirNblock m dir).bind fun nblock =>
    (dirScan (fun m f => strEq m f name) dir nblock 0 m).andThen fun r m =>
      match r with
      | some f => some (.ok f, m)
      | none => some (.error eNotFound, m)

/-- `dir_alloc_file`: a free entry, if need be the first one of a new block. -/
def dirAllocFile (m : Mem) (dir : Nat) : Res Nat :=
  (dirNblock m dir).bind fun nblock =>
    (dirScan (fun m f => m f == 0) dir nblock 0 m).andThen fun r m =>
      match r with
      | some f => some (.ok f, m)
      | none => fileGetBlock (setSize m dir (fSize m dir + 4096)) dir nblock

/-- The character `/`. -/
def slash : BitVec 8 := 47

/-- `skip_slash` -/
def skipSlash (path : List (BitVec 8)) : List (BitVec 8) := path.dropWhile (· == slash)

/-- What `walk_path` tells its caller: the file and the directory it is in, or a
    code and, if only the last element is missing, the directory and the name. -/
abbrev Walk := Except (Int × Option (Nat × List (BitVec 8))) (Option Nat × Nat)

/-- The loop of `walk_path`. `f` is what was found so far and `dir` its
    directory; every turn takes an element off the path, so that there are no
    more turns than characters. -/
def walkFrom : Nat → Option Nat → Nat → List (BitVec 8) → Mem → Option (Walk × Mem)
  | 0, dir, f, _, m => some (.ok (dir, f), m)
  | n + 1, dir, f, path, m =>
    if path = [] then some (.ok (dir, f), m)
    else
      let name := path.takeWhile (· != slash)
      let rest := skipSlash (path.dropWhile (· != slash))
      if 128 ≤ name.length then some (.error (eBadPath, none), m)
      else if fType m f ≠ 1 then some (.error (eNotFound, none), m)
      else
        match dirLookup m f name with
        | none => none
        | some (.error r, m) =>
          some (.error (r, if r = eNotFound ∧ rest = [] then some (f, name) else none), m)
        | some (.ok f', m) => walkFrom n (some f) f' rest m

/-- `walk_path` -/
def walkPath (m : Mem) (path : List (BitVec 8)) : Option (Walk × Mem) :=
  let path := skipSlash path
  walkFrom path.length none sRoot path m

/-! ## The operations -/

/-- `file_create` -/
def fileCreate (m : Mem) (path : List (BitVec 8)) : Res Nat :=
  (walkPath m path).bind fun w =>
    match w with
    | (.ok _, m) => some (.error eFileExists, m)
    | (.error (r, none), m) => some (.error r, m)
    | (.error (_, some (dir, name)), m) =>
      (dirAllocFile m dir).andThen fun f m =>
        let m := copy m f (name ++ [0])
        (fileFlush m dir).map fun _ => (.ok f, m)

/-- `file_open` -/
def fileOpen (m : Mem) (path : List (BitVec 8)) : Res Nat :=
  (walkPath m path).map fun w =>
    match w with
    | (.ok (_, f), m) => (.ok f, m)
    | (.error (r, _), m) => (.error r, m)

/-- `file_remove` -/
def fileRemove (m : Mem) (path : List (BitVec 8)) : Res Unit :=
  (fileOpen m path).andThen fun f m =>
    (fileTruncateBlocks m f 0).map fun m => (.ok (), setSize (copy m f [0]) f 0)

end Jos.Fs
