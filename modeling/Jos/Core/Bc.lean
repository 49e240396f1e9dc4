import Jos.Core.Fs
import Jos.Core.Mmu

/-!
# The Block Cache

The block cache of `fs/bc.c` and `fs_sync` of `fs/fs.c`. The disk is mapped from
`DISKMAP` on, one page for each block, and addresses are counted from there. A
block has an entry `vpt[PPN(va)]`: the handler `bc_pgfault` fills it in when the
block is accessed for the first time, the hardware sets `PTE_A` and `PTE_D` in it
on loads and stores, and `flush_block` clears them.

The super block and the bitmap are read through the cache as well, also by the
handler itself, so that faults can nest. The depth they may have is a parameter
of each operation; a handler that faults on its own block without end has no
outcome, like one that panics. Memory and the disk are taken to be there: the
server panics if an allocation or a transfer fails.

## Main definitions

* `Cache`: Disk, pages and entries.
* `Cache.view`: What the server reads at an address.
* `bcPgfault`, `touch`: The handler, and an access with the faults that it takes.
* `load`, `storeByte`, `flushBlock`, `fsSync`: The operations.
* `allocBlock`: `alloc_block` with the accesses it makes.
-/

namespace Jos.Bc

open Fs (Mem sNblocks bitmapWord)

/-- `DISKSIZE / BLKSIZE` -/
def diskBlocks : Nat := 0xC0000

/-- The disk, the bytes of the mapped pages, and the entry of each block. `frame`
    is the physical page that an allocation for a block gets, `super` and
    `bitmap` say whether these pointers are set. -/
structure Cache where
  disk : Mem
  page : Mem
  vpt : Nat → Pte
  frame : Nat → Nat
  super : Bool
  bitmap : Bool

namespace Cache

/-- `va_is_mapped`: a block with a present entry has its tables. -/
def mapped (c : Cache) (b : Nat) : Bool := c.vpt b &&& pteP != 0

/-- `va_is_not_accessed`, which says whether the block was accessed. -/
def accessed (c : Cache) (b : Nat) : Bool := c.vpt b &&& pteA != 0

/-- `va_is_dirty` -/
def dirty (c : Cache) (b : Nat) : Bool := c.vpt b &&& pteD != 0

/-- What a load from an address gives: the byte of the page, or the one that the
    handler is going to read from the disk. -/
def view (c : Cache) : Mem := fun a => if c.mapped (a / 4096) then c.page a else c.disk a

def setPte (c : Cache) (b : Nat) (e : Pte) : Cache :=
  { c with vpt := fun x => if x = b then e else c.vpt x }

/-- The hardware sets flags in an entry. -/
def mark (c : Cache) (b : Nat) (flags : Pte) : Cache := c.setPte b (c.vpt b ||| flags)

/-- `sys_page_alloc(0, addr, PTE_P | PTE_W | PTE_U)` and `ide_read`, which stores
    into the page. -/
def readIn (c : Cache) (b : Nat) : Cache :=
  { c.setPte b (page2pa (c.frame b) ||| 7 ||| pteA ||| pteD) with
    page := fun a => if a / 4096 = b then c.disk a else c.page a }

/-- `ide_write` of a page to its block. -/
def writeOut (c : Cache) (b : Nat) : Cache :=
  { c with disk := fun a => if a / 4096 = b then c.page a else c.disk a }

end Cache

/-- `super && blockno >= super->s_nblocks`, with the accesses it makes: whether
    the block exists as far as the super block is known. -/
def inDisk (touch : Cache → Nat → Option Cache) (c : Cache) (b : Nat) : Option (Bool × Cache) :=
  if c.super then (touch c 1).map fun c => (decide (b < sNblocks c.view), c)
  else some (true, c)

/-- `block_is_free`, with the accesses it makes. -/
def blockIsFree (touch : Cache → Nat → Option Cache) (c : Cache) (b : Nat) :
    Option (Bool × Cache) :=
  if c.super then
    (touch c 1).bind fun c =>
      if b < sNblocks c.view then
        (touch c (bitmapWord b / 4096)).map fun c =>
          ((Lib.Bytes.load c.view 4 (bitmapWord b)).testBit (b % 32), c)
      else some (false, c)
  else some (false, c)

/-- `bc_pgfault` for a fault in block `b`; `touch` are the accesses that the
    handler makes itself. -/
def bcPgfault (touch : Cache → Nat → Option Cache) (c : Cache) (b : Nat) : Option Cache :=
  if diskBlocks ≤ b then none
  else
    (inDisk touch c b).bind fun r =>
      if r.1 then
        let c := r.2.readIn b
        if c.bitmap then
          (blockIsFree touch c b).bind fun r => if r.1 then none else some r.2
        else some c
      else none

/-- An access to block `b`, with faults nested up to a depth. -/
def touch : Nat → Cache → Nat → Option Cache
  | 0, c, b => if c.mapped b then some (c.mark b pteA) else none
  | depth + 1, c, b =>
    if c.mapped b then some (c.mark b pteA)
    else (bcPgfault (touch depth) c b).map fun c => c.mark b pteA

/-- A load of the byte at `a`. -/
def load (depth : Nat) (c : Cache) (a : Nat) : Option (BitVec 8 × Cache) :=
  (touch depth c (a / 4096)).map fun c => (c.page a, c)

/-- A store to `a`. -/
def storeByte (depth : Nat) (c : Cache) (a : Nat) (v : BitVec 8) : Option Cache :=
  (touch depth c (a / 4096)).map fun c =>
    { c.mark (a / 4096) pteD with page := fun x => if x = a then v else c.page x }

/-- The entry that `sys_page_map` of a page onto itself leaves: `page_insert`
    keeps the address and sets the flags anew. -/
def remap (e : Pte) (perm : BitVec 32) : Pte := pteAddr e ||| (perm ||| 1).signExtend 64

/-- `PTE_SYSCALL & ~PTE_D` -/
def flushPerm : BitVec 32 := 0xE07 &&& ~~~(0x40 : BitVec 32)

/-- `flush_block` -/
def flushBlock (c : Cache) (a : Nat) : Option Cache :=
  let b := a / 4096
  if diskBlocks * 4096 ≤ a then none
  else if c.mapped b && (c.dirty b || c.accessed b) then
    some ((c.writeOut b).setPte b (remap (c.vpt b) flushPerm))
  else some c

/-- `diskaddr` -/
def diskaddr (depth : Nat) (c : Cache) (b : Nat) : Option (Nat × Cache) :=
  if b = 0 then none
  else (inDisk (touch depth) c b).bind fun r => if r.1 then some (b * 4096, r.2) else none

/-- The loop of `fs_sync` from block `i` on, at most `n` rounds. -/
def syncFrom (depth : Nat) : Nat → Cache → Nat → Option Cache
  | 0, _, _ => none
  | n + 1, c, i =>
    (touch depth c 1).bind fun c =>
      if i < sNblocks c.view then
        (diskaddr depth c i).bind fun r =>
          (flushBlock r.2 r.1).bind fun c => syncFrom depth n c (i + 1)
      else some c

/-- `fs_sync`, for at most `n` rounds: `super` is not looked at before it is
    used. -/
def fsSync (depth n : Nat) (c : Cache) : Option Cache :=
  if c.super then syncFrom depth n c 1 else none

/-! ## Allocation -/

/-- A store of a word, which lies in one block. -/
def storeWord (depth : Nat) (c : Cache) (a v : Nat) : Option Cache :=
  (touch depth c (a / 4096)).map fun c =>
    { c.mark (a / 4096) pteD with page := Lib.Bytes.store c.page 4 a v }

/-- The part of `alloc_block` for a free block: clear its bit, flush the first block of the
    bitmap, and look at the bit again. -/
def takeBlock (depth : Nat) (c : Cache) (b : Nat) : Option (Except Int Nat × Cache) :=
  let a := bitmapWord b
  (touch depth c (a / 4096)).bind fun c =>
    (storeWord depth c a (Lib.Bytes.load c.view 4 a ^^^ 1 <<< (b % 32))).bind fun c =>
      (diskaddr depth c 2).bind fun r =>
        (flushBlock r.2 r.1).bind fun c =>
          (blockIsFree (touch depth) c b).bind fun r =>
            if r.1 then none else some (.ok b, r.2)

/-- The loop of `alloc_block` from block `b` on, at most `n` rounds. -/
def allocFrom (depth : Nat) : Nat → Cache → Nat → Option (Except Int Nat × Cache)
  | 0, _, _ => none
  | n + 1, c, b =>
    (touch depth c 1).bind fun c =>
      if b < sNblocks c.view then
        (blockIsFree (touch depth) c b).bind fun r =>
          if r.1 then takeBlock depth r.2 b else allocFrom depth n r.2 (b + 1)
      else some (.error Fs.eNoDisk, c)

/-- `alloc_block`, for at most `n` rounds. -/
def allocBlock (depth n : Nat) (c : Cache) : Option (Except Int Nat × Cache) :=
  if c.super then allocFrom depth n c 1 else none

end Jos.Bc
