import Mathlib.Algebra.Ring.Nat
import Mathlib.Data.List.Range
import Jos.Core.Mmu
import Jos.Lib.Bytes

/-!
# Malloc

`malloc` and `free` of `lib/malloc.c`. Pages are filled from front to back with the blocks
of small requests, and the last word of a page counts the blocks in it, with one more for
`mptr` while the page is being filled. A request for more than a page gets pages of its
own, all but the last marked in their entries, and the last is filled further.

The pages that `sys_page_alloc` finds come from outside; `none` is a call that fails.

## Main definitions

* `Heap`: The page table, the memory and `mptr`.
* `Heap.free`, `Heap.malloc`: The two functions.
* `Session`, `step`: A program that allocates, frees and writes to its blocks.
* `Heap.mallocWord`, `request`: The same with sizes of 64 bits.
-/

namespace Jos.Malloc

open Lib.Bytes

/-- `MAXMALLOC` -/
def maxmalloc : Nat := 1024 * 1024

/-- `PTE_CONTINUED` -/
def pteContinued : Pte := 0x400

def mbegin : Nat := 0x08000000

def mend : Nat := 0x10000000

/-- What the functions work on: the entries of the page table by page number, memory by
    address, and the next place to fill. -/
structure Heap where
  vpt : Nat → Pte
  mem : Nat → BitVec 8
  mptr : Nat

namespace Heap

/-- `vpt[v] & PTE_P` -/
def present (h : Heap) (v : Nat) : Bool := hasFlags (h.vpt v) pteP

/-- `vpt[v] & PTE_CONTINUED` -/
def continued (h : Heap) (v : Nat) : Bool := h.vpt v &&& pteContinued != 0

/-- `sys_page_alloc`, which has found page `pp`. -/
def sysPageAlloc (h : Heap) (v pp : Nat) (perm : BitVec 32) : Heap :=
  { h with
    vpt := Function.update h.vpt v (page2pa pp ||| (perm ||| 1).signExtend 64)
    mem := fun a => if a / pgSize = v then 0 else h.mem a }

/-- `sys_page_unmap` -/
def sysPageUnmap (h : Heap) (v : Nat) : Heap := { h with vpt := Function.update h.vpt v 0 }

/-- The count at the end of a page. -/
def ref (h : Heap) (v : Nat) : Nat := load h.mem 4 (v * pgSize + (pgSize - 4))

def setRef (h : Heap) (v n : Nat) : Heap :=
  { h with mem := store h.mem 4 (v * pgSize + (pgSize - 4)) n }

/-- The number of pages for `n` bytes. -/
def pagesFor (n : Nat) : Nat := (n + (pgSize - 1)) / pgSize

/-- `isfree` -/
def isfree (h : Heap) (v n : Nat) : Bool :=
  (List.range (pagesFor n)).all fun i =>
    v + i * pgSize < mend && !h.present (v / pgSize + i)

/-! ## Free -/

/-- The loop of `free` over the pages of a block that is continued, with `fuel` pages up to
    `mend`. -/
def freeLoop (h : Heap) : Nat → Nat → Option (Heap × Nat)
  | 0, _ => none
  | fuel + 1, c =>
    if h.continued c then (h.sysPageUnmap c).freeLoop fuel (c + 1) else some (h, c)

/-- `if (--(*ref) == 0) sys_page_unmap(0, c);` -/
def dropRef (h : Heap) (c : Nat) : Heap :=
  let ref := (h.ref c + (2 ^ 32 - 1)) % 2 ^ 32
  if ref = 0 then (h.setRef c ref).sysPageUnmap c else h.setRef c ref

/-- `free`, with `none` for an assertion that fails. -/
def free (h : Heap) (v : Nat) : Option Heap :=
  if v = 0 then some h
  else if mbegin ≤ v ∧ v < mend then
    (h.freeLoop (mend / pgSize - v / pgSize) (v / pgSize)).map fun r => r.1.dropRef r.2
  else none

/-! ## Malloc -/

/-- The search for address space: the place where it ends, and whether there is room for `n`
    bytes and a count. From `mend` on it does not come back, which is `none`: the source
    goes on until the pointer wraps around. -/
def search (h : Heap) (n : Nat) : Nat → Nat → Nat → Option (Bool × Nat)
  | 0, _, _ => none
  | fuel + 1, nwrap, mptr =>
    if h.isfree mptr (n + 4) then some (true, mptr)
    else if mptr + pgSize = mend then
      if nwrap + 1 = 2 then some (false, mbegin) else h.search n fuel (nwrap + 1) mbegin
    else h.search n fuel nwrap (mptr + pgSize)

/-- The rounds that the search takes at most below `mend`. -/
def searchFuel : Nat := 2 * ((mend - mbegin) / pgSize) + 1

/-- The loop that allocates the pages of a block of `n` bytes at page `s`, from the `i`-th
    on; the number of the call that fails is returned. -/
def allocLoop (h : Heap) (s n : Nat) (alloc : Nat → Option Nat) : Nat → Nat → Heap × Option Nat
  | _, 0 => (h, none)
  | i, left + 1 =>
    match alloc i with
    | none => (h, some i)
    | some pp =>
      (h.sysPageAlloc (s + i) pp (if (i + 1) * pgSize < n + 4 then 0x407 else 7)).allocLoop
        s n alloc (i + 1) left

/-- The loop that takes the pages back. -/
def unmapDown (h : Heap) (s : Nat) : Nat → Heap
  | 0 => h.sysPageUnmap s
  | i + 1 => (h.sysPageUnmap (s + (i + 1))).unmapDown s i

/-- A new block at `mptr` with its pages, or 0. -/
def grab (h : Heap) (n : Nat) (alloc : Nat → Option Nat) : Nat × Heap :=
  let r := h.allocLoop (h.mptr / pgSize) n alloc 0 (pagesFor (n + 4))
  match r.2 with
  | some i => (0, r.1.unmapDown (h.mptr / pgSize) i)
  | none =>
    -- one reference for `mptr`, one for the block
    (h.mptr, { r.1.setRef (h.mptr / pgSize + (pagesFor (n + 4) - 1)) 2 with mptr := h.mptr + n })

/-- The second half of `malloc`, from the search on. -/
def fresh (h : Heap) (n : Nat) (alloc : Nat → Option Nat) : Option (Nat × Heap) :=
  (h.search n searchFuel 0 h.mptr).map fun r =>
    if r.1 then ({ h with mptr := r.2 } : Heap).grab n alloc else (0, { h with mptr := r.2 })

/-- `ROUNDUP(n, 4)` -/
def roundup (n : Nat) : Nat := (n + 3) / 4 * 4

/-- `malloc`: the block, or 0. -/
def malloc (h : Heap) (n : Nat) (alloc : Nat → Option Nat) : Option (Nat × Heap) :=
  let h := if h.mptr = 0 then { h with mptr := mbegin } else h
  let n := roundup n
  if maxmalloc ≤ n then some (0, h)
  else if h.mptr % pgSize ≠ 0 then
    let page := h.mptr / pgSize
    if page = (h.mptr + n - 1 + 4) / pgSize then
      some (h.mptr, { h.setRef page (h.ref page + 1) with mptr := h.mptr + n })
    else
      (h.free h.mptr).bind fun h =>
        ({ h with mptr := (h.mptr + pgSize) / pgSize * pgSize } : Heap).fresh n alloc
  else h.fresh n alloc

/-- `ROUNDUP(n, 4)` in the bits of a `size_t`. -/
def roundupWord (n : BitVec 64) : BitVec 64 := (n + 4 - 1) - (n + 4 - 1) % 4

/-- `malloc` for a size as it is passed. Rounding up once more changes nothing. -/
def mallocWord (h : Heap) (n : BitVec 64) (alloc : Nat → Option Nat) : Option (Nat × Heap) :=
  h.malloc (roundupWord n).toNat alloc

end Heap

/-! ## Programs -/

/-- A program: its heap, and the blocks it has with the sizes it asked for. -/
structure Session where
  heap : Heap
  live : List (Nat × Nat)

/-- What a program does with its heap. -/
inductive Event
  | malloc (n : Nat) (alloc : Nat → Option Nat)
  | free (p n : Nat)
  | write (a : Nat) (b : BitVec 8)

/-- One step of a program that asks for blocks of a size that `malloc` takes, frees blocks
    that it has, and writes to them. -/
def step (s : Session) : Event → Option Session
  | .malloc n alloc =>
    if n ≤ maxmalloc - 4 then
      (s.heap.malloc n alloc).map fun r =>
        ⟨r.2, if r.1 = 0 then s.live else (r.1, n) :: s.live⟩
    else none
  | .free p n =>
    if (p, n) ∈ s.live then (s.heap.free p).map fun h => ⟨h, s.live.erase (p, n)⟩ else none
  | .write a b =>
    if s.live.any fun blk => blk.1 ≤ a && a < blk.1 + blk.2 then
      some { s with heap := { s.heap with mem := Function.update s.heap.mem a b } }
    else none

/-- What a program does that passes any size. -/
inductive Request
  | malloc (n : BitVec 64) (alloc : Nat → Option Nat)
  | free (p n : Nat)
  | write (a : Nat) (b : BitVec 8)

/-- One step of a program that asks for blocks of any size, frees blocks that it has, and
    writes to the room that they have got. -/
def request (s : Session) : Request → Option Session
  | .malloc n alloc =>
    (s.heap.mallocWord n alloc).map fun r =>
      ⟨r.2, if r.1 = 0 then s.live else (r.1, (Heap.roundupWord n).toNat) :: s.live⟩
  | .free p n => step s (.free p n)
  | .write a b => step s (.write a b)

/-- A program that starts: there is nothing in the range of the heap. -/
structure Start (s : Session) : Prop where
  mptr : s.heap.mptr = 0
  empty : ∀ v, mbegin / pgSize ≤ v → v < mend / pgSize → s.heap.vpt v = 0
  live : s.live = []

end Jos.Malloc
