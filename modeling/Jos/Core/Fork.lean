import Jos.Core.Fd

/-!
# Copy-on-Write

The memory of programs: the pages that they have mapped, with the bytes in them. A
program that writes to a page for which it has no write access gets a fault, and
`pgfault` of `lib/fork.c` gives it a copy of the page if the page is marked `PTE_COW`.
Any other fault ends the program.

`fork` goes through the pages from `UTEXT` to the stack and calls `duppage` for those that
are there. The parent may write to its memory while it does so, but not in between the
calls of one `duppage`. `set_pgfault_handler` and `sys_exofork` come before: the child
has no pages yet. The pages that `sys_page_alloc` finds come from outside.

## Main definitions

* `Ram`: The mapped pages and their bytes.
* `Ram.pgfault`, `Ram.write`: A store of a program.
* `Fork`, `forkStep`: The loop of `fork`.
* `forkAll`: The loop when there is no memory for some of its calls.
* `copySharedPages`: The loop of `spawn` over the pages of the parent.
-/

namespace Jos.Cow

open User

/-- A program can write to a page with this entry. -/
def writable (w : Pte) : Bool := hasFlags w pteP && hasFlags w pteW && hasFlags w pteU

/-- The page is marked `PTE_SHARE`. -/
def shared (w : Pte) : Bool := w &&& pteShare != 0

/-- The page is marked `PTE_COW`. -/
def cow (w : Pte) : Bool := w &&& pteCow != 0

/-- The pages that are mapped, and the bytes by physical page and offset. -/
structure Ram where
  pages : Pages
  bytes : Nat → Nat → BitVec 8

namespace Ram

/-- The entry for a page of an environment. -/
def entry (m : Ram) (x : Nat × Nat) : Pte := m.pages.maps x

/-- The byte that an environment reads. -/
def read (m : Ram) (x : Nat × Nat) (off : Nat) : Option (BitVec 8) :=
  if m.pages.present x then some (m.bytes (ppn (m.entry x)) off) else none

/-- `sys_page_alloc`, which has found page `pp`. -/
def sysPageAlloc (m : Ram) (x : Nat × Nat) (pp : Nat) (perm : BitVec 32) : Ram :=
  { pages := m.pages.pageInsert x pp perm
    bytes := Function.update m.bytes pp fun _ => 0 }

/-- `memmove` of a whole page. -/
def copyPage (m : Ram) (dst src : Nat × Nat) : Ram :=
  { m with bytes := Function.update m.bytes (ppn (m.entry dst)) (m.bytes (ppn (m.entry src))) }

/-- The page of `PFTEMP`, the last one below the next table after `UTEMP`. -/
def pftempPage : Nat := 0x5FF000 / pgSize

/-- `pgfault`, on a page that is marked `PTE_COW`. -/
def pgfault (m : Ram) (e v pp : Nat) : Option Ram :=
  let m := m.sysPageAlloc (e, pftempPage) pp 7
  let m := m.copyPage (e, pftempPage) (e, v)
  (m.pages.sysPageMap (e, pftempPage) (e, v) 7).map fun p =>
    { m with pages := p.sysPageUnmap (e, pftempPage) }

/-- A byte is stored in a page. -/
def store (m : Ram) (x : Nat × Nat) (off : Nat) (b : BitVec 8) : Ram :=
  let pp := ppn (m.entry x)
  { m with bytes := Function.update m.bytes pp (Function.update (m.bytes pp) off b) }

/-- A program writes a byte; `pp` is the page that `pgfault` gets if there is a fault. -/
def write (m : Ram) (x : Nat × Nat) (off : Nat) (b : BitVec 8) (pp : Nat) : Option Ram :=
  if writable (m.entry x) then some (m.store x off b)
  -- `pgfault` looks at `PTE_COW` only; the `memmove` from a page that is not there would be
  -- a fault of its own, on which it panics
  else if m.pages.present x && cow (m.entry x) then
    (m.pgfault x.1 x.2 pp).bind fun m =>
      if writable (m.entry x) then some (m.store x off b) else none
  else none

end Ram

/-! ## Fork -/

/-- The calls of `sys_page_map` that `duppage` makes for page `v`. -/
def dupCalls (p : Pages) (e child v : Nat) : List (Side × BitVec 32) → Option Pages
  | [] => some p
  | (side, perm) :: calls =>
    (p.sysPageMap (e, v) (Fd.World.sideEnv e child side, v) perm).bind fun p =>
      dupCalls p e child v calls

/-- The loop of `fork` at the page `next`. What the parent had in a page when it was
    copied is kept in `taken`. -/
structure Fork where
  ram : Ram
  next : Nat
  taken : Nat → Nat → BitVec 8

/-- The first thing that `fork` does for the child is to allocate its exception stack. -/
def forkStart (m : Ram) (child pp : Nat) : Fork :=
  { ram := m.sysPageAlloc (child, (utop - pgSize) / pgSize) pp 7
    next := firstPage
    taken := fun _ _ => 0 }

/-- What can happen during `fork`: the next page, or a write of the parent. -/
inductive ForkEvent
  | page
  | write (v off : Nat) (b : BitVec 8) (pp : Nat)

def forkStep (e child : Nat) (f : Fork) : ForkEvent → Option Fork
  | .page =>
    if f.next ≤ stackPage then
      (dupCalls f.ram.pages e child f.next (forkPage f.ram.pages e f.next)).map fun p =>
        { ram := { f.ram with pages := p }
          next := f.next + 1
          taken := Function.update f.taken f.next (f.ram.bytes (ppn (f.ram.entry (e, f.next)))) }
    else none
  | .write v off b pp => (f.ram.write (e, v) off b pp).map fun m => { f with ram := m }

/-- `fork` is done with all pages. -/
def Fork.done (f : Fork) : Prop := f.next = stackPage + 1

/-- `duppage` for page `v`, where a call for one of the two sides may fail. The calls after
    it are not made. -/
def dupTry (p : Pages) (e child v : Nat) (ok : Side → Bool) : List (Side × BitVec 32) → Pages
  | [] => p
  | (side, perm) :: calls =>
    if ok side then
      match p.sysPageMap (e, v) (Fd.World.sideEnv e child side, v) perm with
      | some p => dupTry p e child v ok calls
      | none => p
    else p

/-- The first `n` pages of `fork`: what `duppage` returns is not looked at. -/
def forkTry (p : Pages) (e child : Nat) (ok : Nat → Side → Bool) : Nat → Pages
  | 0 => p
  | n + 1 =>
    let p := forkTry p e child ok n
    dupTry p e child (firstPage + n) (ok (firstPage + n)) (forkPage p e (firstPage + n))

/-- `fork` after `sys_exofork`, with the status of the child when it returns its id. `stack`
    is the page that `sys_page_alloc` has found for the exception stack, and `ok` says which
    calls of `sys_page_map` succeed. -/
def forkAll (p : Pages) (e child : Nat) (stack : Option Nat) (ok : Nat → Side → Bool) :
    EnvStatus × Pages :=
  let p := stack.elim p fun pp => p.pageInsert (child, (utop - pgSize) / pgSize) pp 7
  (.runnable, forkTry p e child ok (stackPage + 1 - firstPage))

/-! ## Spawn -/

/-- The loop of `copy_shared_pages` over `n` pages from `UTEXT` on. -/
def copySharedFrom (p : Pages) (e child : Nat) : Nat → Option Pages
  | 0 => some p
  | n + 1 =>
    (copySharedFrom p e child n).bind fun p =>
      let v := firstPage + n
      if p.present (e, v) && shared (p.maps (e, v) &&& pteSyscall) then
        p.sysPageMap (e, v) (child, v) ((p.maps (e, v) &&& pteSyscall).setWidth 32)
      else some p

/-- `copy_shared_pages`: all pages below that of the stack. -/
def copySharedPages (p : Pages) (e child : Nat) : Option Pages :=
  copySharedFrom p e child (stackPage - firstPage)

/-! ## Programs -/

/-- A byte that an environment writes. -/
structure Write where
  page : Nat × Nat
  off : Nat
  b : BitVec 8
  pp : Nat

def writeStep (m : Ram) (w : Write) : Option Ram := m.write w.page w.off w.b w.pp

end Jos.Cow
