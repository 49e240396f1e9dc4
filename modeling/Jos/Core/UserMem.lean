import Jos.Core.Pmap

/-!
# Page Calls as Programs See Them

The entry that each environment has for each of its pages, and the reference counts:
what user programs change with `sys_page_map` and `sys_page_unmap` and look at through
`vpt` and `pages`. An entry is zero where nothing is mapped. The page tables themselves
are those of `Vm`; here the ones that the calls go through are there already.

`duppage` of `lib/fork.c` is the list of the mappings it asks for, so that other
environments can run in between.

## Main definitions

* `Pages`: The entries and the counts.
* `Pages.pageInsert`, `Pages.pageRemove`: What is left of them without the walk.
* `Pages.sysPageMap`, `Pages.sysPageUnmap`: The calls.
* `duppage`: The mappings for one page of a child.
-/

namespace Jos.User

open Function (update)

/-- `PTE_SHARE` -/
def pteShare : Pte := 0x400

/-- `PTE_COW` -/
def pteCow : Pte := 0x800

/-- The entries by environment and page number, and the `pp_ref` fields. -/
structure Pages where
  maps : Nat × Nat → Pte
  ppRef : Nat → BitVec 16

namespace Pages

/-- `vpt[v] & PTE_P` -/
def present (m : Pages) (x : Nat × Nat) : Bool := hasFlags (m.maps x) pteP

/-- `page_remove`: an entry that is zero names page 0. -/
def pageRemove (m : Pages) (x : Nat × Nat) : Pages :=
  { maps := update m.maps x 0
    ppRef := update m.ppRef (ppn (m.maps x)) (m.ppRef (ppn (m.maps x)) - 1) }

@[simp] theorem pageRemove_maps (m : Pages) (x : Nat × Nat) :
    (m.pageRemove x).maps = update m.maps x 0 := rfl
@[simp] theorem pageRemove_ppRef (m : Pages) (x : Nat × Nat) :
    (m.pageRemove x).ppRef =
      update m.ppRef (ppn (m.maps x)) (m.ppRef (ppn (m.maps x)) - 1) := rfl

/-- `page_insert` -/
def pageInsert (m : Pages) (x : Nat × Nat) (pp : Nat) (perm : BitVec 32) : Pages :=
  let m :=
    if pteAddr (m.maps x) ≠ page2pa pp then
      let m := if m.maps x ≠ 0 then m.pageRemove x else m
      { m with ppRef := update m.ppRef pp (m.ppRef pp + 1) }
    else m
  { m with maps := update m.maps x (page2pa pp ||| (perm ||| 1).signExtend 64) }

/-- `sys_page_map`, with `none` for an address that it does not accept. -/
def sysPageMap (m : Pages) (src dst : Nat × Nat) (perm : BitVec 32) : Option Pages :=
  if utop ≤ src.2 * pgSize ∨ utop ≤ dst.2 * pgSize then none
  else some (m.pageInsert dst (ppn (m.maps src)) perm)

/-- `sys_page_unmap`, where the result is not looked at. -/
def sysPageUnmap (m : Pages) (x : Nat × Nat) : Pages :=
  if utop ≤ x.2 * pgSize then m else m.pageRemove x

/-- The pages below number `n` that an environment has, in `env_free`. -/
def envFree (m : Pages) (e : Nat) : Nat → Pages
  | 0 => m
  | n + 1 =>
    let m := m.envFree e n
    if m.present (e, n) then m.pageRemove (e, n) else m

end Pages

/-! ## Fork -/

/-- The address space in which `duppage` maps a page. -/
inductive Side
  | child
  | self
deriving DecidableEq

/-- `duppage`: the calls of `sys_page_map` for a page with this entry, each with its
    permissions. -/
def duppage (pte : Pte) : List (Side × BitVec 32) :=
  if pte &&& pteSyscall &&& pteShare ≠ 0 then [(.child, (pte &&& pteSyscall).setWidth 32)]
  else if pte &&& pteW ≠ 0 ∨ pte &&& pteCow ≠ 0 then [(.child, 0x805), (.self, 0x805)]
  else [(.child, (pte &&& 0xFFF).setWidth 32)]

/-- The first page that `fork` looks at. -/
def firstPage : Nat := utext / pgSize

/-- The page of the stack, which `fork` copies after its loop. -/
def stackPage : Nat := (ustacktop - pgSize) / pgSize

/-- What `fork` does with page `v`: the loop leaves out what is not mapped. -/
def forkPage (m : Pages) (e v : Nat) : List (Side × BitVec 32) :=
  if v = stackPage ∨ m.present (e, v) then duppage (m.maps (e, v)) else []

end Jos.User
