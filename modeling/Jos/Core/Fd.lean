import Jos.Core.Env
import Jos.Core.UserMem

/-!
# File Descriptors

`close` and `dup` of `lib/fd.c`, `devpipe_close` and `_pipeisclosed` of `lib/pipe.c`, the
loop of `fork` and `exit`, for environments that run in turns. A descriptor is a page with
a `struct Fd` and, at a fixed distance, a page with the data of the device. Each system
call is a step of its own; `Task` is where an environment is in its code.

The exception stacks that `fork` allocates are left out: their pages are new ones.

## Main definitions

* `fdPage`, `dataPage`: Where the two pages of a descriptor are.
* `Task`, `World`: The environments and their page tables.
* `World.run`: The next step of one environment.
* `step`: The environments together.
* `World.pipeisclosed`: The test.
-/

namespace Jos.Fd

open User

/-- `MAXFD` -/
def maxfd : Nat := 32

/-- `FDTABLE` -/
def fdtable : BitVec 64 := 0xD0000000

/-- `FILEDATA` -/
def filedata : BitVec 64 := 0xD0020000

/-- `INDEX2FD(i)` -/
def index2fd (i : BitVec 32) : BitVec 64 := fdtable + i.signExtend 64 * 4096

/-- `fd2num(fd)` -/
def fd2num (fd : BitVec 64) : BitVec 64 := (fd - fdtable) / 4096

/-- `fd2data(fd)` -/
def fd2data (fd : BitVec 64) : BitVec 64 := filedata + fd2num fd * 4096

/-- The page numbers of the two pages of a descriptor. -/
def fdPage (i : BitVec 32) : Nat := (index2fd i).toNat / pgSize

def dataPage (i : BitVec 32) : Nat := (fd2data (index2fd i)).toNat / pgSize

/-- What is done after a `close`. -/
inductive Next
  | ret
  | dup (oldfdnum newfdnum : BitVec 32)
  | exit (i : Nat)

/-- What an environment does next. -/
inductive Task
  -- its own code
  | idle
  -- `fd_lookup` and `dev_lookup` of `close`
  | close (fdnum : BitVec 32) (next : Next)
  -- the two calls of `devpipe_close`
  | closeFd (fdnum : BitVec 32) (next : Next)
  | closeData (fdnum : BitVec 32) (next : Next)
  -- the call of `fd_close`
  | closeLast (fdnum : BitVec 32) (next : Next)
  -- the calls of `dup`
  | dupData (oldfdnum newfdnum : BitVec 32)
  | dupFd (oldfdnum newfdnum : BitVec 32)
  | dupErr (newfdnum : BitVec 32)
  | dupErrData (newfdnum : BitVec 32)
  -- `fork` at page `v` for the child, with what is left of `duppage`
  | fork (child v : Nat) (calls : List (Side × BitVec 32))
  -- the loop of `close_all` and `sys_env_destroy`
  | exit (i : Nat)

/-- Where the code goes on after a `close`. -/
def Next.task : Next → Task
  | .ret => .idle
  | .dup oldfdnum newfdnum => .dupData oldfdnum newfdnum
  | .exit i => .exit i

/-- The environments. `isPipe` says of a page that `fd_dev_id` in it is the one of pipes. -/
structure World where
  pages : Pages
  isPipe : Nat → Bool
  status : Nat → EnvStatus
  tasks : Nat → Task

namespace World

/-- The environment goes on somewhere, with other page tables. -/
def goto (w : World) (e : Nat) (pages : Pages) (task : Task) : World :=
  { w with pages := pages, tasks := Function.update w.tasks e task }

@[simp] theorem goto_pages (w : World) (e : Nat) (pages : Pages) (task : Task) :
    (w.goto e pages task).pages = pages := rfl
@[simp] theorem goto_tasks (w : World) (e : Nat) (pages : Pages) (task : Task) :
    (w.goto e pages task).tasks = Function.update w.tasks e task := rfl

/-- `fd_lookup(fdnum, …) >= 0` -/
def fdLookup (w : World) (e : Nat) (fdnum : BitVec 32) : Bool :=
  0 ≤ fdnum.toInt && fdnum.toInt < maxfd && w.pages.present (e, fdPage fdnum)

/-- `sys_page_map` between own pages, with the permissions of the source. -/
def mapOwn (w : World) (e u v : Nat) (ok : Bool) : Option Pages :=
  if ok then w.pages.sysPageMap (e, u) (e, v) ((w.pages.maps (e, u) &&& pteSyscall).setWidth 32)
  else none

/-- The address space of a call of `duppage`. -/
def sideEnv (e child : Nat) : Side → Nat
  | .child => child
  | .self => e

/-- A call of `sys_page_map` for a child can fail if there is no page table in the child
    for the page yet. -/
def noTable (m : Pages) (e v : Nat) : Prop :=
  ∀ u < utop / pgSize, u / 512 = v / 512 → m.maps (e, u) = 0

instance (m : Pages) (e v : Nat) : Decidable (noTable m e v) :=
  inferInstanceAs (Decidable (∀ u < utop / pgSize, u / 512 = v / 512 → m.maps (e, u) = 0))

/-- The next step of `fork`. -/
def forkStep (w : World) (e child v : Nat) (ok : Bool) :
    List (Side × BitVec 32) → Option World
  | (side, perm) :: calls =>
    if ok then
      (w.pages.sysPageMap (e, v) (sideEnv e child side, v) perm).map fun m =>
        w.goto e m (.fork child v calls)
    -- `duppage` returns, and `fork` does not look at the result
    else if noTable w.pages (sideEnv e child side) v then
      some (w.goto e w.pages (.fork child v []))
    else none
  | [] =>
    if v = stackPage then
      some { w.goto e w.pages .idle with
        status := Function.update w.status child .runnable }
    else some (w.goto e w.pages (.fork child (v + 1) (forkPage w.pages e (v + 1))))

/-- The next step of an environment. Where `ok` is false, a system call fails. -/
def run (w : World) (e : Nat) (ok : Bool) : Option World :=
  match w.tasks e with
  | .idle => none
  | .close fdnum next =>
    if w.fdLookup e fdnum then
      if w.isPipe (ppn (w.pages.maps (e, fdPage fdnum))) then
        some (w.goto e w.pages (.closeFd fdnum next))
      else some (w.goto e w.pages (.closeLast fdnum next))
    else some (w.goto e w.pages next.task)
  | .closeFd fdnum next =>
    some (w.goto e (w.pages.sysPageUnmap (e, fdPage fdnum)) (.closeData fdnum next))
  | .closeData fdnum next =>
    some (w.goto e (w.pages.sysPageUnmap (e, dataPage fdnum)) (.closeLast fdnum next))
  | .closeLast fdnum next =>
    some (w.goto e (w.pages.sysPageUnmap (e, fdPage fdnum)) next.task)
  | .dupData oldfdnum newfdnum =>
    if w.pages.present (e, dataPage oldfdnum) then
      match w.mapOwn e (dataPage oldfdnum) (dataPage newfdnum) ok with
      | some m => some (w.goto e m (.dupFd oldfdnum newfdnum))
      | none => some (w.goto e w.pages (.dupErr newfdnum))
    else some (w.goto e w.pages (.dupFd oldfdnum newfdnum))
  | .dupFd oldfdnum newfdnum =>
    match w.mapOwn e (fdPage oldfdnum) (fdPage newfdnum) ok with
    | some m => some (w.goto e m .idle)
    | none => some (w.goto e w.pages (.dupErr newfdnum))
  | .dupErr newfdnum =>
    some (w.goto e (w.pages.sysPageUnmap (e, fdPage newfdnum)) (.dupErrData newfdnum))
  | .dupErrData newfdnum =>
    some (w.goto e (w.pages.sysPageUnmap (e, dataPage newfdnum)) .idle)
  | .fork child v calls => w.forkStep e child v ok calls
  | .exit i =>
    if i < maxfd then some (w.goto e w.pages (.close (BitVec.ofNat 32 i) (.exit (i + 1))))
    else
      some { w.goto e (w.pages.envFree e (utop / pgSize)) .idle with
        status := Function.update w.status e .free }

/-- `pageref(v)` -/
def pageref (w : World) (x : Nat × Nat) : BitVec 16 :=
  if w.pages.present x then w.pages.ppRef (ppn (w.pages.maps x)) else 0

/-- `pipeisclosed` returns 1, where no other environment runs between the two calls of
    `pageref` in `_pipeisclosed`. -/
def pipeisclosed (w : World) (e : Nat) (fdnum : BitVec 32) : Bool :=
  w.fdLookup e fdnum && w.pageref (e, fdPage fdnum) == w.pageref (e, dataPage fdnum)

end World

/-- A function is called, or the code of an environment goes on. -/
inductive Event
  | close (e : Nat) (fdnum : BitVec 32)
  | dup (e : Nat) (oldfdnum newfdnum : BitVec 32)
  | fork (e child : Nat)
  | exit (e : Nat)
  | run (e : Nat) (ok : Bool)

/-- The environment of an event. -/
def Event.env : Event → Nat
  | .close e _ | .dup e _ _ | .fork e _ | .exit e | .run e _ => e

/-- The task of a call that starts, with the child of `fork` allocated. -/
def World.call (w : World) : Event → Option World
  | .close e fdnum => some (w.goto e w.pages (.close fdnum .ret))
  | .dup e oldfdnum newfdnum =>
    if w.fdLookup e oldfdnum then
      some (w.goto e w.pages (.close newfdnum (.dup oldfdnum newfdnum)))
    else some w
  | .fork e child =>
    if child < nenv ∧ w.status child = .free then
      some { w.goto e w.pages (.fork child firstPage (forkPage w.pages e firstPage)) with
        status := Function.update w.status child .notRunnable }
    else none
  | .exit e => some (w.goto e w.pages (.exit 0))
  | .run _ _ => none

/-- One step of the environments: only those run that are not being made, and a call
    starts when no other is in progress. -/
def step (w : World) (ev : Event) : Option World :=
  if w.status ev.env = .runnable then
    match ev, w.tasks ev.env with
    | .run e ok, _ => w.run e ok
    | ev, .idle => w.call ev
    | _, _ => none
  else none

end Jos.Fd
