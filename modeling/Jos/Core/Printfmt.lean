import Mathlib.Algebra.Ring.Nat
import Mathlib.Data.BitVec

/-!
# Formatted Output

`vprintfmt` of `lib/printfmt.c`, which the kernel and user programs share. It is
one loop over the format string with jumps in it, so it is modelled as a machine
whose mode says which of the loops of the source it is in; a step is one round
of that loop. A step also says which characters are put out and which bytes are
read, of the format and of strings that arguments point to.

The format is addressed by the distance from its first byte, which can become
negative: the loop for unknown conversions goes backwards. The `int` variables
`width` and `precision` are 32-bit words.

## Main definitions

* `Event`: Characters and reads.
* `Spec`: The flags, width and precision of a conversion.
* `printnum`, `signed`: Numbers.
* `Mode`, `Config`, `escape`, `step`: The machine.
* `vprintfmt`: The whole call.
-/

namespace Jos
namespace Printfmt

/-- A character constant. -/
def chr (c : Char) : BitVec 8 := BitVec.ofNat 8 c.toNat

/-- The bytes of a string constant, without the NUL at its end. -/
def text (s : String) : List (BitVec 8) := s.toList.map chr

/-- What a call does that can be observed: `putch`, a read of the format, and a
    read of a string that an argument points to. -/
inductive Event
  | put (ch : BitVec 32)
  | format (i : Int)
  | read (a : BitVec 64)
  deriving DecidableEq

/-- `putch` of a `char`, which is signed. -/
def putChar (c : BitVec 8) : Event := .put (c.signExtend 32)

/-- A loop that puts out a character for each of the numbers from `width` down
    to 1. -/
def pad (c : BitVec 8) (width : Int) : List Event := List.replicate width.toNat (putChar c)

/-! ## Errors -/

def maxError : Int := 19

/-- `error_string`: the entries that the table does not initialise are null. -/
def errorString : Nat → Option String
  | 1 => some "unspecified error"
  | 2 => some "bad environment"
  | 3 => some "invalid parameter"
  | 4 => some "out of memory"
  | 5 => some "out of environments"
  | 6 => some "segmentation fault"
  | 7 => some "env is not recving"
  | 8 => some "unexpected end of file"
  | 9 => some "no free space on disk"
  | 10 => some "too many files are open"
  | 11 => some "file or block not found"
  | 12 => some "invalid path"
  | 13 => some "file already exists"
  | 14 => some "file is not a valid executable"
  | 15 => some "operation not supported"
  | _ => none

/-! ## Numbers -/

/-- `printnum`, at most `fuel` digits of it. -/
def printnumFrom (base : Nat) (padc : BitVec 8) : Nat → Nat → BitVec 32 → List Event
  | 0, _, _ => []
  | fuel + 1, num, width =>
    (if base ≤ num then printnumFrom base padc fuel (num / base) (width - 1)
      else pad padc (width.toInt - 1)) ++
    [putChar ((text "0123456789abcdef").getD (num % base) 0)]

/-- `printnum`: a 64-bit number has at most 64 digits. -/
def printnum (num : BitVec 64) (base : Nat) (width : BitVec 32) (padc : BitVec 8) : List Event :=
  printnumFrom base padc 64 num.toNat width

/-- `getuint`: the argument is an `unsigned int` unless there was an `l`. -/
def getuint (arg : BitVec 64) (lflag : Nat) : BitVec 64 :=
  if lflag = 0 then (arg.setWidth 32).setWidth 64 else arg

/-- `getint` -/
def getint (arg : BitVec 64) (lflag : Nat) : BitVec 64 :=
  if lflag = 0 then (arg.setWidth 32).signExtend 64 else arg

/-- The conversion `d` of a number: the sign comes before the padding. -/
def signed (num : BitVec 64) (width : BitVec 32) (padc : BitVec 8) : List Event :=
  if num.toInt < 0 then putChar (chr '-') :: printnum (-num) 10 width padc
  else printnum num 10 width padc

/-! ## The machine -/

/-- A pointer to a string: an argument, or a string constant of the code. -/
inductive Ptr
  | arg (a : BitVec 64)
  | const (s : List (BitVec 8))
  deriving DecidableEq

namespace Ptr

def load (mem : BitVec 64 → BitVec 8) : Ptr → BitVec 8
  | arg a => mem a
  | const s => s.headD 0

def next : Ptr → Ptr
  | arg a => arg (a + 1)
  | const s => const s.tail

/-- The read that goes with a load. -/
def reads : Ptr → List Event
  | arg a => [.read a]
  | const _ => []

end Ptr

/-- The variables of a conversion, with their values after a `%`. -/
structure Spec where
  padc : BitVec 8 := chr ' '
  width : BitVec 32 := -1
  precision : BitVec 32 := -1
  lflag : Nat := 0
  altflag : Bool := false
  deriving DecidableEq

/-- The label `process_precision`: the first number is the width. -/
def Spec.processPrecision (s : Spec) : Spec :=
  if s.width.toInt < 0 then { s with width := s.precision, precision := -1 } else s

/-- Where a call is: in the text between conversions, at the label `reswitch`, in
    the loop over the digits of a number, in the loop that goes back to the `%`,
    in `strnlen` of `p` with `n` characters counted and at most `size` to go, in
    the loop that prints a string, or at the end. -/
inductive Mode
  | text
  | reswitch (s : Spec)
  | digits (s : Spec)
  | back
  | strnlen (p q : Ptr) (size : BitVec 64) (n : BitVec 32) (s : Spec)
  | string (p : Ptr) (s : Spec)
  | done
  deriving DecidableEq

/-- A mode, the position in the format and the number of arguments taken. -/
structure Config where
  mode : Mode
  pos : Int
  arg : Nat
  deriving DecidableEq

/-- The conversion `e`. The negation of `INT_MIN` is `INT_MIN` again, which is an
    index outside of the table. -/
def errorConversion (arg : BitVec 32) : Option (List Event) :=
  let err := if arg.toInt < 0 then -arg else arg
  let unknown := (text "error ").map putChar ++ signed (err.signExtend 64) (-1) (chr ' ')
  if maxError ≤ err.toInt then some unknown
  else if err.toInt < 0 then none
  else
    match errorString err.toNat with
    | none => some unknown
    | some p => some ((text p).map putChar)

/-- The `switch` at `reswitch` with the character `ch`, which `c.pos` is behind
    already. -/
def escape (args : Nat → BitVec 64) (c : Config) (s : Spec) (ch : BitVec 8) :
    Option (Config × List Event) :=
  let again := fun s : Spec => some ({ c with mode := .reswitch s }, [])
  let finish := fun out : List Event => some ({ c with mode := .text, arg := c.arg + 1 }, out)
  let arg := args c.arg
  if ch = chr '-' then again { s with padc := chr '-' }
  else if ch = chr '0' then again { s with padc := chr '0' }
  else if chr '1' ≤ ch ∧ ch ≤ chr '9' then
    some ({ c with mode := .digits { s with precision := (ch - chr '0').setWidth 32 } }, [])
  else if ch = chr '*' then
    some ({ c with
      mode := .reswitch (Spec.processPrecision { s with precision := arg.setWidth 32 }),
      arg := c.arg + 1 }, [])
  else if ch = chr '.' then again (if s.width.toInt < 0 then { s with width := 0 } else s)
  else if ch = chr '#' then again { s with altflag := true }
  else if ch = chr 'l' then again { s with lflag := s.lflag + 1 }
  else if ch = chr 'c' then finish [.put (arg.setWidth 32)]
  else if ch = chr 'e' then (errorConversion (arg.setWidth 32)).bind finish
  else if ch = chr 's' then
    let p : Ptr := if arg = 0 then .const (text "(null)") else .arg arg
    let mode : Mode :=
      if 0 < s.width.toInt ∧ s.padc ≠ chr '-' then
        .strnlen p p (s.precision.signExtend 64) 0 s
      else .string p s
    some ({ c with mode := mode, arg := c.arg + 1 }, [])
  else if ch = chr 'd' then finish (signed (getint arg s.lflag) s.width s.padc)
  else if ch = chr 'u' then finish (printnum (getuint arg s.lflag) 10 s.width s.padc)
  else if ch = chr 'o' then finish (printnum (getuint arg s.lflag) 8 s.width s.padc)
  else if ch = chr 'p' then
    finish ((text "0x").map putChar ++ printnum arg 16 s.width s.padc)
  else if ch = chr 'x' then finish (printnum (getuint arg s.lflag) 16 s.width s.padc)
  else if ch = chr '%' then some ({ c with mode := .text }, [putChar ch])
  else some ({ c with mode := .back, pos := c.pos - 1 }, [putChar (chr '%')])

/-- The end of `strnlen` with the result `n`, and the padding in front of the
    string. -/
def padString (c : Config) (p : Ptr) (n : BitVec 32) (s : Spec) : Config × List Event :=
  let width := s.width - n
  ({ c with mode := .string p { s with width := if 0 < width.toInt then 0 else width } },
    pad s.padc width.toInt)

/-- One round of the loop that prints a string. The character is loaded before
    the precision is looked at. -/
def stringRound (mem : BitVec 64 → BitVec 8) (c : Config) (p : Ptr) (s : Spec) :
    Config × List Event :=
  let ch := p.load mem
  if ch ≠ 0 ∧ (s.precision.toInt < 0 ∨ 0 ≤ (s.precision - 1).toInt) then
    let precision := if s.precision.toInt < 0 then s.precision else s.precision - 1
    let out := if s.altflag ∧ (ch.toInt < 32 ∨ 126 < ch.toInt) then chr '?' else ch
    ({ c with mode := .string p.next { s with width := s.width - 1, precision := precision } },
      p.reads ++ [putChar out])
  else ({ c with mode := .text }, p.reads ++ pad (chr ' ') s.width.toInt)

/-- One round of the loop that the call is in; `none` at the end, and where the
    source reads outside of a table. -/
def step (mem : BitVec 64 → BitVec 8) (fmt : Int → BitVec 8) (args : Nat → BitVec 64)
    (c : Config) : Option (Config × List Event) :=
  match c.mode with
  | .text =>
    let ch := fmt c.pos
    let c := { c with pos := c.pos + 1 }
    if ch = chr '%' then some ({ c with mode := .reswitch {} }, [.format (c.pos - 1)])
    else if ch = 0 then some ({ c with mode := .done }, [.format (c.pos - 1)])
    else some (c, [.format (c.pos - 1), .put (ch.setWidth 32)])
  | .reswitch s =>
    (escape args { c with pos := c.pos + 1 } s (fmt c.pos)).map fun r =>
      (r.1, .format c.pos :: r.2)
  | .digits s =>
    let ch := fmt c.pos
    if chr '0' ≤ ch ∧ ch ≤ chr '9' then
      some ({ c with
        mode := .digits { s with
          precision := s.precision * 10 + (ch - chr '0').setWidth 32 },
        pos := c.pos + 1 }, [.format c.pos])
    else some ({ c with mode := .reswitch s.processPrecision }, [.format c.pos])
  | .back =>
    if fmt (c.pos - 1) = chr '%' then some ({ c with mode := .text }, [.format (c.pos - 1)])
    else some ({ c with pos := c.pos - 1 }, [.format (c.pos - 1)])
  | .strnlen p q size n s =>
    if size = 0 then some (padString c p n s)
    else if q.load mem = 0 then
      some ((padString c p n s).1, q.reads ++ (padString c p n s).2)
    else some ({ c with mode := .strnlen p q.next (size - 1) (n + 1) s }, q.reads)
  | .string p s => some (stringRound mem c p s)
  | .done => none

/-- What a call does from a configuration on, if it returns within `fuel`
    steps. -/
def run (mem : BitVec 64 → BitVec 8) (fmt : Int → BitVec 8) (args : Nat → BitVec 64) :
    Nat → Config → Option (List Event)
  | 0, c => if c.mode = .done then some [] else none
  | fuel + 1, c =>
    if c.mode = .done then some []
    else
      (step mem fmt args c).bind fun r =>
        (run mem fmt args fuel r.1).map fun events => r.2 ++ events

/-- `vprintfmt` -/
def vprintfmt (mem : BitVec 64 → BitVec 8) (fmt : Int → BitVec 8) (args : Nat → BitVec 64)
    (fuel : Nat) : Option (List Event) :=
  run mem fmt args fuel ⟨.text, 0, 0⟩

/-- A string constant as a format. -/
def formatOf (s : String) (i : Int) : BitVec 8 := if i < 0 then 0 else (text s).getD i.toNat 0

/-- `cprintf("%.*s", len, s)`, as in `sys_cputs`. -/
def printBounded (mem : BitVec 64 → BitVec 8) (s len : BitVec 64) (fuel : Nat) :
    Option (List Event) :=
  vprintfmt mem (formatOf "%.*s") (fun i => if i = 0 then len else s) fuel

end Printfmt
end Jos
