import Mathlib.Data.BitVec

/-!
# Memory

`memset` and `memmove` of `lib/string.c`, which are string instructions of the processor. An
address is a natural number below `2 ^ 64`.

## Main definitions

* `repStos`, `repMovs`: The instructions with their `rep` prefix.
* `memset`, `memmove`: The functions around them.
-/

namespace Jos.String

/-- `rep stosl` for the width 4 and `rep stosb` for the width 1, with the direction flag
    clear. -/
def repStos (width : Nat) (eax : BitVec 32) : Nat → Nat → (Nat → BitVec 8) → Nat → BitVec 8
  | 0, _, m => m
  | rcx + 1, rdi, m => repStos width eax rcx (rdi + width) fun a =>
      if rdi ≤ a ∧ a < rdi + width then (eax >>> (8 * (a - rdi))).setWidth 8 else m a

/-- `rep movsl` and `rep movsb`, with the direction flag as given. The whole element is loaded
    before it is stored. -/
def repMovs (width : Nat) (down : Bool) :
    Nat → Nat → Nat → (Nat → BitVec 8) → Nat → BitVec 8
  | 0, _, _, m => m
  | rcx + 1, rdi, rsi, m =>
    let m := fun a => if rdi ≤ a ∧ a < rdi + width then m (rsi + (a - rdi)) else m a
    if down then repMovs width down rcx (rdi - width) (rsi - width) m
    else repMovs width down rcx (rdi + width) (rsi + width) m

def memset (m : Nat → BitVec 8) (v : Nat) (c : BitVec 32) (n : Nat) : Nat → BitVec 8 :=
  if n = 0 then m
  else if v % 4 = 0 ∧ n % 4 = 0 then
    let c := c &&& 0xFF
    let c := c <<< 24 ||| c <<< 16 ||| c <<< 8 ||| c
    repStos 4 c (n / 4) v m
  else repStos 1 c n v m

/-- The pointer `s + n` is compared after it has wrapped. -/
def memmove (m : Nat → BitVec 8) (dst src n : Nat) : Nat → BitVec 8 :=
  if src < dst ∧ dst < (src + n) % 2 ^ 64 then
    let s := src + n
    let d := dst + n
    if s % 4 = 0 ∧ d % 4 = 0 ∧ n % 4 = 0 then repMovs 4 true (n / 4) (d - 4) (s - 4) m
    else repMovs 1 true n (d - 1) (s - 1) m
  else if src % 4 = 0 ∧ dst % 4 = 0 ∧ n % 4 = 0 then repMovs 4 false (n / 4) dst src m
  else repMovs 1 false n dst src m

end Jos.String
