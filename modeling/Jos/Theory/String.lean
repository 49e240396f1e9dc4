import Jos.Core.String
import Mathlib.Tactic.Common

/-!
# Copies and Fills

The assembly versions of `memmove` and `memset` do what a loop over bytes would do. An element
is loaded before it is stored, so a loop of any width may go up if the source is not below
the destination, and down if it is not above it.

## Main definitions

* `copy`, `fill`: What the functions are for.

## Theorems

* `repMovs_up`, `repMovs_down`: The copy loops.
* `memmove_memset`: Both functions.
-/

namespace Jos.String

variable {m : Nat → BitVec 8} {d s w n : Nat}

/-- The `n` bytes at `s` are written to `d`. -/
def copy (m : Nat → BitVec 8) (d s n : Nat) (a : Nat) : BitVec 8 :=
  if d ≤ a ∧ a < d + n then m (s + (a - d)) else m a

/-- The `n` bytes at `v` become `c`. -/
def fill (m : Nat → BitVec 8) (v : Nat) (c : BitVec 8) (n : Nat) (a : Nat) : BitVec 8 :=
  if v ≤ a ∧ a < v + n then c else m a

theorem copy_up (h : d ≤ s ∨ s + (w + n) ≤ d) :
    copy (copy m d s w) (d + w) (s + w) n = copy m d s (w + n) := by
  funext a
  unfold copy
  by_cases hlow : d ≤ a ∧ a < d + w
  · rw [if_neg (by omega), if_pos hlow, if_pos (by omega)]
  · by_cases hin : d + w ≤ a ∧ a < d + w + n
    · rw [if_pos hin, if_neg (by omega), if_pos (by omega), show s + w + (a - (d + w)) =
        s + (a - d) by omega]
    · rw [if_neg hin, if_neg hlow, if_neg (by omega)]

theorem copy_down (h : s ≤ d) : copy (copy m (d + n) (s + n) w) d s n = copy m d s (n + w) := by
  funext a
  unfold copy
  by_cases hlow : d ≤ a ∧ a < d + n
  · rw [if_pos hlow, if_neg (by omega), if_pos (by omega)]
  · by_cases hin : d + n ≤ a ∧ a < d + n + w
    · rw [if_neg hlow, if_pos hin, if_pos (by omega), show s + n + (a - (d + n)) =
        s + (a - d) by omega]
    · rw [if_neg hlow, if_neg hin, if_neg (by omega)]

theorem repMovs_up (w k : Nat) : ∀ (d s : Nat) (m : Nat → BitVec 8),
    d ≤ s ∨ s + w * k ≤ d → repMovs w false k d s m = copy m d s (w * k) := by
  induction k with
  | zero =>
    intro d s m _
    funext a
    rw [repMovs, copy, if_neg (by omega)]
  | succ k ih =>
    intro d s m h
    rw [Nat.mul_succ, Nat.add_comm (w * k)] at h ⊢
    rw [← copy_up h]
    exact ih _ _ _ (by omega)

theorem repMovs_down (w k : Nat) : ∀ m : Nat → BitVec 8, s ≤ d →
    repMovs w true k (d + w * k - w) (s + w * k - w) m = copy m d s (w * k) := by
  induction k with
  | zero =>
    intro m _
    funext a
    rw [repMovs, copy, if_neg (by omega)]
  | succ k ih =>
    intro m h
    rw [Nat.mul_succ, ← copy_down h, ← ih _ h, ← Nat.add_assoc, ← Nat.add_assoc,
      Nat.add_sub_cancel, Nat.add_sub_cancel]
    rfl

theorem repStos_eq {eax : BitVec 32} {c : BitVec 8}
    (hc : ∀ i < w, (eax >>> (8 * i)).setWidth 8 = c) (k : Nat) :
    ∀ (v : Nat) (m : Nat → BitVec 8), repStos w eax k v m = fill m v c (w * k) := by
  induction k with
  | zero =>
    intro v m
    funext a
    rw [repStos, fill, if_neg (by omega)]
  | succ k ih =>
    intro v m
    rw [repStos, ih, Nat.mul_succ]
    funext a
    unfold fill
    dsimp only
    by_cases hlow : v ≤ a ∧ a < v + w
    · rw [if_neg (by omega), if_pos hlow, if_pos (by omega), hc _ (by omega)]
    · by_cases hin : v + w ≤ a ∧ a < v + w + w * k
      · rw [if_pos hin, if_pos (by omega)]
      · rw [if_neg hin, if_neg hlow, if_neg (by omega)]

/-- The byte in all four places. -/
theorem spread_byte (c : BitVec 32) : ∀ i < 4,
    ((((c &&& 0xFF) <<< 24 ||| (c &&& 0xFF) <<< 16 ||| (c &&& 0xFF) <<< 8 ||| (c &&& 0xFF)) >>>
      (8 * i)).setWidth 8 : BitVec 8) = c.setWidth 8 := by
  have hbyte : c &&& 0xFF = (c.setWidth 8).setWidth 32 := by
    apply BitVec.eq_of_toNat_eq
    rw [BitVec.toNat_and, BitVec.toNat_setWidth, BitVec.toNat_setWidth]
    have hmod := Nat.and_two_pow_sub_one_eq_mod c.toNat 8
    exact hmod.trans (Nat.mod_eq_of_lt (by omega)).symm
  rw [hbyte]
  generalize c.setWidth 8 = b
  revert b
  decide +kernel

/-- Whatever the ranges and their alignment are, `memmove` writes the old bytes of the source to
    the destination, and `memset` the low byte of its argument. -/
theorem memmove_memset (m : Nat → BitVec 8) :
    (∀ dst src n, dst + n ≤ 2 ^ 64 → src + n ≤ 2 ^ 64 →
      memmove m dst src n = copy m dst src n) ∧
    ∀ v c n, v + n ≤ 2 ^ 64 → memset m v c n = fill m v (c.setWidth 8) n := by
  constructor
  · intro dst src n hdst hsrc
    unfold memmove
    have hone : 1 * n = n := Nat.one_mul n
    by_cases hdown : src < dst ∧ dst < (src + n) % 2 ^ 64
    · rw [if_pos hdown]
      dsimp only
      by_cases hwide : (src + n) % 4 = 0 ∧ (dst + n) % 4 = 0 ∧ n % 4 = 0
      · have hn : 4 * (n / 4) = n := by omega
        have hloop := repMovs_down 4 (n / 4) m hdown.1.le
        rw [hn] at hloop
        rw [if_pos hwide, hloop]
      · have hloop := repMovs_down 1 n m hdown.1.le
        rw [hone] at hloop
        rw [if_neg hwide, hloop]
    · have hup : dst ≤ src ∨ src + n ≤ dst := by omega
      rw [if_neg hdown]
      by_cases hwide : src % 4 = 0 ∧ dst % 4 = 0 ∧ n % 4 = 0
      · have hn : 4 * (n / 4) = n := by omega
        rw [if_pos hwide, repMovs_up 4 _ _ _ _ (by rwa [hn]), hn]
      · rw [if_neg hwide, repMovs_up 1 _ _ _ _ (by rwa [hone]), hone]
  · intro v c n _
    unfold memset
    by_cases hz : n = 0
    · funext a
      rw [if_pos hz, fill, if_neg (by omega)]
    · rw [if_neg hz]
      by_cases hwide : v % 4 = 0 ∧ n % 4 = 0
      · rw [if_pos hwide, repStos_eq (spread_byte c), show 4 * (n / 4) = n by omega]
      · rw [if_neg hwide, repStos_eq (c := c.setWidth 8) (fun i hi => ?_), Nat.one_mul]
        rw [show i = 0 by omega]
        rfl

/-- Six bytes move up by two, and two words are filled. -/
theorem memmove_memset_overlapping :
    memmove (BitVec.ofNat 8) 1002 1000 6 = copy (BitVec.ofNat 8) 1002 1000 6 ∧
      memset (BitVec.ofNat 8) 1000 0x141 8 = fill (BitVec.ofNat 8) 1000 0x41 8 :=
  ⟨(memmove_memset _).1 1002 1000 6 (by decide) (by decide),
    (memmove_memset _).2 1000 0x141 8 (by decide)⟩

end Jos.String
