import Mathlib.Data.Nat.Cast.Defs
import Mathlib.Data.Nat.Cast.Basic
import Mathlib.Data.BitVec
import Mathlib.Logic.Function.Basic
import Mathlib.Tactic.Ring

/-!
# Numbers in Byte Memory

Little-endian numbers of any number of bytes in a memory that gives every
address a byte. Addresses are anything that can be counted on from: the natural
numbers, where no two offsets meet, or machine words, which wrap around. The
lemmas ask that the bytes of one number lie at different addresses.

## Main definitions

* `load`, `store`, `storeList`: Numbers of `n` bytes.
* `Spread`: The next `n` addresses are different.
* `Apart`: Two ranges of addresses have no address in common.

## Theorems

* `store_apart`: A store changes its range only.
* `store_get`: The bytes in the range.
* `load_store`: What is stored is what is loaded.
* `load_store_apart`: A store leaves the numbers apart from it alone.
* `load_storeList`: The numbers of a list that was stored.
* `spread_word`: Machine words are spread over one round.
* `store_off`, `load_store_off`, `load_store_at`: Natural numbers as addresses.
-/

namespace Lib.Bytes

variable {A : Type} [AddMonoidWithOne A] {n : Nat} {a b : A} {m : A → BitVec 8}

/-- The number in the `n` bytes from `a` on. -/
def load (m : A → BitVec 8) : Nat → A → Nat
  | 0, _ => 0
  | n + 1, a => (m a).toNat + 256 * load m n (a + 1)

/-- Store the low `n` bytes of `w` from `a` on. -/
def store [DecidableEq A] (m : A → BitVec 8) : Nat → A → Nat → A → BitVec 8
  | 0, _, _ => m
  | n + 1, a, w => store (Function.update m a (BitVec.ofNat 8 w)) n (a + 1) (w / 256)

/-- The `n` addresses from `a` on are different. -/
def Spread (n : Nat) (a : A) : Prop := ∀ i j : Nat, i < n → j < n → a + i = a + j → i = j

/-- The `n` addresses from `a` on are none of the `k` from `b` on. -/
def Apart (n : Nat) (a : A) (k : Nat) (b : A) : Prop :=
  ∀ i j : Nat, i < n → j < k → a + i ≠ b + j

theorem Apart.symm {n k : Nat} {a b : A} (h : Apart n a k b) : Apart k b n a :=
  fun i j hi hj he => h j i hj hi he.symm

/-- The address after the first `i + 1`, counted from the second. -/
theorem add_one_add (a : A) (i : Nat) : a + 1 + i = a + (i + 1 : Nat) := by
  rw [add_assoc, Nat.add_comm i 1, Nat.cast_add, Nat.cast_one]

theorem Spread.tail (h : Spread (n + 1) a) : Spread n (a + 1) := by
  intro i j hi hj he
  rw [add_one_add, add_one_add] at he
  have := h (i + 1) (j + 1) (by omega) (by omega) he
  omega

/-- Two ranges inside addresses that are all different. -/
theorem Spread.apart {N : Nat} (h : Spread N a) (n p k q : Nat) (hp : p + n ≤ N) (hq : q + k ≤ N)
    (hpq : p + n ≤ q ∨ q + k ≤ p) : Apart n (a + p) k (a + q) := by
  intro i j hi hj he
  rw [add_assoc, add_assoc, ← Nat.cast_add, ← Nat.cast_add] at he
  have := h (p + i) (q + j) (by omega) (by omega) he
  omega

/-- A part of a range is apart from what the range is apart from. -/
theorem Apart.part {k : Nat} (h : Apart n a k b) {p l : Nat} (hp : p + l ≤ k) :
    Apart n a l (b + p) := by
  intro i j hi hj
  rw [add_assoc, ← Nat.cast_add]
  exact h i (p + j) hi (by omega)

theorem load_congr {m' : A → BitVec 8} :
    ∀ a, (∀ i < n, m (a + (i : Nat)) = m' (a + (i : Nat))) → load m n a = load m' n a := by
  induction n with
  | zero => intro a _; rfl
  | succ n ih =>
    intro a h
    have h0 := h 0 (by omega)
    rw [Nat.cast_zero, add_zero] at h0
    rw [load, load, h0, ih (a + 1)]
    intro i hi
    rw [add_one_add]
    exact h (i + 1) (by omega)

/-- A number is read off the bytes that spell it. -/
theorem load_eq :
    ∀ a w, (∀ i < n, m (a + (i : Nat)) = BitVec.ofNat 8 (w / 256 ^ i)) →
      load m n a = w % 256 ^ n := by
  induction n with
  | zero =>
    intro a w _
    rw [load, pow_zero, Nat.mod_one]
  | succ n ih =>
    intro a w h
    have h0 := h 0 (by omega)
    rw [Nat.cast_zero, add_zero, pow_zero, Nat.div_one] at h0
    have hrest : load m n (a + 1) = w / 256 % 256 ^ n := by
      refine ih (a + 1) (w / 256) fun i hi => ?_
      rw [add_one_add, h (i + 1) (by omega), pow_succ, Nat.mul_comm, Nat.div_div_eq_div_mul]
    rw [load, h0, hrest, pow_succ, Nat.mul_comm (256 ^ n) 256, Nat.mod_mul, BitVec.toNat_ofNat]

section

variable [DecidableEq A]

theorem store_apart : ∀ (m : A → BitVec 8) (a : A) (w : Nat) (x : A),
    (∀ i < n, x ≠ a + (i : Nat)) → store m n a w x = m x := by
  induction n with
  | zero => intro m a w x _; rfl
  | succ n ih =>
    intro m a w x h
    have h0 := h 0 (by omega)
    rw [Nat.cast_zero, add_zero] at h0
    rw [store, ih _ (a + 1) (w / 256) x, Function.update_of_ne h0]
    intro i hi
    rw [add_one_add]
    exact h (i + 1) (by omega)

/-- What a byte is after a store depends on that byte only. -/
theorem store_congr (n : Nat) : ∀ (m m' : A → BitVec 8) (a : A) (w : Nat) (x : A), m x = m' x →
    store m n a w x = store m' n a w x := by
  induction n with
  | zero => intro m m' a w x h; exact h
  | succ n ih =>
    intro m m' a w x h
    rw [store, store]
    refine ih _ _ (a + 1) (w / 256) x ?_
    by_cases hx : x = a
    · rw [hx, Function.update_self, Function.update_self]
    · rw [Function.update_of_ne hx, Function.update_of_ne hx, h]

theorem store_get : ∀ (m : A → BitVec 8) (a : A) (w i : Nat), Spread n a → i < n →
    store m n a w (a + (i : Nat)) = BitVec.ofNat 8 (w / 256 ^ i) := by
  induction n with
  | zero => intro m a w i _ hi; exact absurd hi (by omega)
  | succ n ih =>
    intro m a w i hs hi
    rw [store]
    cases i with
    | zero =>
      -- the rest of the store is elsewhere
      rw [Nat.cast_zero, add_zero, store_apart, Function.update_self, pow_zero, Nat.div_one]
      intro j hj he
      have hne := hs 0 (j + 1) (by omega) (by omega)
      rw [Nat.cast_zero, add_zero] at hne
      rw [add_one_add] at he
      exact absurd (hne he) (by omega)
    | succ i =>
      rw [← add_one_add, ih _ (a + 1) (w / 256) i hs.tail (by omega), pow_succ,
        Nat.mul_comm, Nat.div_div_eq_div_mul]

theorem load_store (m : A → BitVec 8) {n : Nat} (w : Nat) (hs : Spread n a) :
    load (store m n a w) n a = w % 256 ^ n :=
  load_eq a w fun i hi => store_get m a w i hs hi

theorem load_store_apart (m : A → BitVec 8) {n k : Nat} (w : Nat) (h : Apart k b n a) :
    load (store m n a w) k b = load m k b :=
  load_congr b fun i hi => store_apart m a w _ fun j hj => h i j hi hj

/-- Store numbers of `n` bytes one after the other. -/
def storeList (m : A → BitVec 8) (n : Nat) : A → List Nat → A → BitVec 8
  | _, [] => m
  | a, w :: ws => storeList (store m n a w) n (a + n) ws

theorem storeList_apart {ws : List Nat} : ∀ (m : A → BitVec 8) (a x : A),
    (∀ i < n * ws.length, x ≠ a + (i : Nat)) → storeList m n a ws x = m x := by
  induction ws with
  | nil => intro m a x _; rfl
  | cons w ws ih =>
    intro m a x h
    rw [List.length_cons, Nat.mul_succ] at h
    rw [storeList, ih, store_apart]
    · exact fun i hi => h i (by omega)
    · intro i hi
      rw [add_assoc, ← Nat.cast_add]
      exact h (n + i) (by omega)

theorem storeList_congr (n : Nat) (ws : List Nat) : ∀ (m m' : A → BitVec 8) (a x : A),
    m x = m' x → storeList m n a ws x = storeList m' n a ws x := by
  induction ws with
  | nil => intro m m' a x h; exact h
  | cons w ws ih =>
    intro m m' a x h
    exact ih _ _ _ x (store_congr n m m' a w x h)

/-- The number at each place of a list that was stored. -/
theorem load_storeList (n : Nat) (ws : List Nat) : ∀ (m : A → BitVec 8) (a : A) (i w : Nat),
    Spread (n * ws.length) a → ws[i]? = some w →
      load (storeList m n a ws) n (a + (n * i : Nat)) = w % 256 ^ n := by
  induction ws with
  | nil => intro m a i w _ h; cases h
  | cons w ws ih =>
    intro m a i v hs h
    rw [List.length_cons, Nat.mul_succ] at hs
    rw [storeList]
    cases i with
    | zero =>
      -- the rest of the list goes behind the first number
      simp only [List.getElem?_cons_zero, Option.some.injEq] at h
      rw [Nat.mul_zero, Nat.cast_zero, add_zero, ← h, ← load_store m w]
      · refine load_congr a fun j hj => storeList_apart _ _ _ fun k hk he => ?_
        rw [add_assoc, ← Nat.cast_add] at he
        have := hs j (n + k) (by omega) (by omega) he
        omega
      · exact fun j k hj hk he => hs j k (by omega) (by omega) he
    | succ i =>
      rw [List.getElem?_cons_succ] at h
      rw [Nat.mul_succ, Nat.add_comm, Nat.cast_add, ← add_assoc]
      refine ih _ (a + n) i v ?_ h
      intro j k hj hk he
      rw [add_assoc, add_assoc, ← Nat.cast_add, ← Nat.cast_add] at he
      have := hs (n + j) (n + k) (by omega) (by omega) he
      omega

end

/-- Machine words of `w` bits are spread over one round. -/
theorem spread_word {w : Nat} (n : Nat) (a : BitVec w) (hn : n ≤ 2 ^ w) : Spread n a := by
  intro i j hi hj he
  have hcast : (i : BitVec w) = (j : BitVec w) := by simpa using he
  have hnat := congrArg BitVec.toNat hcast
  simp only [BitVec.natCast_eq_ofNat, BitVec.toNat_ofNat] at hnat
  rwa [Nat.mod_eq_of_lt (by omega), Nat.mod_eq_of_lt (by omega)] at hnat

/-! ## Natural numbers as addresses -/

theorem load_lt (m : A → BitVec 8) (n : Nat) : ∀ a, load m n a < 256 ^ n := by
  induction n with
  | zero => intro a; exact Nat.one_pos
  | succ n ih =>
    intro a
    have hrest := ih (a + 1)
    have hbyte := (m a).isLt
    rw [load, pow_succ]
    omega

theorem store_off (m : Nat → BitVec 8) {n a x : Nat} (w : Nat) (h : x < a ∨ a + n ≤ x) :
    store m n a w x = m x := by
  refine store_apart m a w x fun i hi => ?_
  rw [Nat.cast_id]
  omega

theorem load_store_off (m : Nat → BitVec 8) {n k a b : Nat} (w : Nat) (h : b + k ≤ a ∨ a + n ≤ b) :
    load (store m n a w) k b = load m k b := by
  refine load_store_apart m w fun i j hi hj => ?_
  rw [Nat.cast_id, Nat.cast_id]
  omega

theorem load_store_at (m : Nat → BitVec 8) (n a w : Nat) :
    load (store m n a w) n a = w % 256 ^ n := by
  refine load_store m w fun i j _ _ h => ?_
  rw [Nat.cast_id, Nat.cast_id] at h
  omega

theorem load_same {m' : Nat → BitVec 8} (m : Nat → BitVec 8) {a : Nat}
    (h : ∀ x, a ≤ x → x < a + n → m' x = m x) : load m' n a = load m n a := by
  refine load_congr a fun i hi => ?_
  rw [Nat.cast_id]
  exact h (a + i) (by omega) (by omega)

/-- The same bytes at another place. -/
theorem load_moved (m m' : Nat → BitVec 8) (n : Nat) :
    ∀ a b, (∀ i < n, m' (b + i) = m (a + i)) → load m' n b = load m n a := by
  induction n with
  | zero => intro a b _; rfl
  | succ n ih =>
    intro a b h
    have hrest : load m' n (b + 1) = load m n (a + 1) := by
      refine ih _ _ fun i hi => ?_
      have := h (i + 1) (by omega)
      rwa [Nat.add_comm i 1, ← Nat.add_assoc, ← Nat.add_assoc] at this
    have hfirst : m' b = m a := h 0 (Nat.succ_pos n)
    rw [load, load, hrest, hfirst]

theorem storeList_off (m : Nat → BitVec 8) (n a x : Nat) (ws : List Nat)
    (h : x < a ∨ a + n * ws.length ≤ x) : storeList m n a ws x = m x := by
  refine storeList_apart m a x fun i hi => ?_
  rw [Nat.cast_id]
  omega

theorem load_storeList_at (m : Nat → BitVec 8) (n a i w : Nat) (ws : List Nat)
    (h : ws[i]? = some w) : load (storeList m n a ws) n (a + n * i) = w % 256 ^ n := by
  have hload := load_storeList n ws m a i w (fun j k _ _ he => by
    rw [Nat.cast_id, Nat.cast_id] at he
    omega) h
  rwa [Nat.cast_id] at hload

theorem load_zero {m : Nat → BitVec 8} :
    ∀ a, (∀ x, a ≤ x → x < a + n → m x = 0) → load m n a = 0 := by
  induction n with
  | zero => intro a _; rfl
  | succ n ih =>
    intro a h
    rw [load, h a (by omega) (by omega), ih (a + 1) fun x hx hx' => h x (by omega) (by omega)]
    rfl

end Lib.Bytes
