import Jos.Core.Upcall
import Jos.Theory.Frame

/-!
# User Memory as Plain Memory

Stores through a page table behave like stores to plain memory as long as the
addresses in question are mapped writable, no two of their pages are the same
physical page, and none of these is a page table on the way to another.

## Main definitions

* `Vm.path`: The tables on the way to an address.
* `Vm.Plain`: Addresses that behave like plain memory.

## Theorems

* `byte_insert`: One byte of a word is exchanged.
* `Plain.storeByte`, `Plain.storeBytes`, `Plain.storeWords`: Stores act on the
  memory that is seen, and keep it plain.
-/

namespace Jos

open Lib Lib.Radix

theorem getLsbD_ff (n : Nat) : (0xFF : BitVec 64).getLsbD n = decide (n < 8) := by
  by_cases hn : n < 64
  · have hsmall : ∀ n < 64, (0xFF : BitVec 64).getLsbD n = decide (n < 8) := by decide
    exact hsmall n hn
  · rw [BitVec.getLsbD_of_ge _ _ (by omega), decide_eq_false (by omega)]

/-- The bytes of a word of which one is exchanged. -/
theorem byte_insert (w : BitVec 64) (b : BitVec 8) {i j : Nat} (hi : i < 8) (hj : j < 8) :
    ((w &&& ~~~((0xFF : BitVec 64) <<< (8 * i)) ||| b.setWidth 64 <<< (8 * i)) >>>
      (8 * j)).setWidth 8 = if j = i then b else (w >>> (8 * j)).setWidth 8 := by
  ext k hk
  have h64 : 8 * j + k < 64 := by omega
  simp only [BitVec.getElem_setWidth, BitVec.getLsbD_ushiftRight, BitVec.getLsbD_or,
    BitVec.getLsbD_and, BitVec.getLsbD_not, BitVec.getLsbD_shiftLeft, BitVec.getLsbD_setWidth,
    getLsbD_ff]
  by_cases hij : j = i
  · have hback : 8 * i + k - 8 * i = k := by omega
    subst hij
    simp [h64, hback, hk, show k < 64 by omega]
  · rw [if_neg hij]
    simp only [BitVec.getElem_setWidth, BitVec.getLsbD_ushiftRight]
    rcases Nat.lt_or_gt_of_ne hij with hlt | hgt
    · have hbelow : 8 * j + k < 8 * i := by omega
      simp [h64, hbelow]
    · have habove : 8 ≤ 8 * j + k - 8 * i := by omega
      simp [h64, Nat.not_lt.2 habove, BitVec.getLsbD_of_ge b _ habove]

namespace Vm

/-- The tables on the way to `va`. -/
def path (m : Vm) (root va : Nat) : List Nat :=
  let t1 := ppn (m.mem root (pml4 va))
  let t2 := ppn (m.mem t1 (pdpe va))
  [root, t1, t2, ppn (m.mem t2 (pdx va))]

/-- The addresses of `A` are mapped writable to data pages, and different pages
    of addresses are different physical pages. -/
structure Plain (m : Vm) (root : Nat) (A : Nat → Prop) : Prop where
  writable : ∀ a, A a → ∃ e u, m.translate root a = some (e, true, u)
  single : ∀ a b e e' w w' u u', A a → A b → m.translate root a = some (e, w, u) →
    m.translate root b = some (e', w', u') → ppn e = ppn e' → a / pgSize = b / pgSize
  data : ∀ a b e w u, A a → A b → m.translate root a = some (e, w, u) → ppn e ∉ m.path root b

/-- A page that is no table on the way may change. -/
theorem path_setEntry (m : Vm) {root va q : Nat} (i : Nat) (v : Pte) (hq : q ∉ m.path root va) :
    (m.setEntry q i v).path root va = m.path root va ∧
    (m.setEntry q i v).translate root va = m.translate root va := by
  simp only [path, List.mem_cons, List.not_mem_nil, or_false, not_or] at hq
  rcases hq with ⟨h1, h2, h3, h4⟩
  have hkeep : ∀ t k, q ≠ t → (m.setEntry q i v).mem t k = m.mem t k := by
    intro t k hne
    rw [setEntry_mem]
    exact setSlot_of_ne m.mem v (.inl hne.symm)
  refine ⟨?_, translate_congr m _ ?_ ?_ ?_ ?_⟩
  · simp only [path, hkeep _ _ h1, hkeep _ _ h2, hkeep _ _ h3]
  · exact hkeep _ _ h1
  · rintro _ rfl _
    exact hkeep _ _ h2
  · rintro _ _ rfl _ rfl _
    exact hkeep _ _ h3
  · rintro _ _ _ rfl _ rfl _ rfl _
    exact hkeep _ _ h4

namespace Plain

variable {m : Vm} {root : Nat} {A : Nat → Prop}

/-- A change to the page behind one of the addresses leaves the mapping alone. -/
theorem setEntry (h : m.Plain root A) {a : Nat} (i : Nat) {e : Pte} (v : Pte) {w u : Bool}
    (ha : A a) (htr : m.translate root a = some (e, w, u)) :
    (m.setEntry (ppn e) i v).Plain root A ∧
    ∀ x, A x → (m.setEntry (ppn e) i v).translate root x = m.translate root x := by
  have hsame := fun x (hx : A x) => m.path_setEntry i v (h.data a x e w u ha hx htr)
  refine ⟨⟨?_, ?_, ?_⟩, fun x hx => (hsame x hx).2⟩
  · intro b hb
    rw [(hsame b hb).2]
    exact h.writable b hb
  · intro b b' e1 e2 w1 w2 u1 u2 hb hb'
    rw [(hsame b hb).2, (hsame b' hb').2]
    exact h.single b b' e1 e2 w1 w2 u1 u2 hb hb'
  · intro b b' e1 w1 u1 hb hb'
    rw [(hsame b hb).2, (hsame b' hb').1]
    exact h.data b b' e1 w1 u1 hb hb'

/-- A byte that is stored is seen at its address and nowhere else. -/
theorem storeByte (h : m.Plain root A) (a : Nat) (ha : A a) (b : BitVec 8) :
    ∃ m', m.storeByte root a b = some m' ∧ m'.Plain root A ∧
      ∀ x, A x → m'.loadByte root x = if x = a then some b else m.loadByte root x := by
  rcases h.writable a ha with ⟨e, u, htr⟩
  have hst : m.storeByte root a b = some (m.setEntry (ppn e) (a % pgSize / 8)
      (m.mem (ppn e) (a % pgSize / 8) &&& ~~~((0xFF : BitVec 64) <<< (8 * (a % 8))) |||
        b.setWidth 64 <<< (8 * (a % 8)))) := by
    simp only [Vm.storeByte, htr, Option.bind_some, if_true]
  refine ⟨_, hst, ?_, ?_⟩
  · exact (h.setEntry _ _ ha htr).1
  · intro x hx
    rcases h.writable x hx with ⟨e', u', htr'⟩
    unfold loadByte
    rw [(h.setEntry _ _ ha htr).2 x hx, htr']
    simp only [Option.map_some, setEntry_mem]
    by_cases hslot : ppn e' = ppn e ∧ x % pgSize / 8 = a % pgSize / 8
    · -- the same word, so `x` and `a` differ at most in the byte
      rw [hslot.1, hslot.2, setSlot_self,
        byte_insert _ _ (Nat.mod_lt a (by decide)) (Nat.mod_lt x (by decide))]
      have hpage := h.single x a e' e true true u' u hx ha htr' htr hslot.1
      have hiff : x % 8 = a % 8 ↔ x = a := by
        have hword := hslot.2
        simp only [pgSize] at hpage hword
        omega
      by_cases hxa : x = a
      · rw [if_pos (hiff.2 hxa), if_pos hxa]
      · rw [if_neg (fun hb => hxa (hiff.1 hb)), if_neg hxa]
    · have hne : x ≠ a := by
        intro hxa
        subst hxa
        rw [htr, Option.some.injEq, Prod.mk.injEq] at htr'
        exact hslot ⟨by rw [htr'.1], rfl⟩
      rw [if_neg hne, setSlot_of_ne _ _ (by rw [not_and_or] at hslot; exact hslot)]

/-- The low bytes of a word, stored from `a` on. -/
theorem storeBytes (n : Nat) : ∀ (m : Vm) (a : BitVec 64) (w : BitVec 64), m.Plain root A →
    (∀ i < n, A (a.toNat + i)) → a.toNat + n < 2 ^ 64 →
    ∃ m', m.storeBytes root n a.toNat w = some m' ∧ m'.Plain root A ∧
      ∀ x : BitVec 64, A x.toNat → m'.view root x = Bytes.store (m.view root) n a w.toNat x := by
  induction n with
  | zero =>
    intro m a w h _ _
    exact ⟨m, rfl, h, fun x _ => rfl⟩
  | succ n ih =>
    intro m a w h hA hle
    rcases h.storeByte a.toNat (hA 0 (by omega)) (w.setWidth 8) with ⟨m1, hst, h1, hload⟩
    have hview : ∀ x : BitVec 64, A x.toNat → m1.view root x =
        Function.update (m.view root) a (BitVec.ofNat 8 w.toNat) x := by
      intro x hx
      unfold Vm.view
      rw [hload x.toNat hx]
      by_cases hxa : x = a
      · rw [if_pos (by rw [hxa]), hxa, Function.update_self]
        rfl
      · rw [if_neg (fun hn => hxa (BitVec.eq_of_toNat_eq hn)), Function.update_of_ne hxa]
    have hnext : (a + 1).toNat = a.toNat + 1 := by
      rw [BitVec.toNat_add]
      exact Nat.mod_eq_of_lt (by change a.toNat + 1 < 2 ^ 64; omega)
    have hrest := ih m1 (a + 1) (w >>> 8) h1 (fun i hi => ?_) (by rw [hnext]; omega)
    · rcases hrest with ⟨m', hst', h', hview'⟩
      refine ⟨m', ?_, h', ?_⟩
      · rwa [Vm.storeBytes, hst, Option.bind_some, ← hnext]
      · intro x hx
        rw [hview' x hx, Bytes.store, BitVec.toNat_ushiftRight, Nat.shiftRight_eq_div_pow]
        exact Bytes.store_congr n _ _ _ _ x (hview x hx)
    · rw [hnext, Nat.add_assoc, Nat.add_comm 1 i]
      exact hA (i + 1) (by omega)

/-- Words one after the other, from `a` on. -/
theorem storeWords (ws : List (BitVec 64)) : ∀ (m : Vm) (a : BitVec 64), m.Plain root A →
    (∀ i < 8 * ws.length, A (a.toNat + i)) → a.toNat + 8 * ws.length < 2 ^ 64 →
    ∃ m', m.storeWords root a.toNat ws = some m' ∧ m'.Plain root A ∧
      ∀ x : BitVec 64, A x.toNat →
        m'.view root x = Bytes.storeList (m.view root) 8 a (ws.map BitVec.toNat) x := by
  induction ws with
  | nil =>
    intro m a h _ _
    exact ⟨m, rfl, h, fun x _ => rfl⟩
  | cons w ws ih =>
    intro m a h hA hle
    rw [List.length_cons, Nat.mul_succ] at hA hle
    rcases storeBytes 8 m a w h (fun i hi => hA i (by omega)) (by omega) with
      ⟨m1, hst, h1, hview⟩
    have hnext : (a + (8 : Nat)).toNat = a.toNat + 8 := by
      rw [BitVec.toNat_add]
      exact Nat.mod_eq_of_lt (by change a.toNat + 8 < 2 ^ 64; omega)
    have hrest := ih m1 (a + (8 : Nat)) h1 (fun i hi => ?_) (by rw [hnext]; omega)
    · rcases hrest with ⟨m', hst', h', hview'⟩
      refine ⟨m', ?_, h', ?_⟩
      · rwa [Vm.storeWords, hst, Option.bind_some, ← hnext]
      · intro x hx
        rw [hview' x hx, List.map_cons, Bytes.storeList]
        exact Bytes.storeList_congr 8 _ _ _ _ x (hview x hx)
    · rw [hnext, Nat.add_assoc]
      exact hA (8 + i) (by omega)

end Plain

end Vm
end Jos
