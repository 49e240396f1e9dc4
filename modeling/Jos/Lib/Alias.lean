import Mathlib.Logic.Function.Basic

/-!
# Aliasing

Places that name frames of a memory, as virtual pages do. A place can be written to or
not, and it can be marked as shared. A frame that is named at several places has to be
protected at all of them, unless the sharing is meant.

`Secure` says that of one place. Protecting a place together with a copy of it keeps it
for all places (`Secure.protect`), and so does a frame that no place has named before
(`Secure.fresh`). A store through a secure place is not seen anywhere else.

## Main definitions

* `Cell`: What a place names, and how.
* `Secure`: A place that is not shared has its frame to itself, or nobody writes there.
* `Unused`: A frame that no place names.
* `Twin`: Two places that are shared with each other, or both not shared.

## Theorems

* `Secure.protect`, `Secure.fresh`, `Secure.mono`: Changes of the places.
* `contents_store`, `contents_store_frozen`, `contents_unused`: Stores that are not seen.
-/

namespace Lib.Alias

open Function (update update_self update_of_ne)
open Option (map_some some.injEq)

variable {α φ β : Type} {x y z : α} {p : φ}

/-- A frame, whether it can be written to, and whether it is shared on purpose. -/
structure Cell (φ : Type) where
  frame : φ
  write : Bool
  share : Bool

/-- No other place names the frame. -/
def Sole (M : α → Option (Cell φ)) (x : α) (p : φ) : Prop :=
  ∀ z d, z ≠ x → M z = some d → d.frame ≠ p

/-- Nobody can write to the frame. -/
def Frozen (M : α → Option (Cell φ)) (p : φ) : Prop :=
  ∀ z d, M z = some d → d.frame = p → d.write = false

/-- A place that is not shared has its frame to itself if it can be written to there, and
    otherwise it can be written to nowhere. -/
def Secure (M : α → Option (Cell φ)) (x : α) : Prop :=
  ∀ d, M x = some d → d.share = false →
    (d.write = true → Sole M x d.frame) ∧ (d.write = false → Frozen M d.frame)

def Unused (M : α → Option (Cell φ)) (p : φ) : Prop := ∀ z d, M z = some d → d.frame ≠ p

/-- What is in the frame of a place. -/
def contents (M : α → Option (Cell φ)) (mem : φ → β) (x : α) : Option β :=
  (M x).map fun d => mem d.frame

/-- Two places that are both there or not and shared or not, with one frame if they are. -/
structure Twin (M : α → Option (Cell φ)) (x y : α) : Prop where
  share : (M x).map Cell.share = (M y).map Cell.share
  frame : ∀ d d', M x = some d → M y = some d' → d.share = true → d.frame = d'.frame

/-- The cell of a place that is protected, unless it is shared. -/
def Cell.protect (d : Cell φ) : Cell φ := { d with write := d.write && d.share }

variable {M : α → Option (Cell φ)} {d : Cell φ}

theorem secure_of_none (h : M x = none) : Secure M x := by
  intro d hd
  rw [h] at hd
  cases hd

/-- With fewer places there is less to be said of the others. -/
theorem Secure.mono {M' : α → Option (Cell φ)} (h : Secure M z)
    (hsub : ∀ u d, M' u = some d → M u = some d) : Secure M' z := by
  intro d hd hs
  rcases h d (hsub z d hd) hs with ⟨hsole, hfrozen⟩
  exact ⟨fun hw u d' hu hd' => hsole hw u d' hu (hsub u d' hd'),
    fun hw u d' hd' => hfrozen hw u d' (hsub u d' hd')⟩

theorem Twin.symm {M : α → Option (Cell φ)} {x y : α} (h : Twin M x y) : Twin M y x := by
  refine ⟨h.share.symm, ?_⟩
  intro d d' hd hd' hs
  have hshare := h.share
  rw [hd, hd', map_some, map_some, some.injEq] at hshare
  exact (h.frame d' d hd' hd (hshare.trans hs)).symm

theorem Twin.congr {M M' : α → Option (Cell φ)} {x y : α} (h : Twin M x y) (hx : M' x = M x)
    (hy : M' y = M y) : Twin M' x y := by
  refine ⟨by rw [hx, hy]; exact h.share, ?_⟩
  rw [hx, hy]
  exact h.frame

section Change

variable [DecidableEq α] {M : α → Option (Cell φ)} {k : Cell φ}

theorem Secure.unmap (h : Secure M z) (y : α) : Secure (update M y none) z := by
  refine h.mono ?_
  intro u d hu
  by_cases huy : u = y
  · rw [huy, update_self] at hu
    cases hu
  · rwa [update_of_ne huy] at hu

/-- A place gets a frame of its own. -/
theorem Secure.fresh (hz : z ≠ x → Secure M z) (hp : Unused M p) :
    Secure (update M x (some ⟨p, true, false⟩)) z := by
  intro d hd hs
  by_cases hzx : z = x
  · -- nobody else names the new frame
    rw [hzx, update_self, some.injEq] at hd
    rw [← hd, hzx]
    refine ⟨?_, fun hw => by cases hw⟩
    intro _ u d' hu hd'
    rw [update_of_ne hu] at hd'
    exact hp u d' hd'
  · rw [update_of_ne hzx] at hd
    rcases hz hzx d hd hs with ⟨hsole, hfrozen⟩
    -- the frame of the other place is not the new one
    have hne : p ≠ d.frame := fun hc => hp z d hd hc.symm
    refine ⟨?_, ?_⟩
    · intro hw u d' hu hd'
      by_cases hux : u = x
      · rw [hux, update_self] at hd'
        cases hd'
        exact hne
      · rw [update_of_ne hux] at hd'
        exact hsole hw u d' hu hd'
    · intro hw u d' hd' hframe
      by_cases hux : u = x
      · rw [hux, update_self] at hd'
        cases hd'
        exact absurd hframe hne
      · rw [update_of_ne hux] at hd'
        exact hfrozen hw u d' hd' hframe

/-- A place and a copy of it, both protected. -/
def protectBoth (M : α → Option (Cell φ)) (x y : α) (k : Cell φ) : α → Option (Cell φ) :=
  update (update M y (some k.protect)) x (some k.protect)

theorem protectBoth_or {u : α} (h : protectBoth M x y k u = some d) :
    d = k.protect ∧ (u = x ∨ u = y) ∨ u ≠ x ∧ u ≠ y ∧ M u = some d := by
  rw [protectBoth] at h
  by_cases hux : u = x
  · rw [hux, update_self, some.injEq] at h
    exact .inl ⟨h.symm, .inl hux⟩
  · rw [update_of_ne hux] at h
    by_cases huy : u = y
    · rw [huy, update_self, some.injEq] at h
      exact .inl ⟨h.symm, .inr huy⟩
    · rw [update_of_ne huy] at h
      exact .inr ⟨hux, huy, h⟩

theorem Secure.protect (hk : M x = some k) (hx : z = x ∨ z = y → Secure M x)
    (hz : z ≠ x → z ≠ y → Secure M z) : Secure (protectBoth M x y k) z := by
  intro d hd hs
  rcases protectBoth_or hd with ⟨hd, hxy⟩ | ⟨hzx, hzy, hd⟩
  · -- one of the two places: they are not written to any more, and nobody else could
    have hks : k.share = false := by rw [hd] at hs; exact hs
    have hprot : k.protect.write = false := by rw [Cell.protect, hks, Bool.and_false]
    rcases hx hxy k hk hks with ⟨hsole, hfrozen⟩
    rw [hd]
    refine ⟨fun hw => absurd (hprot.symm.trans hw) (by simp), ?_⟩
    intro _ u d' hd' hframe
    rcases protectBoth_or hd' with ⟨hd', _⟩ | ⟨hux, _, hd'⟩
    · rwa [hd']
    · cases hkw : k.write with
      | true => exact absurd hframe (hsole hkw u d' hux hd')
      | false => exact hfrozen hkw u d' hd' hframe
  · -- another place: the new cells name a frame that `x` has named before
    rcases hz hzx hzy d hd hs with ⟨hsole, hfrozen⟩
    refine ⟨?_, ?_⟩
    · intro hw u d' hu hd'
      rcases protectBoth_or hd' with ⟨hd', _⟩ | ⟨_, _, hd'⟩
      · rw [hd']
        exact hsole hw x k hzx.symm hk
      · exact hsole hw u d' hu hd'
    · intro hw u d' hd' hframe
      rcases protectBoth_or hd' with ⟨hd', _⟩ | ⟨_, _, hd'⟩
      · rw [hd'] at hframe ⊢
        rw [Cell.protect, hfrozen hw x k hk hframe, Bool.false_and]
      · exact hfrozen hw u d' hd' hframe

theorem twin_protectBoth (x y : α) (k : Cell φ) : Twin (protectBoth M x y k) y x := by
  have hx : protectBoth M x y k x = some k.protect := update_self ..
  have hy : protectBoth M x y k y = some k.protect := by
    rw [protectBoth]
    by_cases hyx : y = x
    · rw [hyx, update_self]
    · rw [update_of_ne hyx, update_self]
  refine ⟨by rw [hx, hy], ?_⟩
  intro d d' hd hd' _
  rw [hy, some.injEq] at hd
  rw [hx, some.injEq] at hd'
  rw [← hd, ← hd']

end Change

section Store

variable [DecidableEq φ] {M : α → Option (Cell φ)} {mem : φ → β} {b : β}

theorem contents_update (h : ∀ d, M y = some d → d.frame ≠ p) :
    contents M (update mem p b) y = contents M mem y := by
  rw [contents, contents]
  cases hy : M y with
  | none => rfl
  | some d => rw [map_some, map_some, update_of_ne (h d hy)]

/-- A store through a secure place is seen nowhere else. -/
theorem contents_store (hx : Secure M x) (hd : M x = some d) (hw : d.write = true)
    (hs : d.share = false) (hy : y ≠ x) : contents M (update mem d.frame b) y = contents M mem y :=
  contents_update fun d' hd' => (hx d hd hs).1 hw y d' hy hd'

/-- No store is seen at a secure place that cannot be written to. -/
theorem contents_store_frozen {d' : Cell φ} (hy : Secure M y) (hd' : M y = some d')
    (hw' : d'.write = false) (hs' : d'.share = false) (hd : M x = some d) (hw : d.write = true) :
    contents M (update mem d.frame b) y = contents M mem y := by
  refine contents_update ?_
  intro d'' hd'' hframe
  rw [hd', some.injEq] at hd''
  rw [← hd''] at hframe
  have hfrozen := (hy d' hd' hs').2 hw' x d hd hframe.symm
  cases (hfrozen.symm.trans hw)

theorem contents_unused (hp : Unused M p) : contents M (update mem p b) y = contents M mem y :=
  contents_update fun d hd => hp y d hd

end Store

end Lib.Alias
