import Jos.Core.Fd
import Jos.Lib.Flow
import Jos.Theory.UserMem

/-!
# When a Pipe Is Closed

`_pipeisclosed` compares the count of the caller's `struct Fd` with the count of the page
of the pipe, which every open end maps too. So the page of the pipe must not lag behind:
whoever maps an end has to have the page of the pipe at that moment. `close` and `dup` take
care of this. `fork` does not: it goes through the pages in ascending order, and the pages
of the descriptors are below those of the data.

## Main definitions

* `Ends`: The pages of a pipe.
* `Ends.Ahead`: Every descriptor of the pipe comes with its data page.
* `Ends.Holds`: Environments that hold ends of the pipe, with no call in progress.
* `Ends.Halfway`: A `fork` is between the two pages of a descriptor.

## Theorems

* `goes_dupData`, `goes_dupFd`, `run_own`: A step of `close`, `dup` or `exit`.
* `forkStep_child`: A step of `fork`.
* `Inv.step`: One step of the environments.
* `closed_not_premature`: A pipe that is found closed is closed.
* `closed_premature`: The test in the middle of a `fork`.
-/

namespace Jos.Fd

open User Lib
open Option (some.inj some.injEq)
open Function (update update_self update_of_ne update_idem update_eq_self)

/-! ## Descriptors -/

/-- The pages of descriptor `i`. -/
def fdSlot (i : Nat) : Nat := 0xD0000 + i

def dataSlot (i : Nat) : Nat := 0xD0020 + i

/-- A descriptor number that `fd_lookup` accepts. -/
def InRange (fdnum : BitVec 32) : Prop := fdnum.toNat < maxfd

variable {fdnum : BitVec 32} {v i u e child q : Nat} {m m' : Pages} {w w' : World} {ok : Bool}
  {calls : List (Side × BitVec 32)} {task : Task}

theorem fdPage_eq (h : InRange fdnum) : fdPage fdnum = fdSlot fdnum.toNat := by
  have hall : ∀ i : Fin 32, fdPage (BitVec.ofNat 32 i) = fdSlot i := by decide
  have hi := hall ⟨fdnum.toNat, h⟩
  rwa [BitVec.ofNat_toNat, BitVec.setWidth_eq] at hi

theorem dataPage_eq (h : InRange fdnum) : dataPage fdnum = dataSlot fdnum.toNat := by
  have hall : ∀ i : Fin 32, dataPage (BitVec.ofNat 32 i) = dataSlot i := by decide
  have hi := hall ⟨fdnum.toNat, h⟩
  rwa [BitVec.ofNat_toNat, BitVec.setWidth_eq] at hi

/-- `fd_lookup` finds the descriptors in range whose page is there. -/
theorem fdLookup_iff (w : World) (e : Nat) (fdnum : BitVec 32) :
    w.fdLookup e fdnum = true ↔ InRange fdnum ∧ w.pages.present (e, fdPage fdnum) = true := by
  have hlt := fdnum.isLt
  have hint := BitVec.toInt_eq_toNat_cond fdnum
  have hrange : (0 ≤ fdnum.toInt ∧ fdnum.toInt < maxfd) ↔ InRange fdnum := by
    unfold InRange maxfd
    split at hint <;> omega
  rw [World.fdLookup, Bool.and_eq_true, Bool.and_eq_true, decide_eq_true_eq, decide_eq_true_eq,
    hrange]

/-! ## The pages of a pipe -/

/-- The pages of a pipe: the `struct Fd` of one end, that of the other, and the data. -/
structure Ends where
  mine : Nat
  other : Nat
  data : Nat
  mine_ne_other : mine ≠ other
  mine_ne_data : mine ≠ data
  other_ne_data : other ≠ data
  mine_pos : mine ≠ 0
  other_pos : other ≠ 0
  data_pos : data ≠ 0

namespace Ends

variable (P : Ends) {j : Nat}

/-- An environment that sees `r` has an end at page `v`. -/
def Held (r : Nat → Option Nat) (v : Nat) : Prop := r v = some P.mine ∨ r v = some P.other

/-- The pages of the pipe are where those of descriptors are. -/
structure Placed (r : Nat → Option Nat) : Prop where
  fd : ∀ v, P.Held r v → ∃ i < maxfd, v = fdSlot i
  data : ∀ v, r v = some P.data → ∃ i < maxfd, v = dataSlot i

/-- Every descriptor of the pipe comes with its data page. -/
def Ahead (r : Nat → Option Nat) : Prop :=
  ∀ i < maxfd, P.Held r (fdSlot i) → r (dataSlot i) = some P.data

variable {P} {r : Nat → Option Nat}

theorem fdSlot_ne_dataSlot {i : Nat} (j : Nat) (hi : i < maxfd) : fdSlot i ≠ dataSlot j := by
  unfold fdSlot dataSlot
  unfold maxfd at hi
  omega

theorem not_held_none (v : Nat) : ¬P.Held (update r v none) v := by
  rw [Held, update_self]
  simp

/-- A page goes to where a page of its kind may be. -/
theorem Placed.set (h : P.Placed r) {o : Option Nat}
    (hfd : o = some P.mine ∨ o = some P.other → ∃ i < maxfd, v = fdSlot i)
    (hdata : o = some P.data → ∃ i < maxfd, v = dataSlot i) : P.Placed (update r v o) := by
  refine ⟨fun u hu => ?_, fun u hu => ?_⟩ <;> by_cases huv : u = v
  · rw [Held, huv, update_self] at hu
    exact huv ▸ hfd hu
  · rw [Held, update_of_ne huv] at hu
    exact h.fd u hu
  · rw [huv, update_self] at hu
    exact huv ▸ hdata hu
  · rw [update_of_ne huv] at hu
    exact h.data u hu

/-- A descriptor comes when its data page is there, and a data page goes when there is no
    descriptor. -/
theorem Ahead.set (h : P.Ahead r) {o : Option Nat}
    (hfd : ∀ i < maxfd, v = fdSlot i → o = some P.mine ∨ o = some P.other →
      r (dataSlot i) = some P.data)
    (hdata : ∀ i < maxfd, v = dataSlot i → P.Held r (fdSlot i) → o = some P.data) :
    P.Ahead (update r v o) := by
  intro i hi hheld
  by_cases hd : dataSlot i = v
  · rw [Held, update_of_ne (hd ▸ fdSlot_ne_dataSlot i hi)] at hheld
    rw [hd, update_self]
    exact hdata i hi hd.symm hheld
  · rw [update_of_ne hd]
    by_cases hf : fdSlot i = v
    · rw [Held, hf, update_self] at hheld
      exact hfd i hi hf.symm hheld
    · rw [Held, update_of_ne hf] at hheld
      exact h i hi hheld

/-! ## One environment on its own -/

/-- What is called after `close` of `fdnum`. -/
def NextOk (fdnum : BitVec 32) : Next → Prop
  | .dup oldfdnum newfdnum => newfdnum = fdnum ∧ InRange oldfdnum ∧ InRange newfdnum
  | _ => True

variable (P) in
/-- What an environment that sees `r` relies on for its next step. -/
def TaskOk (r : Nat → Option Nat) : Task → Prop
  | .close fdnum next => NextOk fdnum next
  | .closeFd fdnum next | .closeLast fdnum next => InRange fdnum ∧ NextOk fdnum next
  | .closeData fdnum next => InRange fdnum ∧ NextOk fdnum next ∧ ¬P.Held r (fdPage fdnum)
  | .dupData oldfdnum newfdnum =>
    InRange oldfdnum ∧ InRange newfdnum ∧ ¬P.Held r (fdPage newfdnum)
  | .dupFd oldfdnum newfdnum =>
    InRange oldfdnum ∧ InRange newfdnum ∧
      (P.Held r (fdPage oldfdnum) → r (dataPage newfdnum) = some P.data)
  | .dupErr newfdnum => InRange newfdnum
  | .dupErrData newfdnum => InRange newfdnum ∧ ¬P.Held r (fdPage newfdnum)
  | .idle | .fork _ _ _ | .exit _ => True

theorem TaskOk.next {next : Next} (h : NextOk fdnum next)
    (hgone : InRange fdnum → ¬P.Held r (fdPage fdnum)) : P.TaskOk r next.task := by
  cases next with
  | ret => trivial
  | exit i => trivial
  | dup oldfdnum newfdnum =>
    rcases h with ⟨hnew, hold, hin⟩
    refine ⟨hold, hin, ?_⟩
    rw [hnew] at hin ⊢
    exact hgone hin

end Ends

/-- What an environment sees. -/
def row (m : Pages) (e : Nat) (v : Nat) : Option Nat := m.seen (e, v)

theorem row_update {e v : Nat} (e' : Nat) {o : Option Nat} (h : m'.seen = update m.seen (e, v) o) :
    row m' e' = if e' = e then update (row m e) v o else row m e' := by
  funext u
  unfold row
  rw [h]
  by_cases he : e' = e
  · rw [if_pos he, he]
    by_cases hu : u = v
    · rw [hu, update_self, update_self]
    · rw [update_of_ne hu, update_of_ne (fun hc => hu (Prod.ext_iff.1 hc).2)]
  · rw [if_neg he, update_of_ne (fun hc => he (Prod.ext_iff.1 hc).1)]

/-- Only environment `e` sees a difference, and the counts stay right. -/
structure Own (e : Nat) (m m' : Pages) : Prop where
  wf : m'.Wf
  count : ∀ q, q ≠ 0 → m.Counted q → m'.Counted q
  others : ∀ e', e' ≠ e → row m' e' = row m e'

theorem Own.refl (e : Nat) (h : m.Wf) : Own e m m :=
  ⟨h, fun _ _ hc => hc, fun _ _ => rfl⟩

/-- `sys_page_unmap` of an own page. -/
theorem own_unmap (hwf : m.Wf) (e v : Nat) :
    Own e m (m.sysPageUnmap (e, v)) ∧
      row (m.sysPageUnmap (e, v)) e = update (row m e) v none := by
  rcases Pages.sysPageUnmap_spec hwf (e, v) with ⟨hseen, hwf', hcount⟩
  refine ⟨⟨hwf', hcount, ?_⟩, ?_⟩
  · intro e' he
    rw [row_update e' hseen, if_neg he]
  · rw [row_update e hseen, if_pos rfl]

/-- `sys_page_map` to an own page. -/
theorem own_map (hwf : w.pages.Wf) (he : e < nenv) (hrun : w.mapOwn e u v ok = some m') :
    Own e w.pages m' ∧ row m' e = update (row w.pages e) v (row w.pages e u) := by
  unfold World.mapOwn at hrun
  cases ok with
  | false => cases hrun
  | true =>
    rcases Pages.sysPageMap_spec hwf (and_setWidth_lt _ (by decide)) he hrun with
      ⟨hseen, hwf', hcount⟩
    refine ⟨⟨hwf', hcount, ?_⟩, ?_⟩
    · intro e' he'
      rw [row_update e' hseen, if_neg he']
    · rw [row_update e hseen, if_pos rfl]
      rfl

/-- `env_free` of the own pages. -/
theorem own_envFree (hwf : m.Wf) (e : Nat) :
    Own e m (m.envFree e (utop / pgSize)) ∧
      ∀ v, row (m.envFree e (utop / pgSize)) e v = none := by
  have hseen := Pages.envFree_seen hwf e
  rcases Pages.envFree_spec hwf e (utop / pgSize) with ⟨_, hwf', hcount⟩
  refine ⟨⟨hwf', hcount, ?_⟩, ?_⟩
  · intro e' he
    funext v
    rw [row, hseen, if_neg he]
    rfl
  · intro v
    rw [row, hseen, if_pos rfl]

/-- No end is seen at a page that is not present. -/
theorem not_held_of_absent (P : Ends) (h : m.present (e, v) ≠ true) : ¬P.Held (row m e) v := by
  intro hheld
  have hsome : ∃ q, m.seen (e, v) = some q := by
    rcases hheld with hq | hq
    · exact ⟨_, hq⟩
    · exact ⟨_, hq⟩
  rcases hsome with ⟨q, hq⟩
  exact h ((Pages.seen_eq_some m (e, v) q).1 hq).1

section Unmap

variable {P : Ends} {m : Pages} {e : Nat} (hwf : m.Wf) (hplaced : P.Placed (row m e))
  (hahead : P.Ahead (row m e)) {fdnum : BitVec 32} (hin : InRange fdnum)

include hwf hplaced hahead hin

/-- The `struct Fd` is unmapped. -/
theorem unmap_fd :
    Own e m (m.sysPageUnmap (e, fdPage fdnum)) ∧
      P.Placed (row (m.sysPageUnmap (e, fdPage fdnum)) e) ∧
      P.Ahead (row (m.sysPageUnmap (e, fdPage fdnum)) e) ∧
      ¬P.Held (row (m.sysPageUnmap (e, fdPage fdnum)) e) (fdPage fdnum) := by
  rcases own_unmap hwf e (fdPage fdnum) with ⟨hown, hrow⟩
  rw [hrow]
  refine ⟨hown, hplaced.set (by simp) (by simp), hahead.set (by simp) fun i _ he => ?_,
    Ends.not_held_none _⟩
  rw [fdPage_eq hin] at he
  exact absurd he (Ends.fdSlot_ne_dataSlot i hin)

/-- The data page is unmapped after it. -/
theorem unmap_data (hgone : ¬P.Held (row m e) (fdPage fdnum)) :
    Own e m (m.sysPageUnmap (e, dataPage fdnum)) ∧
      P.Placed (row (m.sysPageUnmap (e, dataPage fdnum)) e) ∧
      P.Ahead (row (m.sysPageUnmap (e, dataPage fdnum)) e) := by
  rcases own_unmap hwf e (dataPage fdnum) with ⟨hown, hrow⟩
  rw [hrow]
  refine ⟨hown, hplaced.set (by simp) (by simp), hahead.set (by simp) fun i _ he hheld => ?_⟩
  rw [dataPage_eq hin] at he
  rw [fdPage_eq hin, Nat.add_left_cancel he] at hgone
  exact absurd hheld hgone

end Unmap

/-- An environment in order: what it sees, and where it is in its code. -/
structure Good (P : Ends) (m : Pages) (e : Nat) (task : Task) : Prop where
  placed : P.Placed (row m e)
  ahead : P.Ahead (row m e)
  ok : P.TaskOk (row m e) task

/-- An environment that sees nothing. -/
theorem Good.empty (P : Ends) (h : ∀ v, row m e v = none) : Good P m e .idle := by
  refine ⟨⟨?_, ?_⟩, ?_, trivial⟩
  · intro v hv
    rw [Ends.Held, h v] at hv
    simp at hv
  · intro v hv
    cases (h v).symm.trans hv
  · intro i _ hv
    rw [Ends.Held, h] at hv
    simp at hv

/-- The task is not a `fork`. -/
def Task.noFork : Task → Prop
  | .fork _ _ _ => False
  | _ => True

theorem Next.task_noFork (next : Next) : next.task.noFork := by
  cases next <;> trivial

/-- The environment takes a step that only it sees, and is in order after it. -/
def Goes (P : Ends) (e : Nat) (w w' : World) : Prop :=
  ∃ m' task, w' = w.goto e m' task ∧ Own e w.pages m' ∧ Good P m' e task ∧ task.noFork

section Goes

variable {P : Ends} (he : e < nenv) (hwf : w.pages.Wf) (h : Good P w.pages e (w.tasks e))

include hwf h

/-- The pages stay. -/
theorem Goes.stay (hok : P.TaskOk (row w.pages e) task) (hno : task.noFork) :
    Goes P e w (w.goto e w.pages task) :=
  ⟨_, _, rfl, .refl e hwf, ⟨h.placed, h.ahead, hok⟩, hno⟩

include he

/-- `dup` maps the data page. -/
theorem goes_dupData {oldfdnum newfdnum : BitVec 32}
    (htask : w.tasks e = .dupData oldfdnum newfdnum) (hrun : w.run e ok = some w') :
    Goes P e w w' := by
  have hok := h.ok
  rw [World.run, htask] at hrun
  rw [htask] at hok
  rcases hok with ⟨hold, hnew, hgone⟩
  simp only at hrun
  by_cases hp : w.pages.present (e, dataPage oldfdnum) = true
  · rw [if_pos hp] at hrun
    cases hmap : w.mapOwn e (dataPage oldfdnum) (dataPage newfdnum) ok with
    | none =>
      simp only [hmap, some.injEq] at hrun
      exact hrun ▸ .stay hwf h hnew trivial
    | some m' =>
      simp only [hmap, some.injEq] at hrun
      rcases own_map hwf he hmap with ⟨hown, hrow⟩
      rw [fdPage_eq hnew] at hgone
      rw [dataPage_eq hold, dataPage_eq hnew] at hrow
      refine ⟨_, _, hrun.symm, hown, ⟨?_, ?_, hold, hnew, ?_⟩, trivial⟩
      · -- no end is at a data page
        rw [hrow]
        refine h.placed.set (fun hheld => ?_) fun _ => ⟨_, hnew, rfl⟩
        rcases h.placed.fd _ hheld with ⟨k, hk, hslot⟩
        exact absurd hslot.symm (Ends.fdSlot_ne_dataSlot _ hk)
      · rw [hrow]
        refine h.ahead.set (fun i hi hslot => ?_) fun i _ hslot hheld => ?_
        · exact absurd hslot.symm (Ends.fdSlot_ne_dataSlot _ hi)
        · rw [Nat.add_left_cancel hslot] at hgone
          exact absurd hheld hgone
      · -- the descriptor that is copied has its data page
        intro hheld
        rw [fdPage_eq hold, Ends.Held, hrow,
          update_of_ne (Ends.fdSlot_ne_dataSlot _ hold)] at hheld
        rw [dataPage_eq hnew, hrow, update_self]
        exact h.ahead _ hold hheld
  · rw [if_neg hp, some.injEq] at hrun
    refine hrun ▸ .stay hwf h ⟨hold, hnew, fun hheld => ?_⟩ trivial
    -- without a data page the descriptor is of another device
    rw [fdPage_eq hold] at hheld
    have hdata := h.ahead _ hold hheld
    rw [← dataPage_eq hold] at hdata
    exact absurd ((Pages.seen_eq_some _ _ _).1 hdata).1 hp

/-- `dup` maps the descriptor. -/
theorem goes_dupFd {oldfdnum newfdnum : BitVec 32} (htask : w.tasks e = .dupFd oldfdnum newfdnum)
    (hrun : w.run e ok = some w') : Goes P e w w' := by
  have hok := h.ok
  rw [World.run, htask] at hrun
  rw [htask] at hok
  rcases hok with ⟨hold, hnew, hdata⟩
  simp only at hrun
  cases hmap : w.mapOwn e (fdPage oldfdnum) (fdPage newfdnum) ok with
  | none =>
    simp only [hmap, some.injEq] at hrun
    exact hrun ▸ .stay hwf h hnew trivial
  | some m' =>
    simp only [hmap, some.injEq] at hrun
    rcases own_map hwf he hmap with ⟨hown, hrow⟩
    rw [fdPage_eq hold, fdPage_eq hnew] at hrow
    rw [fdPage_eq hold, dataPage_eq hnew] at hdata
    refine ⟨_, _, hrun.symm, hown, ⟨?_, ?_, trivial⟩, trivial⟩
    · rw [hrow]
      refine h.placed.set (fun _ => ⟨_, hnew, rfl⟩) fun hd => ?_
      rcases h.placed.data _ hd with ⟨k, _, hslot⟩
      exact absurd hslot (Ends.fdSlot_ne_dataSlot k hold)
    · rw [hrow]
      refine h.ahead.set (fun i _ hslot hheld => ?_) fun i _ hslot => ?_
      · rw [← Nat.add_left_cancel hslot]
        exact hdata hheld
      · exact absurd hslot (Ends.fdSlot_ne_dataSlot i hnew)

/-- A step of `close`, `dup` or `exit` that does not end the environment. -/
theorem run_own (hno : (w.tasks e).noFork) (hlast : ∀ i, w.tasks e = .exit i → i < maxfd)
    (hrun : w.run e ok = some w') : Goes P e w w' := by
  have hok := h.ok
  have hrun' := hrun
  unfold World.run at hrun'
  cases htask : w.tasks e with
  | idle =>
    rw [htask] at hrun'
    cases hrun'
  | close fdnum next =>
    rw [htask] at hrun' hok
    simp only at hrun'
    by_cases hlook : w.fdLookup e fdnum = true
    · rw [if_pos hlook] at hrun'
      have hin := ((fdLookup_iff w e fdnum).1 hlook).1
      split at hrun' <;> cases hrun' <;> exact .stay hwf h ⟨hin, hok⟩ trivial
    · rw [if_neg hlook] at hrun'
      cases hrun'
      refine .stay hwf h (Ends.TaskOk.next hok fun hin => ?_) next.task_noFork
      exact not_held_of_absent P fun hp => hlook ((fdLookup_iff w e fdnum).2 ⟨hin, hp⟩)
  -- a page is given up, and its slot is not held any more
  | closeFd fdnum next =>
    rw [htask] at hrun' hok
    cases hrun'
    rcases unmap_fd hwf h.placed h.ahead hok.1 with ⟨hown, hplaced, hahead, hgone⟩
    exact ⟨_, _, rfl, hown, ⟨hplaced, hahead, hok.1, hok.2, hgone⟩, trivial⟩
  | closeData fdnum next =>
    rw [htask] at hrun' hok
    cases hrun'
    rcases unmap_data hwf h.placed h.ahead hok.1 hok.2.2 with ⟨hown, hplaced, hahead⟩
    exact ⟨_, _, rfl, hown, ⟨hplaced, hahead, hok.1, hok.2.1⟩, trivial⟩
  | closeLast fdnum next =>
    rw [htask] at hrun' hok
    cases hrun'
    rcases unmap_fd hwf h.placed h.ahead hok.1 with ⟨hown, hplaced, hahead, hgone⟩
    have hnext := Ends.TaskOk.next hok.2 fun _ => hgone
    exact ⟨_, _, rfl, hown, ⟨hplaced, hahead, hnext⟩, next.task_noFork⟩
  | dupData oldfdnum newfdnum => exact goes_dupData he hwf h htask hrun
  | dupFd oldfdnum newfdnum => exact goes_dupFd he hwf h htask hrun
  | dupErr newfdnum =>
    rw [htask] at hrun' hok
    cases hrun'
    rcases unmap_fd hwf h.placed h.ahead hok with ⟨hown, hplaced, hahead, hgone⟩
    exact ⟨_, _, rfl, hown, ⟨hplaced, hahead, hok, hgone⟩, trivial⟩
  | dupErrData newfdnum =>
    rw [htask] at hrun' hok
    cases hrun'
    rcases unmap_data hwf h.placed h.ahead hok.1 hok.2 with ⟨hown, hplaced, hahead⟩
    exact ⟨_, _, rfl, hown, ⟨hplaced, hahead, trivial⟩, trivial⟩
  | fork child v calls =>
    rw [htask] at hno
    exact hno.elim
  | exit i =>
    rw [htask] at hrun'
    simp only [if_pos (hlast i htask), some.injEq] at hrun'
    exact hrun' ▸ .stay hwf h trivial trivial

end Goes

/-! ## A child -/

/-- How far `fork` has copied. -/
def copied (v : Nat) : List (Side × BitVec 32) → Nat
  | (.child, _) :: _ => v
  | _ => v + 1

/-- What can be left of `duppage`. -/
inductive Pending : List (Side × BitVec 32) → Prop
  | done : Pending []
  | self (perm : BitVec 32) (h : perm.toNat < 4096) : Pending [(.self, perm)]
  | child (perm : BitVec 32) (calls : List (Side × BitVec 32)) (h : perm.toNat < 4096)
      (hcalls : Pending calls) (hself : ∀ v, copied v calls = v + 1) :
      Pending ((.child, perm) :: calls)

theorem pending_duppage (w : Pte) : Pending (duppage w) := by
  rcases duppage_cases w with ⟨perm, calls, hd, hperm, hcalls | ⟨perm', hcalls, hperm'⟩⟩
  · rw [hd, hcalls]
    exact .child perm [] hperm .done fun _ => rfl
  · rw [hd, hcalls]
    exact .child perm _ hperm (.self perm' hperm') fun _ => rfl

theorem pending_forkPage (m : Pages) (e v : Nat) : Pending (forkPage m e v) := by
  unfold forkPage
  split
  · exact pending_duppage _
  · exact .done

/-- The page is copied if it is mapped. -/
theorem copied_forkPage (m : Pages) (e v : Nat) :
    copied v (forkPage m e v) = v ∨ copied v (forkPage m e v) = v + 1 ∧ m.seen (e, v) = none := by
  unfold forkPage
  split
  · rcases duppage_cases (m.maps (e, v)) with ⟨perm, calls, hd, _⟩
    rw [hd]
    exact .inl rfl
  · rename_i hno
    rw [not_or] at hno
    refine .inr ⟨rfl, ?_⟩
    rw [Option.eq_none_iff_forall_ne_some]
    intro q hq
    exact hno.2 ((Pages.seen_eq_some m (e, v) q).1 hq).1

/-- A page of the pipe. -/
def Ends.IsPage (P : Ends) (q : Nat) : Prop := q = P.mine ∨ q = P.other ∨ q = P.data

/-- A child that sees `rc`, of a parent that sees `r`, when the first `n` pages are copied. -/
structure Child (P : Ends) (r rc : Nat → Option Nat) (n : Nat) : Prop where
  rest : ∀ v q, n ≤ v → rc v = some q → ¬P.IsPage q
  copy : ∀ v q, rc v = some q → P.IsPage q → r v = some q
  ahead : ∀ i < maxfd, dataSlot i < n → P.Held rc (fdSlot i) → rc (dataSlot i) = some P.data

namespace Child

variable {P : Ends} {r rc : Nat → Option Nat} {n : Nat} (h : Child P r rc n)
include h

/-- An end that the child has is one that the parent has. -/
theorem held (hheld : P.Held rc v) : P.Held r v ∧ v < n := by
  have hgo : ∀ q, rc v = some q → P.IsPage q → r v = some q ∧ v < n := by
    intro q hq hpage
    refine ⟨h.copy v q hq hpage, ?_⟩
    by_contra hge
    exact h.rest v q (Nat.le_of_not_lt hge) hq hpage
  rcases hheld with hq | hq
  · rcases hgo _ hq (.inl rfl) with ⟨hr, hlt⟩
    exact ⟨.inl hr, hlt⟩
  · rcases hgo _ hq (.inr (.inl rfl)) with ⟨hr, hlt⟩
    exact ⟨.inr hr, hlt⟩

/-- The next page is copied. -/
theorem copied (hahead : P.Ahead r) :
    Child P r (update rc n (r n)) (n + 1) := by
  refine ⟨?_, ?_, ?_⟩
  · intro v q hv hq
    rw [update_of_ne (by omega)] at hq
    exact h.rest v q (by omega) hq
  · intro v q hq hpage
    by_cases hv : v = n
    · rw [hv, update_self] at hq
      rwa [hv]
    · rw [update_of_ne hv] at hq
      exact h.copy v q hq hpage
  · intro i hi hlt hheld
    have hne : fdSlot i ≠ n := by
      unfold fdSlot
      unfold dataSlot at hlt
      omega
    rw [Ends.Held, update_of_ne hne] at hheld
    by_cases hd : dataSlot i = n
    · rw [hd, update_self, ← hd]
      exact hahead i hi (h.held hheld).1
    · rw [update_of_ne hd]
      exact h.ahead i hi (by omega) hheld

/-- The next page is left out: there is nothing to copy, or no end so far. -/
theorem skipped
    (hskip : ∀ i < maxfd, dataSlot i = n → ¬P.Held rc (fdSlot i)) : Child P r rc (n + 1) := by
  refine ⟨fun v q hv => h.rest v q (by omega), h.copy, ?_⟩
  intro i hi hlt hheld
  by_cases hd : dataSlot i = n
  · exact absurd hheld (hskip i hi hd)
  · exact h.ahead i hi (by omega) hheld

/-- Nothing is left to copy. -/
theorem finished (hn : stackPage < n) (hplaced : P.Placed r) :
    P.Placed rc ∧ P.Ahead rc := by
  refine ⟨⟨?_, ?_⟩, ?_⟩
  · intro v hv
    exact hplaced.fd v (h.held hv).1
  · intro v hv
    exact hplaced.data v (h.copy v _ hv (.inr (.inr rfl)))
  · intro i hi hheld
    refine h.ahead i hi ?_ hheld
    have hstack : 0xD0040 < stackPage := by decide
    unfold dataSlot
    unfold maxfd at hi
    omega

end Child

/-- The pages of a descriptor have their entries in one page table. -/
theorem not_held_of_noTable (P : Ends) (hi : i < maxfd) (h : World.noTable m e (dataSlot i)) :
    ¬P.Held (row m e) (fdSlot i) := by
  have hz : m.maps (e, fdSlot i) = 0 := by
    unfold maxfd at hi
    refine h (fdSlot i) ?_ ?_
    · have htop : 0xD0040 < utop / pgSize := by decide
      unfold fdSlot
      omega
    · unfold fdSlot dataSlot
      omega
  intro hheld
  rw [Ends.Held, row, Pages.seen_zero hz] at hheld
  simp at hheld

/-- A step of `fork`: the child gets a page, or `fork` is done with it. -/
theorem forkStep_child {P : Ends} (hne : child ≠ e) (he : e < nenv) (hlow : child < nenv)
    (hwf : w.pages.Wf) (hahead : P.Ahead (row w.pages e)) (hpend : Pending calls)
    (hchild : Child P (row w.pages e) (row w.pages child) (copied v calls)) (hv : v ≤ stackPage)
    (hrun : w.forkStep e child v ok calls = some w') :
    (∃ m' v' calls', w' = w.goto e m' (.fork child v' calls') ∧ Own child w.pages m' ∧
      Pending calls' ∧ Child P (row m' e) (row m' child) (copied v' calls') ∧ v' ≤ stackPage) ∨
    (w' = { w.goto e w.pages .idle with status := update w.status child .runnable } ∧
      stackPage < copied v calls) := by
  cases hpend with
  | done =>
    simp only [World.forkStep] at hrun
    by_cases hlast : v = stackPage
    · rw [if_pos hlast, some.injEq] at hrun
      refine .inr ⟨hrun.symm, ?_⟩
      rw [hlast]
      exact Nat.lt_succ_self _
    · rw [if_neg hlast, some.injEq] at hrun
      refine .inl ⟨_, _, _, hrun.symm, .refl child hwf, pending_forkPage _ _ _, ?_, by omega⟩
      rcases copied_forkPage w.pages e (v + 1) with hc | ⟨hc, hnone⟩
      · rwa [hc]
      · rw [hc]
        refine hchild.skipped ?_
        -- the parent has no data page here, so it has no end either
        intro i hi hd hheld
        have hdata := hahead i hi (hchild.held hheld).1
        rw [hd] at hdata
        cases hnone.symm.trans hdata
  | self perm hperm =>
    simp only [World.forkStep] at hrun
    cases ok with
    | true =>
      rw [if_pos rfl] at hrun
      rcases Option.map_eq_some_iff.1 hrun with ⟨m', hmap, hw'⟩
      rcases Pages.sysPageMap_spec hwf hperm he hmap with ⟨hseen, hwf', hcount⟩
      -- the parent gets the page it has
      change m'.seen = update w.pages.seen (e, v) (w.pages.seen (e, v)) at hseen
      rw [update_eq_self] at hseen
      have hrow : ∀ e', row m' e' = row w.pages e' := by
        intro e'
        funext u
        rw [row, hseen]
        rfl
      refine .inl ⟨_, _, _, hw'.symm, ⟨hwf', hcount, fun e' _ => hrow e'⟩, .done, ?_, hv⟩
      rwa [hrow e, hrow child]
    | false =>
      rw [if_neg (by decide)] at hrun
      rcases Option.ite_none_right_eq_some.1 hrun with ⟨htable, hrun⟩
      rw [some.injEq] at hrun
      exact .inl ⟨_, _, _, hrun.symm, .refl child hwf, .done, hchild, hv⟩
  | child perm calls hperm hcalls hself =>
    simp only [World.forkStep] at hrun
    cases ok with
    | true =>
      rw [if_pos rfl] at hrun
      rcases Option.map_eq_some_iff.1 hrun with ⟨m', hmap, hw'⟩
      rcases Pages.sysPageMap_spec hwf hperm hlow hmap with ⟨hseen, hwf', hcount⟩
      have hrow : ∀ e', row m' e' = if e' = child then
          update (row w.pages child) v (row w.pages e v) else row w.pages e' :=
        fun e' => row_update e' hseen
      refine .inl ⟨_, _, _, hw'.symm, ⟨hwf', hcount, ?_⟩, hcalls, ?_, hv⟩
      · intro e' he'
        rw [hrow e', if_neg he']
      · rw [hrow e, if_neg hne.symm, hrow child, if_pos rfl, hself v]
        exact hchild.copied hahead
    | false =>
      rw [if_neg (by decide)] at hrun
      rcases Option.ite_none_right_eq_some.1 hrun with ⟨htable, hrun⟩
      rw [some.injEq] at hrun
      refine .inl ⟨_, _, _, hrun.symm, .refl child hwf, .done, ?_, hv⟩
      refine Child.skipped hchild ?_
      intro i hi hd
      change dataSlot i = v at hd
      rw [← hd] at htable
      exact not_held_of_noTable P hi htable

/-! ## All environments -/

/-- The environments are in order. -/
structure Inv (P : Ends) (w : World) : Prop where
  wf : w.pages.Wf
  count : ∀ q, P.IsPage q → w.pages.Counted q
  low : ∀ e, w.status e ≠ .free → e < nenv
  gone : ∀ e v q, w.status e = .free → row w.pages e v = some q → ¬P.IsPage q
  idle : ∀ e, w.status e ≠ .runnable → w.tasks e = .idle
  good : ∀ e, (∀ e' v calls, w.tasks e' ≠ .fork e v calls) → Good P w.pages e (w.tasks e)
  child : ∀ e c v calls, w.tasks e = .fork c v calls → w.status c = .notRunnable ∧
    Pending calls ∧ Child P (row w.pages e) (row w.pages c) (copied v calls) ∧ v ≤ stackPage
  unique : ∀ e e' c v v' calls calls', w.tasks e = .fork c v calls →
    w.tasks e' = .fork c v' calls' → e = e'

theorem isPage_ne_zero {P : Ends} (h : P.IsPage q) : q ≠ 0 := by
  rcases h with hq | hq | hq
  · rw [hq]; exact P.mine_pos
  · rw [hq]; exact P.other_pos
  · rw [hq]; exact P.data_pos

theorem Good.congr {P : Ends} (h : Good P m e task) (hrow : row m' e = row m e) :
    Good P m' e task := by
  refine ⟨?_, ?_, ?_⟩
  · rw [hrow]; exact h.placed
  · rw [hrow]; exact h.ahead
  · rw [hrow]; exact h.ok

namespace Inv

variable {P : Ends} {w : World} (h : Inv P w) (hst : w.status e = .runnable)
include h hst

/-- An environment that runs is not a child in the making. -/
theorem not_child (e' v : Nat) (calls : List (Side × BitVec 32)) : w.tasks e' ≠ .fork e v calls := by
  intro hf
  have hn := (h.child e' e v calls hf).1
  rw [hst] at hn
  cases hn

/-- What one step does: environment `e` goes on to `task`, and only environment `c` sees a
    difference or gets another status. It is the one that takes the step, or its child. -/
theorem change {c : Nat} (task : Task) (st : EnvStatus) (hlow : c < nenv) (hown : Own c w.pages m')
    (hidle : c = e ∧ (st ≠ .runnable → task = .idle) ∨ c ≠ e ∧ w.tasks c = .idle)
    (hmine : ∀ d v calls, w.tasks e = .fork d v calls → d = c)
    (hother : ∀ e' v calls, e' ≠ e → w.tasks e' ≠ .fork c v calls)
    (hgone : st = .free → ∀ v q, row m' c v = some q → ¬P.IsPage q)
    (hfork : ∀ d v calls, task = .fork d v calls → c = d ∧ st = .notRunnable ∧
      Pending calls ∧ Child P (row m' e) (row m' c) (copied v calls) ∧ v ≤ stackPage)
    (hself : P.TaskOk (row m' e) task)
    (hgood : (∀ v calls, task ≠ .fork c v calls) → P.Placed (row m' c) ∧ P.Ahead (row m' c)) :
    Inv P { w.goto e m' task with status := update w.status c st } := by
  have hstatus : ∀ e', e' ≠ c → update w.status c st e' = w.status e' :=
    fun e' he => update_of_ne he _ _
  have htasks : ∀ e', e' ≠ e → update w.tasks e task e' = w.tasks e' :=
    fun e' he => update_of_ne he _ _
  have htask : update w.tasks e task e = task := update_self _ _ _
  -- a fork is the one of this step, or one of before with another child
  have hforks : ∀ e' d v calls, update w.tasks e task e' = .fork d v calls →
      e' = e ∧ task = .fork d v calls ∨ e' ≠ e ∧ d ≠ c ∧ w.tasks e' = .fork d v calls := by
    intro e' d v calls hf
    by_cases he : e' = e
    · rw [he, htask] at hf
      exact .inl ⟨he, hf⟩
    · rw [htasks e' he] at hf
      exact .inr ⟨he, fun hd => hother e' v calls he (hd ▸ hf), hf⟩
  have hok : ∀ e', e' = e ∨ P.TaskOk (row m' e') (w.tasks e') →
      P.TaskOk (row m' e') (update w.tasks e task e') := by
    intro e' hor
    by_cases he : e' = e
    · rwa [he, htask]
    · rw [htasks e' he]
      exact hor.resolve_left he
  refine ⟨hown.wf, fun q hq => hown.count q (isPage_ne_zero hq) (h.count q hq),
    fun e' hnf => ?_, fun e' v q hfree hq => ?_, fun e' hnr => ?_, fun e' hnot => ?_,
    fun e' d v calls hf => ?_, fun e1 e2 d v1 v2 cs1 cs2 hf1 hf2 => ?_⟩
  · by_cases he : e' = c
    · rwa [he]
    · exact h.low e' fun hc => hnf ((hstatus e' he).trans hc)
  · by_cases he : e' = c
    · rw [he] at hfree hq
      exact hgone ((update_self c _ _).symm.trans hfree) v q hq
    · change row m' e' v = some q at hq
      rw [hown.others e' he] at hq
      exact h.gone e' v q ((hstatus e' he).symm.trans hfree) hq
  · by_cases hc : e' = c
    · rw [hc] at hnr ⊢
      rcases hidle with ⟨rfl, hend⟩ | ⟨hce, hidle⟩
      · exact htask.trans (hend fun hs => hnr ((update_self c _ _).trans hs))
      · exact (htasks c hce).trans hidle
    · have hnr' : w.status e' ≠ .runnable := fun hs => hnr ((hstatus e' hc).trans hs)
      exact (htasks e' fun he => hnr' (he ▸ hst)).trans (h.idle e' hnr')
  · by_cases hc : e' = c
    · rw [hc] at hnot ⊢
      rcases hgood fun v calls hf => hnot e v calls (htask.trans hf) with ⟨hplaced, hahead⟩
      refine ⟨hplaced, hahead, hok c (hidle.imp And.left fun hi => ?_)⟩
      rw [hi.2]
      trivial
    · have hold : Good P w.pages e' (w.tasks e') := by
        refine h.good e' fun e'' v calls hf => ?_
        by_cases he : e'' = e
        · rw [he] at hf
          exact hc (hmine e' v calls hf)
        · exact hnot e'' v calls ((htasks e'' he).trans hf)
      have hnew := hold.congr (hown.others e' hc)
      exact ⟨hnew.placed, hnew.ahead, hok e' (.inr hnew.ok)⟩
  · rcases hforks e' d v calls hf with ⟨he, hf'⟩ | ⟨he, hd, hf'⟩
    · rcases hfork d v calls hf' with ⟨hc, hrest⟩
      rw [he, ← hc]
      exact ⟨(update_self c _ _).trans hrest.1, hrest.2⟩
    · rcases h.child e' d v calls hf' with ⟨hn, hpend, hchild, hv⟩
      -- the other parent is not the environment that sees a difference
      have hec : e' ≠ c := by
        intro hec
        rw [hec] at hf' he
        cases (hidle.resolve_left fun hi => he hi.1).2.symm.trans hf'
      refine ⟨(hstatus d hd).trans hn, hpend, ?_, hv⟩
      change Child P (row m' e') (row m' d) _
      rwa [hown.others e' hec, hown.others d hd]
  · rcases hforks e1 d v1 cs1 hf1 with ⟨he1, hf1⟩ | ⟨-, hd1, hf1⟩
    · rcases hforks e2 d v2 cs2 hf2 with ⟨he2, -⟩ | ⟨-, hd2, -⟩
      · rw [he1, he2]
      · exact absurd (hfork d v1 cs1 hf1).1.symm hd2
    · rcases hforks e2 d v2 cs2 hf2 with ⟨-, hf2⟩ | ⟨-, -, hf2⟩
      · exact absurd (hfork d v2 cs2 hf2).1.symm hd1
      · exact h.unique e1 e2 d v1 v2 cs1 cs2 hf1 hf2

/-- A step that concerns one environment only. It may be its last one. -/
theorem own {st : EnvStatus} (hno : (w.tasks e).noFork)
    (hown : Own e w.pages m') (hgood : Good P m' e task) (htask : task.noFork)
    (hend : st = .runnable ∨ task = .idle ∧ ∀ v, row m' e v = none) :
    Inv P { w.goto e m' task with status := update w.status e st } := by
  have hnot : ∀ t : Task, t.noFork → ∀ d v calls, t ≠ .fork d v calls := by
    intro t ht d v calls hf
    rwa [hf] at ht
  refine h.change hst task st (h.low e (by rw [hst]; decide)) hown ?_ ?_ ?_ ?_ ?_ hgood.ok
    fun _ => ⟨hgood.placed, hgood.ahead⟩
  · exact .inl ⟨rfl, fun hne => (hend.resolve_left hne).1⟩
  · exact fun d v calls hf => absurd hf (hnot _ hno d v calls)
  · exact fun e' v calls _ => h.not_child hst e' v calls
  · intro hfree v q hq
    rcases hend with hrun | ⟨-, hnone⟩
    · cases hrun.symm.trans hfree
    · cases (hnone v).symm.trans hq
  · exact fun d v calls hf => absurd hf (hnot _ htask d v calls)

/-- `fork` starts: the child sees nothing yet. -/
theorem forkStart (htask : w.tasks e = .idle) (hlow : child < nenv)
    (hfree : w.status child = .free) (hpend : Pending calls) (hv : v ≤ stackPage) :
    Inv P { w.goto e w.pages (.fork child v calls) with
      status := update w.status child .notRunnable } := by
  have hgone := fun u q hq => h.gone child u q hfree hq
  have hchild : Child P (row w.pages e) (row w.pages child) (copied v calls) := by
    refine ⟨fun u q _ hq => hgone u q hq, fun u q hq hpage => absurd hpage (hgone u q hq), ?_⟩
    intro i _ _ hheld
    rcases hheld with hq | hq
    · exact absurd (.inl rfl) (hgone _ _ hq)
    · exact absurd (.inr (.inl rfl)) (hgone _ _ hq)
  refine h.change hst _ _ hlow (.refl child h.wf) (.inr ⟨?_, ?_⟩) ?_ ?_
    (fun hc => by cases hc) ?_ trivial fun hnot => absurd rfl (hnot v calls)
  · intro hc
    rw [hc, hst] at hfree
    cases hfree
  · exact h.idle child (by rw [hfree]; decide)
  · exact fun d u cs hf => by cases htask.symm.trans hf
  · exact fun e' u cs _ hf => by cases hfree.symm.trans (h.child e' child u cs hf).1
  · intro d u cs hf
    injection hf with hd hu hcs
    rw [← hu, ← hcs]
    exact ⟨hd, rfl, hpend, hchild, hv⟩

/-- A step of `fork`: only the child sees a difference, and runs at the end. -/
theorem forkStep (htask : w.tasks e = .fork child v calls)
    (hrun : w.forkStep e child v ok calls = some w') : Inv P w' := by
  rcases h.child e child v calls htask with ⟨hcn, hpend, hchild, hv⟩
  have hgood := h.good e (h.not_child hst)
  have hlow := h.low child (by rw [hcn]; decide)
  have hne : child ≠ e := by
    intro hc
    rw [hc] at hcn
    cases hcn.symm.trans hst
  have hstep := fun task st m' (hown : Own child w.pages m') => h.change hst task st hlow hown
    (.inr ⟨hne, h.idle child (by rw [hcn]; decide)⟩) (fun d u cs hf => by
      rw [htask] at hf
      injection hf with hd _ _
      exact hd.symm)
    fun e' u cs he hf => he (h.unique e' e child u v cs calls hf htask)
  rcases forkStep_child hne (h.low e (by rw [hst]; decide)) hlow h.wf
    hgood.ahead hpend hchild hv hrun with ⟨m', v', calls', hw', hown, hpend', hchild', hv'⟩ |
    ⟨hw', hlast⟩
  · have hnext := hstep (.fork child v' calls') .notRunnable m' hown (fun hc => by cases hc) ?_
      trivial fun hnot => absurd rfl (hnot v' calls')
    · rw [← hcn, update_eq_self] at hnext
      rwa [hw']
    · intro d u cs hf
      injection hf with hd hu hcs
      rw [← hu, ← hcs]
      exact ⟨hd, rfl, hpend', hchild', hv'⟩
  · rw [hw']
    exact hstep .idle .runnable w.pages (.refl child h.wf) (fun hc => by cases hc)
      (fun _ _ _ hf => by cases hf) trivial fun _ => hchild.finished hlast hgood.placed

/-- A step after which the environment goes on. -/
theorem goto (hno : (w.tasks e).noFork)
    (hown : Own e w.pages m') (hgood : Good P m' e task) (htask : task.noFork) :
    Inv P (w.goto e m' task) := by
  have hnew := h.own hst hno hown hgood htask (.inl rfl)
  rwa [← hst, update_eq_self] at hnew

/-- One step of a running environment. -/
theorem run (hrun : w.run e ok = some w') :
    Inv P w' := by
  have he : e < nenv := h.low e (by rw [hst]; decide)
  have hgood := h.good e (h.not_child hst)
  by_cases hno : (w.tasks e).noFork
  · by_cases hlast : ∀ i, w.tasks e = .exit i → i < maxfd
    · rcases run_own he h.wf hgood hno hlast hrun with ⟨m', task, hw', hown, hg, htask⟩
      rw [hw']
      exact h.goto hst hno hown hg htask
    · -- the environment ends
      rw [not_forall] at hlast
      rcases hlast with ⟨i, hi⟩
      rw [Classical.not_imp] at hi
      simp only [World.run, hi.1, if_neg hi.2] at hrun
      cases hrun
      rcases own_envFree h.wf e with ⟨hown, hnone⟩
      exact h.own hst hno hown (Good.empty P hnone) trivial (.inr ⟨rfl, hnone⟩)
  · cases htask : w.tasks e with
    | fork child v calls =>
      simp only [World.run, htask] at hrun
      exact h.forkStep hst htask hrun
    | _ =>
      rw [htask] at hno
      exact absurd trivial hno

end Inv

/-- `dup` gets a descriptor number for the copy. -/
def DupInRange : Event → Prop
  | .dup _ _ newfdnum => InRange newfdnum
  | _ => True

/-- The code of an environment goes on, or a call starts. -/
theorem step_cases {ev : Event} (hs : step w ev = some w') :
    w.status ev.env = .runnable ∧
    ((∃ ok, ev = .run ev.env ok ∧ w.run ev.env ok = some w') ∨
      w.tasks ev.env = .idle ∧ w.call ev = some w') := by
  unfold step at hs
  rcases Option.ite_none_right_eq_some.1 hs with ⟨hst, hs⟩
  refine ⟨hst, ?_⟩
  split at hs
  · exact .inl ⟨_, rfl, hs⟩
  · rename_i hidle
    exact .inr ⟨hidle, hs⟩
  · cases hs

theorem Inv.step {P : Ends} {w w' : World} (h : Inv P w) (ev : Event) (hin : DupInRange ev)
    (hs : Fd.step w ev = some w') : Inv P w' := by
  rcases step_cases hs with ⟨hst, ⟨ok, _, hrun⟩ | ⟨hidle, hcall⟩⟩
  · exact h.run hst hrun
  · have hgood := h.good ev.env (h.not_child hst)
    have hno : (w.tasks ev.env).noFork := by
      rw [hidle]
      trivial
    have hown := Own.refl ev.env h.wf
    cases ev with
    | close e fdnum =>
      rw [← some.inj hcall]
      exact h.goto hst hno hown ⟨hgood.placed, hgood.ahead, trivial⟩ trivial
    | dup e oldfdnum newfdnum =>
      simp only [World.call] at hcall
      by_cases hlook : w.fdLookup e oldfdnum = true
      · rw [if_pos hlook] at hcall
        rw [← some.inj hcall]
        have hold := ((fdLookup_iff w e oldfdnum).1 hlook).1
        exact h.goto hst hno hown ⟨hgood.placed, hgood.ahead, rfl, hold, hin⟩ trivial
      · rw [if_neg hlook] at hcall
        rwa [← some.inj hcall]
    | fork e child =>
      simp only [World.call] at hcall
      rcases Option.ite_none_right_eq_some.1 hcall with ⟨hfree, hcall⟩
      rw [← some.inj hcall]
      exact h.forkStart hst hidle hfree.1 hfree.2 (pending_forkPage _ _ _) (by decide)
    | exit e =>
      rw [← some.inj hcall]
      exact h.goto hst hno hown ⟨hgood.placed, hgood.ahead, trivial⟩ trivial
    | run e ok =>
      cases hcall

/-! ## The test -/

namespace Ends

variable (P : Ends)

/-- Environments hold ends of the pipe, each with its data page, and no call is in
    progress. -/
structure Holds (w : World) : Prop where
  wf : w.pages.Wf
  count : ∀ q, P.IsPage q → w.pages.Counted q
  low : ∀ e, w.status e ≠ .free → e < nenv
  gone : ∀ e v q, w.status e = .free → row w.pages e v = some q → ¬P.IsPage q
  idle : ∀ e, w.tasks e = .idle
  placed : ∀ e, P.Placed (row w.pages e)
  ahead : ∀ e, P.Ahead (row w.pages e)

/-- A `fork` has copied a descriptor with an end of the pipe and not its data page. -/
def Halfway (w : World) : Prop :=
  ∃ e c v calls i, w.tasks e = .fork c v calls ∧ i < maxfd ∧ P.Held (row w.pages e) (fdSlot i) ∧
    fdSlot i < copied v calls ∧ copied v calls ≤ dataSlot i

variable {P} {w : World}

theorem Holds.inv (h : P.Holds w) : Inv P w := by
  have hno : ∀ e c v calls, w.tasks e ≠ .fork c v calls := by
    intro e c v calls hf
    cases (h.idle e).symm.trans hf
  refine ⟨h.wf, h.count, h.low, h.gone, fun e _ => h.idle e, ?_, ?_, ?_⟩
  · intro e _
    refine ⟨h.placed e, h.ahead e, ?_⟩
    rw [h.idle e]
    trivial
  · exact fun e c v calls hf => absurd hf (hno e c v calls)
  · exact fun e _ c v _ calls _ hf => absurd hf (hno e c v calls)

end Ends

namespace Inv

variable {P : Ends} {w : World} (h : Inv P w)
include h

theorem placed (e : Nat) : P.Placed (row w.pages e) := by
  by_cases hc : ∀ e' v calls, w.tasks e' ≠ .fork e v calls
  · exact (h.good e hc).placed
  · -- what a child has, its parent has
    simp only [not_forall, not_not] at hc
    rcases hc with ⟨e', v, calls, hf⟩
    have hchild := (h.child e' e v calls hf).2.2.1
    have hst : w.status e' = .runnable := by
      by_contra hne
      rw [h.idle e' hne] at hf
      cases hf
    have hparent := (h.good e' (h.not_child hst)).placed
    refine ⟨?_, ?_⟩
    · exact fun u hu => hparent.fd u (hchild.held hu).1
    · exact fun u hu => hparent.data u (hchild.copy u _ hu (.inr (.inr rfl)))

/-- Outside of such a `fork`, every environment has the data pages. -/
theorem ahead (hhalf : ¬P.Halfway w) (e : Nat) : P.Ahead (row w.pages e) := by
  by_cases hc : ∀ e' v calls, w.tasks e' ≠ .fork e v calls
  · exact (h.good e hc).ahead
  · simp only [not_forall, not_not] at hc
    rcases hc with ⟨e', v, calls, hf⟩
    have hchild := (h.child e' e v calls hf).2.2.1
    intro i hi hheld
    rcases hchild.held hheld with ⟨hparent, hlt⟩
    refine hchild.ahead i hi ?_ hheld
    by_contra hge
    exact hhalf ⟨e', e, v, calls, i, hf, hi, hparent, hlt, Nat.le_of_not_lt hge⟩

/-- Each place of an end has a place of the data page of its own. -/
theorem count_le (hhalf : ¬P.Halfway w) :
    Refs.count Pages.slots w.pages.seen P.mine + Refs.count Pages.slots w.pages.seen P.other ≤
      Refs.count Pages.slots w.pages.seen P.data := by
  unfold Refs.count
  rw [← Finset.card_union_of_disjoint]
  · refine Finset.card_le_card_of_injOn (fun x => (x.1, x.2 + 32)) ?_ ?_
    · intro x hx
      have hheld : P.Held (row w.pages x.1) x.2 := by
        rcases Finset.mem_union.1 hx with hm | ho
        · exact .inl (Finset.mem_filter.1 hm).2
        · exact .inr (Finset.mem_filter.1 ho).2
      rcases (h.placed x.1).fd x.2 hheld with ⟨i, hi, hv⟩
      have hdata := h.ahead hhalf x.1 i hi (hv ▸ hheld)
      have hslot : x.2 + 32 = dataSlot i := by
        rw [hv]
        unfold fdSlot dataSlot
        omega
      have hseen : w.pages.seen (x.1, x.2 + 32) = some P.data := by
        rwa [hslot]
      exact Finset.mem_filter.2 ⟨h.wf.mem_slots hseen, hseen⟩
    · intro x _ y _ hxy
      simp only [Prod.mk.injEq, Nat.add_right_cancel_iff] at hxy
      exact Prod.ext hxy.1 hxy.2
  · refine Finset.disjoint_left.2 ?_
    intro x hm ho
    have he := (Finset.mem_filter.1 hm).2.symm.trans (Finset.mem_filter.1 ho).2
    exact P.mine_ne_other (some.inj he)

/-- An environment has at most one data page for each descriptor. -/
theorem count_data_lt :
    Refs.count Pages.slots w.pages.seen P.data < 65536 := by
  have hplace : ∀ x, w.pages.seen x = some P.data → ∃ i < maxfd, x.2 = dataSlot i :=
    fun x hx => (h.placed x.1).data x.2 hx
  have hle : Refs.count Pages.slots w.pages.seen P.data ≤
      (Finset.range nenv ×ˢ (Finset.range maxfd).image dataSlot).card := by
    unfold Refs.count
    refine Finset.card_le_card ?_
    intro x hx
    rw [Finset.mem_filter] at hx
    rw [Finset.mem_product, Finset.mem_range, Finset.mem_image]
    rcases hplace x hx.2 with ⟨i, hi, hv⟩
    exact ⟨((Pages.mem_slots x).1 hx.1).1, i, Finset.mem_range.2 hi, hv.symm⟩
  have himage : ((Finset.range maxfd).image dataSlot).card ≤ maxfd := by
    refine le_trans Finset.card_image_le ?_
    rw [Finset.card_range]
  rw [Finset.card_product, Finset.card_range] at hle
  have hmax : maxfd = 32 := rfl
  have hn : nenv = 1024 := rfl
  rw [hn] at hle
  omega

end Inv

/-- The count that `pageref` returns. -/
theorem pageref_eq {x : Nat × Nat} (h : w.pages.seen x = some q) :
    w.pageref x = w.pages.ppRef q := by
  rcases (Pages.seen_eq_some w.pages x q).1 h with ⟨hp, hq, _⟩
  rw [World.pageref, if_pos hp, hq]

/-- In every run in which `dup` is called with descriptor numbers in range, a pipe that is
    found closed while no `fork` is between the two pages of a descriptor of it is closed:
    no environment has a mapping of the other end. -/
theorem closed_not_premature (P : Ends) (w0 w : World) (hstart : P.Holds w0)
    (hrun : Run step (fun _ ev => DupInRange ev) w0 w) (hhalf : ¬P.Halfway w) (e : Nat)
    (fdnum : BitVec 32) (hmine : w.pages.seen (e, fdPage fdnum) = some P.mine)
    (hclosed : w.pipeisclosed e fdnum = true) : ∀ x, w.pages.seen x ≠ some P.other := by
  have h : Inv P w := Run.invariant (Inv P) (fun _ ev _ hi hin hs => hi.step ev hin hs) hrun
    hstart.inv
  rw [World.pipeisclosed, Bool.and_eq_true, beq_iff_eq] at hclosed
  have hin := ((fdLookup_iff w e fdnum).1 hclosed.1).1
  -- the data page of the descriptor is that of the pipe
  have hdata : w.pages.seen (e, dataPage fdnum) = some P.data := by
    rw [dataPage_eq hin]
    refine h.ahead hhalf e _ hin (.inl ?_)
    rwa [← fdPage_eq hin]
  have hrefs : w.pages.ppRef P.mine = w.pages.ppRef P.data := by
    rw [← pageref_eq hmine, ← pageref_eq hdata]
    exact hclosed.2
  have hmine' : w.pages.Counted P.mine := h.count _ (.inl rfl)
  have hdata' : w.pages.Counted P.data := h.count _ (.inr (.inr rfl))
  unfold Pages.Counted at hmine' hdata'
  have hcounts : Refs.count Pages.slots w.pages.seen P.mine % 65536 =
      Refs.count Pages.slots w.pages.seen P.data % 65536 := by
    have hnat := congrArg BitVec.toNat ((hmine'.symm.trans hrefs).trans hdata')
    rwa [BitVec.toNat_ofNat, BitVec.toNat_ofNat] at hnat
  have hle := h.count_le hhalf
  have hlt := h.count_data_lt
  rw [Nat.mod_eq_of_lt (by omega), Nat.mod_eq_of_lt hlt] at hcounts
  have hzero : Refs.count Pages.slots w.pages.seen P.other = 0 := by omega
  intro x hx
  exact (Refs.count_eq_zero _ _ _).1 hzero x (h.wf.mem_slots hx) hx

/-! ## Two environments -/

/-- The first environment has both ends, the second has the one to read from. -/
def places : List ((Nat × Nat) × Nat) :=
  [((0, 0xD0000), 5), ((0, 0xD0001), 6), ((0, 0xD0020), 7), ((0, 0xD0021), 7),
    ((1, 0xD0000), 5), ((1, 0xD0020), 7)]

def shared : World where
  pages := Pages.ofList places
  isPipe := fun q => q == 5 || q == 6
  status := fun e => if e < 2 then .runnable else .free
  tasks := fun _ => .idle

/-- The pipe, seen from its end to read from. -/
def readEnd : Ends where
  mine := 5
  other := 6
  data := 7
  mine_ne_other := by decide
  mine_ne_data := by decide
  other_ne_data := by decide
  mine_pos := by decide
  other_pos := by decide
  data_pos := by decide

theorem places_slots (p : (Nat × Nat) × Nat) (hp : p ∈ places) :
    p.1 ∈ Pages.slots ∧ p.2 < 2 ^ 52 := by
  have hall : ∀ p ∈ places, p.1.1 < nenv ∧ p.1.2 < utop / pgSize ∧ p.2 < 2 ^ 52 := by decide
  rcases hall p hp with ⟨hn, hv, hq⟩
  exact ⟨(Pages.mem_slots p.1).2 ⟨hn, hv⟩, hq⟩

theorem shared_holds : readEnd.Holds shared := by
  rcases Pages.ofList_spec places places_slots with ⟨hwf, hcount, hseen, _⟩
  have hmem : ∀ e v q, row shared.pages e v = some q → ((e, v), q) ∈ places :=
    fun e v q hq => hseen (e, v) q hq
  refine ⟨hwf, fun q hq => hcount q (isPage_ne_zero hq), ?_, ?_, fun _ => rfl, ?_, ?_⟩
  · intro e hne
    by_cases he : e < 2
    · unfold nenv
      omega
    · exact absurd (if_neg he) hne
  · intro e v q hfree hq
    have hall : ∀ p ∈ places, p.1.1 < 2 := by decide
    have he := hall _ (hmem e v q hq)
    cases hfree.symm.trans (if_pos he)
  · intro e
    have hfd : ∀ p ∈ places, p.2 = 5 ∨ p.2 = 6 → p.1.2 = fdSlot 0 ∨ p.1.2 = fdSlot 1 := by decide
    have hdata : ∀ p ∈ places, p.2 = 7 → p.1.2 = dataSlot 0 ∨ p.1.2 = dataSlot 1 := by decide
    refine ⟨?_, ?_⟩
    · intro v hv
      have hv' : v = fdSlot 0 ∨ v = fdSlot 1 := by
        rcases hv with hq | hq
        · exact hfd _ (hmem e v _ hq) (.inl rfl)
        · exact hfd _ (hmem e v _ hq) (.inr rfl)
      rcases hv' with h0 | h1
      · exact ⟨0, by decide, h0⟩
      · exact ⟨1, by decide, h1⟩
    · intro v hv
      rcases hdata _ (hmem e v _ hv) rfl with h0 | h1
      · exact ⟨0, by decide, h0⟩
      · exact ⟨1, by decide, h1⟩
  · intro e i hi hheld
    -- the three descriptors one by one
    have hall : ∀ p ∈ places, p.2 = 5 ∨ p.2 = 6 →
        row shared.pages p.1.1 (p.1.2 + 32) = some 7 := by decide
    have hslot : dataSlot i = fdSlot i + 32 := by
      unfold dataSlot fdSlot
      omega
    rw [hslot]
    rcases hheld with hq | hq
    · exact hall _ (hmem e _ _ hq) (.inl rfl)
    · exact hall _ (hmem e _ _ hq) (.inr rfl)

theorem goto_goto (w : World) (e : Nat) (m m' : Pages) (task task' : Task) :
    (w.goto e m task).goto e m' task' = w.goto e m' task' := by
  simp only [World.goto, update_idem]

/-- The pages after the three calls of `close(1)`. -/
def closedPages : Pages :=
  ((shared.pages.sysPageUnmap (0, fdPage 1)).sysPageUnmap (0, dataPage 1)).sysPageUnmap
    (0, fdPage 1)

/-- The first environment closes its end to write to. -/
theorem shared_close :
    Run step (fun _ ev => DupInRange ev) shared (shared.goto 0 closedPages .idle) := by
  have hrun : ∀ m task m' task', (shared.goto 0 m task).run 0 true =
      some ((shared.goto 0 m task).goto 0 m' task') →
      Run step (fun _ ev => DupInRange ev) (shared.goto 0 m task) (shared.goto 0 m' task') := by
    intro m task m' task' hs
    refine Relation.ReflTransGen.single ⟨.run 0 true, trivial, ?_⟩
    rw [← goto_goto shared 0 m m' task task', ← hs]
    rfl
  have hcall : Run step (fun _ ev => DupInRange ev) shared
      (shared.goto 0 shared.pages (.close 1 .ret)) :=
    Relation.ReflTransGen.single ⟨.close 0 1, trivial, rfl⟩
  have hlook := hrun shared.pages (.close 1 .ret) shared.pages (.closeFd 1 .ret) (by
    simp only [World.run, World.goto_tasks, update_self]
    rw [if_pos (by decide), if_pos (by decide)]
    rfl)
  have hfd := fun m =>
    hrun m (.closeFd 1 .ret) (m.sysPageUnmap (0, fdPage 1)) (.closeData 1 .ret) rfl
  have hdata := fun m =>
    hrun m (.closeData 1 .ret) (m.sysPageUnmap (0, dataPage 1)) (.closeLast 1 .ret) rfl
  have hlast := fun m => hrun m (.closeLast 1 .ret) (m.sysPageUnmap (0, fdPage 1)) .idle rfl
  exact (((hcall.trans hlook).trans (hfd _)).trans (hdata _)).trans (hlast _)

theorem closed_not_premature_close :
    readEnd.Holds shared ∧
    Run step (fun _ ev => DupInRange ev) shared (shared.goto 0 closedPages .idle) ∧
    (shared.goto 0 closedPages .idle).pipeisclosed 0 0 = true ∧
    ∀ x, closedPages.seen x ≠ some readEnd.other := by
  have hhalf : ¬readEnd.Halfway (shared.goto 0 closedPages .idle) := by
    intro hhalf
    rcases hhalf with ⟨e, c, v, calls, i, hf, _⟩
    rw [World.goto_tasks] at hf
    by_cases he : e = 0
    · rw [he, update_self] at hf
      cases hf
    · rw [update_of_ne he] at hf
      cases hf
  have hclosed : (shared.goto 0 closedPages .idle).pipeisclosed 0 0 = true := by decide
  have hnone := closed_not_premature readEnd shared (shared.goto 0 closedPages .idle) shared_holds
    shared_close hhalf 0 0 (by decide) hclosed
  rw [World.goto_pages] at hnone
  exact ⟨shared_holds, shared_close, hclosed, hnone⟩

/-- The first environment in `fork`, with the third as its child. -/
def forking (m : Pages) (v : Nat) (calls : List (Side × BitVec 32)) : World :=
  { shared.goto 0 m (.fork 2 v calls) with
    status := update shared.status 2 .notRunnable }

theorem forking_run (m : Pages) (v : Nat) (calls : List (Side × BitVec 32)) :
    step (forking m v calls) (.run 0 true) = (forking m v calls).forkStep 0 2 v true calls := by
  have hst : (forking m v calls).status 0 = .runnable := rfl
  have htask : (forking m v calls).tasks 0 = .fork 2 v calls := rfl
  simp only [step, Event.env, if_pos hst, World.run, htask]

theorem forking_goto (m m' : Pages) (v v' : Nat) (calls calls' : List (Side × BitVec 32)) :
    (forking m v calls).goto 0 m' (.fork 2 v' calls') = forking m' v' calls' := by
  simp only [forking, World.goto, update_idem]

/-- The loop goes on to the next page. -/
theorem forking_next (m : Pages) (v : Nat) (hv : v ≠ stackPage) :
    step (forking m v []) (.run 0 true) = some (forking m (v + 1) (forkPage m 0 (v + 1))) := by
  rw [forking_run]
  simp only [World.forkStep, if_neg hv]
  exact congrArg some (forking_goto m m v _ [] _)

/-- The loop goes over pages that are not mapped. -/
theorem forking_skip (n : Nat) (hn : firstPage + n < 0xD0000) :
    Run step (fun _ ev => DupInRange ev) (forking shared.pages firstPage [])
      (forking shared.pages (firstPage + n) []) := by
  induction n with
  | zero => exact Relation.ReflTransGen.refl
  | succ n ih =>
    refine Relation.ReflTransGen.tail (ih (by omega)) ⟨.run 0 true, trivial, ?_⟩
    have hstack : 0xD0000 < stackPage := by decide
    have hall : ∀ p ∈ places, 0xD0000 ≤ p.1.2 := by decide
    have hzero : shared.pages.maps (0, firstPage + n + 1) = 0 := by
      refine (Pages.ofList_spec places places_slots).2.2.2 _ ?_
      intro p hp he
      have hle := hall p hp
      rw [he] at hle
      exact absurd hle (by simp only; omega)
    have hpage : forkPage shared.pages 0 (firstPage + n + 1) = [] := by
      unfold forkPage Pages.present
      rw [hzero, if_neg]
      intro hc
      rcases hc with hc | hc
      · omega
      · cases hc
    rw [forking_next _ _ (by omega), hpage]
    rfl

/-- The second environment looks at the pipe when the first has copied the first of its
    descriptors to the child: the end to write to is open, and the pipe is found closed. -/
theorem closed_premature :
    ∃ w, readEnd.Holds shared ∧ Run step (fun _ ev => DupInRange ev) shared w ∧
      w.pages.seen (1, fdPage 0) = some readEnd.mine ∧ w.pipeisclosed 1 0 = true ∧
      w.pages.seen (0, fdPage 1) = some readEnd.other := by
  let m := shared.pages.pageInsert (2, 0xD0000) 5 0x407
  refine ⟨forking m 0xD0000 [], shared_holds, ?_, by decide, by decide, by decide⟩
  have hstart :
      Run step (fun _ ev => DupInRange ev) shared (forking shared.pages firstPage []) := by
    refine Relation.ReflTransGen.single ⟨.fork 0 2, trivial, ?_⟩
    rfl
  have hloop := forking_skip (0xCFFFF - firstPage) (by decide)
  have hnext := forking_next shared.pages 0xCFFFF (by decide)
  have hmap : step (forking shared.pages 0xD0000 (forkPage shared.pages 0 0xD0000)) (.run 0 true) =
      some (forking m 0xD0000 []) := by
    rw [forking_run]
    exact congrArg some (forking_goto shared.pages m 0xD0000 0xD0000 _ [])
  exact ((hstart.trans hloop).tail ⟨.run 0 true, trivial, hnext⟩).tail ⟨.run 0 true, trivial, hmap⟩

end Jos.Fd
