import Jos.Theory.Calls

/-!
# Pointers in System Calls

Four system calls follow a pointer that the caller supplies: `sys_cputs`,
`sys_env_set_trapframe` and the two calls of the network card. Only the first
has its pointer checked by `user_mem_check`. The accesses of a call are listed
byte by byte in the order the code makes them, and are attempted until one of
them faults.

Addresses are translated as at the start of the call. Stores to pages open to
the user do not change a translation, and an access to another page breaks the
discipline already.

## Main definitions

* `Access`, `Vm.attempt`: Accesses, and how far the kernel gets with them.
* `Kernel.accesses`, `Kernel.touches`: The accesses of a call.
* `Kernel.Allowed`: What user code may do itself.
* `Kernel.GoodPointers`: The arguments for which a call stays in bounds.

## Theorems

* `attempt_all`: Allowed accesses do not stop the kernel.
* `syscall_ret_faults`: A call that returns has made its loads.
* `touches_allowed_iff`: When every byte a call touches is the caller's.
-/

namespace Jos

/-- A byte the kernel loads or stores through a pointer of the caller. -/
structure Access where
  va : Nat
  write : Bool
  deriving DecidableEq

/-- The accesses to `n` bytes from `va` on. -/
def Access.span (write : Bool) (va n : Nat) : List Access :=
  (List.range n).map fun i => ⟨va + i, write⟩

theorem Access.mem_span (write : Bool) (va n : Nat) (a : Access) :
    a ∈ span write va n ↔ ∃ i < n, a = ⟨va + i, write⟩ := by
  simp only [span, List.mem_map, List.mem_range, eq_comm]

variable {a : Access} {va : Nat}

open Access (mem_span span)

namespace Vm

/-- The access faults: kernel accesses heed `PTE_P` and, with `CR0_WP`, `PTE_W`. -/
def faults (m : Vm) (root : Nat) (a : Access) : Bool :=
  match m.translate root a.va with
  | none => true
  | some (_, w, _) => a.write && !w

/-- User code could make the access itself. -/
def permits (m : Vm) (root : Nat) (a : Access) : Bool :=
  match m.translate root a.va with
  | none => false
  | some (_, w, u) => u && (w || !a.write)

/-- The accesses that are made out of a list of them: a fault is the last. -/
def attempt (m : Vm) (root : Nat) : List Access → List Access
  | [] => []
  | a :: as => a :: if m.faults root a then [] else m.attempt root as

/-- Addresses are translated page by page. -/
theorem translate_page (m : Vm) (root va : Nat) :
    m.translate root (va / pgSize * pgSize) = m.translate root va := by
  have hidx : pml4 (va / pgSize * pgSize) = pml4 va ∧ pdpe (va / pgSize * pgSize) = pdpe va ∧
      pdx (va / pgSize * pgSize) = pdx va ∧ ptx (va / pgSize * pgSize) = ptx va := by
    simp only [pml4, pdpe, pdx, ptx, pgSize]
    omega
  unfold translate
  simp only [hidx]

variable {root : Nat}

theorem permits_not_faults (m : Vm) (h : m.permits root a = true) : m.faults root a = false := by
  unfold permits at h
  unfold faults
  cases htr : m.translate root a.va with
  | none =>
    rw [htr] at h
    cases h
  | some t =>
    rcases t with ⟨e, w, u⟩
    rw [htr] at h
    cases w <;> cases hw : a.write <;> simp_all

/-- Where an allowed access never faults, all accesses that are made are allowed
    exactly when all of them are. -/
theorem attempt_all {m : Vm} {P : Access → Prop} (hP : ∀ a, P a → m.faults root a = false)
    (as : List Access) : (∀ a ∈ m.attempt root as, P a) ↔ ∀ a ∈ as, P a := by
  induction as with
  | nil => rfl
  | cons a as ih =>
    rw [attempt, List.forall_mem_cons, List.forall_mem_cons]
    refine and_congr_right fun ha => ?_
    rw [if_neg (by rw [hP a ha]; decide)]
    exact ih

/-- The first accesses of a span are made if they do not fault. -/
theorem le_takeWhile_span (m : Vm) {n k : Nat} {write : Bool} (hk : k ≤ n)
    (h : ∀ i < k, m.faults root ⟨va + i, write⟩ = false) :
    k ≤ ((span write va n).takeWhile fun a => !m.faults root a).length := by
  have hsplit : span write va n =
      span write va k ++ span write (va + k) (n - k) := by
    have hn : n = k + (n - k) := by omega
    unfold span
    conv_lhs => rw [hn, List.range_add, List.map_append, List.map_map]
    simp only [Function.comp_def, Nat.add_assoc]
  rw [hsplit, List.takeWhile_append_of_pos, List.length_append]
  · have hlen : (span write va k).length = k := by
      rw [span, List.length_map, List.length_range]
    omega
  · intro a ha
    rcases (mem_span write va k a).1 ha with ⟨i, hi, rfl⟩
    rw [h i hi]
    rfl

/-! ## Accesses and loads -/

theorem faults_load (m : Vm) (root va : Nat) :
    m.faults root ⟨va, false⟩ = false ↔ (m.loadByte root va).isSome := by
  unfold faults loadByte
  cases m.translate root va <;> simp

/-- A word is there if all its bytes are. -/
theorem faults_loadBytes (m : Vm) {n : Nat} {w : BitVec 64} (h : m.loadBytes root n va = some w) :
    ∀ i < n, m.faults root ⟨va + i, false⟩ = false := by
  induction n generalizing va w with
  | zero => exact fun i hi => absurd hi (Nat.not_lt_zero i)
  | succ n ih =>
    rcases Option.bind_eq_some_iff.1 h with ⟨b, hb, hrest⟩
    rcases Option.map_eq_some_iff.1 hrest with ⟨w', hw, -⟩
    rintro (_ | i) hi
    · rw [Nat.add_zero, faults_load, hb]
      rfl
    · rw [Nat.add_comm i, ← Nat.add_assoc]
      exact ih hw i (by omega)

end Vm

/-- What succeeds on a list succeeds on its elements. -/
theorem isSome_of_mapM {α β : Type} {f : α → Option β} {xs : List α} {ys : List β}
    (h : xs.mapM f = some ys) : ∀ x ∈ xs, (f x).isSome := by
  induction xs generalizing ys with
  | nil => exact fun x hx => absurd hx List.not_mem_nil
  | cons x xs ih =>
    simp only [List.mapM_cons, bind, Option.bind_eq_some_iff] at h
    rcases h with ⟨y, hy, ys, hys, -⟩
    rw [List.forall_mem_cons]
    exact ⟨by rw [hy]; rfl, ih hys⟩

namespace Kernel

/-! ## The accesses of a call -/

/-- The loads of `memmove` in `e1000_transmit`, with the buffer at `txBuf`. The
    length becomes a `size_t`; the copy goes from the end where the source
    starts before the buffer and ends behind its start. -/
def transmitLoads (txBuf data : Nat) (len : BitVec 32) : List Access :=
  let n := (len.signExtend 64).toNat
  let up := span false data n
  if data < txBuf ∧ txBuf < (data + n) % 2 ^ 64 then up.reverse else up

theorem mem_transmitLoads (txBuf data : Nat) (len : BitVec 32) (a : Access) :
    a ∈ transmitLoads txBuf data len ↔ a ∈ span false data (len.signExtend 64).toNat := by
  unfold transmitLoads
  simp only
  split
  · exact List.mem_reverse
  · rfl

theorem length_transmitLoads (txBuf data : Nat) (len : BitVec 32) :
    (transmitLoads txBuf data len).length = (len.signExtend 64).toNat := by
  unfold transmitLoads span
  simp only
  split <;> simp

/-- An `int` as a `size_t`. -/
theorem toNat_sizeT (len : BitVec 32) :
    (len.signExtend 64).toNat =
      if len.toInt < 0 then 2 ^ 64 - (-len.toInt).toNat else len.toNat := by
  have hext := BitVec.toInt_signExtend_of_le (x := len) (show 32 ≤ 64 by decide)
  have hlt := (len.signExtend 64).isLt
  have hlen := len.isLt
  have hcond := BitVec.toInt_eq_toNat_cond len
  rw [BitVec.toInt_eq_toNat_cond (len.signExtend 64)] at hext
  split at hext <;> split at hcond <;> split <;> omega

/-- `user_mem_check` of `sys_cputs` passes. -/
def printable (s : Kernel) (cur str len : Nat) : Bool :=
  (s.onPml4e cur fun root => s.vm.userMemCheck (s.curRoot cur) root str len 4) == some true

/-- The accesses a call makes through pointers of its caller, in order, if none
    faults. The length that `sys_net_try_receive` stores is loaded again. -/
def accesses (s : Kernel) (txBuf cur : Nat) : Call → List Access
  | .cputs str len =>
    if s.printable cur str len then (s.printLoads cur str len).map fun a => ⟨a, false⟩ else []
  | .envSetTrapframe envid tf =>
    if (s.envid2env cur envid true).isSome then span false tf 192 else []
  | .netTrySend data len =>
    if utop ≤ data ∨ 1518 < len.toInt ∨ s.e1000.txDd s.e1000.tdt = false then []
    else transmitLoads txBuf data len
  | .netTryReceive data len =>
    let d := s.e1000
    let store := span true len 4 ++ span false len 4
    if utop ≤ data then []
    else if d.rcvDd d.rdt then
      if d.rcvEop d.rdt then span true data (d.rcvPkt d.rdt).length ++ store else []
    else store
  | _ => []

/-- The bytes a call touches through pointers of its caller. -/
def touches (s : Kernel) (txBuf cur : Nat) (call : Call) : List Access :=
  s.vm.attempt (s.curRoot cur) (s.accesses txBuf cur call)

/-- How many bytes a call copies into the transmit buffer. -/
def copied (s : Kernel) (txBuf cur : Nat) : Call → Nat
  | .netTrySend data len =>
    ((s.accesses txBuf cur (.netTrySend data len)).takeWhile fun a =>
      !s.vm.faults (s.curRoot cur) a).length
  | _ => 0

/-- The byte is below `ULIM` and mapped for the caller, for writing if it is
    written. -/
def Allowed (s : Kernel) (cur : Nat) (a : Access) : Prop :=
  a.va < ulim ∧ s.vm.permits (s.curRoot cur) a = true

instance (s : Kernel) (cur : Nat) : DecidablePred (s.Allowed cur) := fun _ =>
  inferInstanceAs (Decidable (_ ∧ _))

variable {s : Kernel} {cur : Nat}

theorem Allowed.not_faults (h : s.Allowed cur a) : s.vm.faults (s.curRoot cur) a = false :=
  s.vm.permits_not_faults h.2

/-- What may be written may be read. -/
theorem Allowed.read (h : s.Allowed cur ⟨va, true⟩) : s.Allowed cur ⟨va, false⟩ := by
  refine ⟨h.1, ?_⟩
  have hp := h.2
  unfold Vm.permits at hp ⊢
  simp only at hp ⊢
  split at hp <;> simp_all

/-- A call that only loads touches all the bytes of its list and none of them faults, if it
    returns. -/
theorem syscall_ret_faults {c txBuf : Nat} {call : Call} {n : Int} {s' : Kernel}
    (h : s.syscall c cur call = .ret n s')
    (hload : ∀ a ∈ s.accesses txBuf cur call, a.write = false) :
    ∀ a ∈ s.touches txBuf cur call, s.vm.faults (s.curRoot cur) a = false := by
  unfold touches
  rw [Vm.attempt_all fun _ => id]
  intro a ha
  cases call with
  | cputs str len =>
    rw [accesses, List.mem_ite_nil_right] at ha
    rcases List.mem_map.1 ha.2 with ⟨va, hva, rfl⟩
    have hcheck : s.userMemCheck cur str len 4 = some true := beq_iff_eq.1 ha.1
    simp only [syscall, sysCputs, userMemAssert, hcheck, Lib.Flow.bind] at h
    split at h
    · next hall => exact (s.vm.faults_load _ va).2 (List.all_eq_true.1 hall va hva)
    · cases h
  | envSetTrapframe envid tf =>
    rw [accesses, List.mem_ite_nil_right] at ha
    rcases (mem_span _ _ _ _).1 ha.2 with ⟨i, hi, rfl⟩
    rcases Option.isSome_iff_exists.1 ha.1 with ⟨e, he⟩
    simp only [syscall, sysEnvSetTrapframe, he, Vm.loadTrapframe] at h
    cases hws : (List.range 24).mapM fun i => s.vm.loadBytes (s.curRoot cur) 8 (tf + 8 * i) with
    | none =>
      rw [hws] at h
      cases h
    | some ws =>
      -- byte `i` is in word `i / 8`
      have hword := isSome_of_mapM hws (i / 8) (List.mem_range.2 (by omega))
      rcases Option.isSome_iff_exists.1 hword with ⟨w, hw⟩
      have hbyte := s.vm.faults_loadBytes hw (i % 8) (Nat.mod_lt i (by decide))
      rwa [Nat.add_assoc, Nat.div_add_mod] at hbyte
  | netTrySend data len =>
    rw [accesses, List.mem_ite_nil_left, not_or, not_or, Bool.not_eq_false, mem_transmitLoads,
      mem_span, toNat_sizeT] at ha
    rcases ha with ⟨⟨hdata, hlen, hdd⟩, i, hi, rfl⟩
    simp only [syscall, sysNetTrySend, if_neg hdata, if_neg hlen, hdd, if_true] at h
    by_cases hneg : len.toInt < 0
    · rw [if_pos hneg] at h
      cases h
    · rw [if_neg hneg] at h hi
      split at h
      · cases h
      · next hpkt =>
        exact (s.vm.faults_load _ _).2 (isSome_of_mapM hpkt i (List.mem_range.2 hi))
  | netTryReceive data len =>
    -- unless nothing is touched, the length is stored
    have hstore := hload ⟨len, true⟩
    have hlen : ⟨len, true⟩ ∈ span true len 4 := (mem_span _ _ _ _).2 ⟨0, by decide, rfl⟩
    by_cases hd : utop ≤ data
    · simp [accesses, hd] at ha
    · cases hdd : s.e1000.rcvDd s.e1000.rdt <;> cases heop : s.e1000.rcvEop s.e1000.rdt <;>
        simp [accesses, hd, hdd, heop, hlen] at ha hstore
  | _ => cases ha

/-! ## Bytes and pages -/

/-- Permission is a matter of the page. -/
theorem allowed_page (s : Kernel) (cur va : Nat) (write : Bool) :
    s.Allowed cur ⟨va, write⟩ ↔ s.Allowed cur ⟨va / pgSize * pgSize, write⟩ := by
  unfold Allowed Vm.permits
  simp only [Vm.translate_page]
  refine and_congr_left fun _ => ?_
  simp only [ulim, pgSize]
  omega

/-- Every page with one of the `n` bytes from `va` on is open to the caller. -/
def UserPages (s : Kernel) (cur : Nat) (write : Bool) (va n : Nat) : Prop :=
  ∀ k, va / pgSize ≤ k → k * pgSize < va + n → n ≠ 0 → s.Allowed cur ⟨k * pgSize, write⟩

theorem span_allowed_iff (s : Kernel) (cur : Nat) (write : Bool) (va n : Nat) :
    (∀ a ∈ span write va n, s.Allowed cur a) ↔ s.UserPages cur write va n := by
  constructor
  · intro h k hlo hhi hn
    -- the first byte of the range that is in page `k`
    have hbyte : ∃ i < n, (va + i) / pgSize = k := by
      rcases Nat.lt_or_ge va (k * pgSize) with hlt | hge
      · refine ⟨k * pgSize - va, by omega, ?_⟩
        rw [Nat.add_sub_cancel' hlt.le]
        exact Nat.mul_div_cancel k (by decide)
      · refine ⟨0, by omega, ?_⟩
        have := (Nat.le_div_iff_mul_le (show 0 < pgSize by decide)).2 hge
        rw [Nat.add_zero]
        omega
    rcases hbyte with ⟨i, hi, rfl⟩
    exact (s.allowed_page cur (va + i) write).1
      (h _ ((mem_span write va n _).2 ⟨i, hi, rfl⟩))
  · intro h a ha
    rcases (mem_span write va n a).1 ha with ⟨i, hi, rfl⟩
    refine (s.allowed_page cur (va + i) write).2 (h _ ?_ ?_ (by omega))
    · exact Nat.div_le_div_right (Nat.le_add_right va i)
    · have := Nat.div_mul_le_self (va + i) pgSize
      omega

/-- The string at `str` is open to the caller up to its NUL or, if that comes
    first, up to and including the byte at the precision. -/
def UserString (s : Kernel) (cur str : Nat) (precision : BitVec 32) : Prop :=
  ∀ i, (0 ≤ precision.toInt → i ≤ precision.toNat) →
    (∀ j < i, s.vm.loadByte (s.curRoot cur) (str + j) ≠ some 0) → s.Allowed cur ⟨str + i, false⟩

/-- The bytes of a string that are loaded are allowed exactly when all are to
    which no NUL and no limit `n` cuts off the way. -/
theorem stringLoads_allowed_iff (s : Kernel) (cur n : Nat) :
    ∀ va, (∀ a ∈ s.vm.stringLoads (s.curRoot cur) n va, s.Allowed cur ⟨a, false⟩) ↔
      ∀ i < n, (∀ j < i, s.vm.loadByte (s.curRoot cur) (va + j) ≠ some 0) →
        s.Allowed cur ⟨va + i, false⟩ := by
  induction n with
  | zero =>
    intro va
    simp [Vm.stringLoads]
  | succ n ih =>
    intro va
    rw [Vm.stringLoads, List.forall_mem_cons]
    constructor
    · rintro ⟨hhead, hrest⟩ i hi hnul
      cases i with
      | zero => exact hhead
      | succ i =>
        -- the first byte is there and not NUL, so that the loop goes on
        have hsome := (s.vm.faults_load _ va).1 hhead.not_faults
        rcases Option.isSome_iff_exists.1 hsome with ⟨b, hb⟩
        have hb0 : b ≠ 0 := by
          rintro rfl
          exact hnul 0 (by omega) hb
        simp only [hb, if_neg hb0] at hrest
        have := (ih (va + 1)).1 hrest i (by omega) (fun j hj => by
          rw [Nat.add_assoc, Nat.add_comm 1 j]
          exact hnul (j + 1) (by omega))
        rwa [Nat.add_assoc, Nat.add_comm 1 i] at this
    · intro h
      refine ⟨h 0 (by omega) (fun j hj => absurd hj (Nat.not_lt_zero j)), ?_⟩
      split
      · exact fun a ha => absurd ha List.not_mem_nil
      · rename_i b hb
        split
        · exact fun a ha => absurd ha List.not_mem_nil
        · rename_i hb0
          refine (ih (va + 1)).2 fun i hi hnul => ?_
          have := h (i + 1) (by omega) (fun j hj => ?_)
          · rwa [Nat.add_assoc, Nat.add_comm 1 i]
          · cases j with
            | zero =>
              rw [Nat.add_zero, hb]
              simpa using hb0
            | succ j =>
              have := hnul j (by omega)
              rwa [Nat.add_assoc, Nat.add_comm 1 j] at this

theorem printLoads_allowed_iff (s : Kernel) {str : Nat} (cur len : Nat) (hstr : str ≠ 0) :
    (∀ a ∈ s.printLoads cur str len, s.Allowed cur ⟨a, false⟩) ↔
      s.UserString cur str (BitVec.ofNat 32 len) := by
  unfold printLoads UserString
  simp only [if_neg hstr]
  rw [stringLoads_allowed_iff]
  by_cases hneg : (BitVec.ofNat 32 len).toInt < 0
  · rw [if_pos hneg]
    constructor
    · intro h i _ hnul
      by_cases hi : i < 2 ^ 64
      · exact h i hi hnul
      · -- a string without a NUL would have led past `ULIM`
        have hfar := (h ulim (by decide) fun j hj => hnul j (by
          simp only [ulim] at hj
          omega)).1
        simp only at hfar
        omega
    · intro h i _ hnul
      exact h i (fun hge => by omega) hnul
  · rw [if_neg hneg]
    constructor
    · intro h i hle hnul
      exact h i (by have := hle (by omega); omega) hnul
    · intro h i hlt hnul
      exact h i (fun _ => by omega) hnul

/-! ## The discipline -/

/-- The pointers the call follows lead to pages of the caller: what
    `user_mem_check` would have to make sure of for each of them. -/
def GoodPointers (s : Kernel) (cur : Nat) : Call → Prop
  | .cputs str len =>
    s.printable cur str len = true → str ≠ 0 → s.UserString cur str (BitVec.ofNat 32 len)
  | .envSetTrapframe envid tf =>
    (s.envid2env cur envid true).isSome → s.UserPages cur false tf 192
  | .netTrySend data len =>
    data < utop → len.toInt ≤ 1518 → s.e1000.txDd s.e1000.tdt = true →
      0 ≤ len.toInt ∧ s.UserPages cur false data len.toNat
  | .netTryReceive data len =>
    data < utop →
      (s.e1000.rcvDd s.e1000.rdt = true → s.e1000.rcvEop s.e1000.rdt = true →
        s.UserPages cur true data (s.e1000.rcvPkt s.e1000.rdt).length) ∧
      ((s.e1000.rcvDd s.e1000.rdt = true → s.e1000.rcvEop s.e1000.rdt = true) →
        s.UserPages cur true len 4)
  | _ => True

theorem transmit_allowed_iff (s : Kernel) {data : Nat} (txBuf cur : Nat) (len : BitVec 32)
    (hdata : data < utop) :
    (∀ a ∈ transmitLoads txBuf data len, s.Allowed cur a) ↔
      0 ≤ len.toInt ∧ s.UserPages cur false data len.toNat := by
  simp only [mem_transmitLoads, toNat_sizeT]
  by_cases hneg : len.toInt < 0
  · rw [if_pos hneg]
    constructor
    · -- the copy would have to pass `ULIM`
      intro h
      have hlow : (-len.toInt).toNat ≤ 2 ^ 31 := by
        have := len.le_toInt
        omega
      have hfar := (h ⟨ulim, false⟩ ((mem_span _ _ _ _).2
        ⟨ulim - data, by simp only [utop] at hdata; simp only [ulim]; omega, by
          simp only [utop] at hdata
          simp only [ulim, Access.mk.injEq, and_true]
          omega⟩)).1
      exact absurd hfar (Nat.lt_irrefl _)
    · rintro ⟨hpos, _⟩
      omega
  · rw [if_neg hneg, span_allowed_iff]
    exact ⟨fun h => ⟨by omega, h⟩, fun h => h.2⟩

theorem store_allowed_iff (s : Kernel) (cur len : Nat) :
    (∀ a ∈ span true len 4 ++ span false len 4, s.Allowed cur a) ↔
      s.UserPages cur true len 4 := by
  rw [← span_allowed_iff]
  constructor
  · exact fun h a ha => h a (List.mem_append_left _ ha)
  · intro h a ha
    rcases List.mem_append.1 ha with ha | ha
    · exact h a ha
    · rcases (mem_span _ _ _ a).1 ha with ⟨i, hi, rfl⟩
      exact (h _ ((mem_span _ _ _ _).2 ⟨i, hi, rfl⟩)).read

/-- Every byte that a call touches through a pointer of its caller is one the
    caller may touch itself, and at most `TX_PKT_SIZE` bytes go into a transmit
    buffer, exactly when the pointers are good. -/
theorem touches_allowed_iff (s : Kernel) (txBuf cur : Nat) (call : Call) :
    (∀ a ∈ s.touches txBuf cur call, s.Allowed cur a) ∧ s.copied txBuf cur call ≤ 1518 ↔
      s.GoodPointers cur call := by
  unfold touches
  rw [Vm.attempt_all fun a ha => ha.not_faults]
  cases call with
  | cputs str len =>
    simp only [accesses, copied, GoodPointers, Nat.zero_le, and_true]
    by_cases hcheck : s.printable cur str len = true
    · rw [if_pos hcheck, List.forall_mem_map]
      by_cases hstr : str = 0
      · simp [hstr, printLoads]
      · rw [printLoads_allowed_iff s cur len hstr]
        exact ⟨fun h _ _ => h, fun h => h hcheck hstr⟩
    · rw [if_neg hcheck]
      exact ⟨fun _ h => absurd h hcheck, fun _ a ha => absurd ha List.not_mem_nil⟩
  | envSetTrapframe envid tf =>
    simp only [accesses, copied, GoodPointers, Nat.zero_le, and_true]
    split
    · rename_i he
      rw [span_allowed_iff]
      exact ⟨fun h _ => h, fun h => h he⟩
    · rename_i he
      exact ⟨fun _ h => absurd h he, fun _ a ha => absurd ha List.not_mem_nil⟩
  | netTrySend data len =>
    simp only [copied, accesses, GoodPointers]
    split
    · rename_i hnone
      simp only [List.takeWhile_nil, List.length_nil]
      refine ⟨fun _ hd hl hdd => ?_, fun _ => ⟨fun a ha => absurd ha List.not_mem_nil, by omega⟩⟩
      rcases hnone with h | h | h
      · omega
      · omega
      · rw [h] at hdd
        cases hdd
    · rename_i hsend
      rw [not_or, not_or, Bool.not_eq_false, Nat.not_le] at hsend
      rcases hsend with ⟨hdata, hlen, hdd⟩
      rw [transmit_allowed_iff s txBuf cur len hdata]
      constructor
      · exact fun h _ _ _ => h.1
      · intro h
        have hgood := h hdata (by omega) hdd
        refine ⟨hgood, ?_⟩
        -- the copy is as long as the length says, which was compared
        have hsub : List.Sublist ((transmitLoads txBuf data len).takeWhile fun a =>
          !s.vm.faults (s.curRoot cur) a) _ := List.takeWhile_sublist _
        have hle := hsub.length_le
        rw [length_transmitLoads, toNat_sizeT, if_neg (by omega)] at hle
        have hpos := BitVec.toInt_eq_toNat_cond len
        split at hpos <;> omega
  | netTryReceive data len =>
    simp only [accesses, copied, GoodPointers, Nat.zero_le, and_true]
    by_cases hd : utop ≤ data
    · rw [if_pos hd]
      exact ⟨fun _ h => by omega, fun _ a ha => absurd ha List.not_mem_nil⟩
    · simp only [if_neg hd, Nat.not_le.1 hd, true_imp_iff]
      cases hdd : s.e1000.rcvDd s.e1000.rdt <;> cases heop : s.e1000.rcvEop s.e1000.rdt <;>
        simp only [Bool.false_eq_true, if_true, if_false, true_imp_iff, false_imp_iff, true_and,
          store_allowed_iff]
      · exact ⟨fun _ => trivial, fun _ a ha => absurd ha List.not_mem_nil⟩
      · rw [List.forall_mem_append, store_allowed_iff, span_allowed_iff]
  | _ => simp [accesses, copied, GoodPointers]

/-- An environment with a page at `UTEXT`, below a kernel page at `KERNBASE`. -/
def oneUserPage : Kernel :=
  let m : Vm := {
    npages := 16
    ppRef := fun _ => 0
    pageFreeList := []
    mem := fun p i =>
      if p = 1 ∧ i = 0 then page2pa 2 ||| 7
      else if p = 2 ∧ i = pdpe utext then page2pa 3 ||| 7
      else if p = 3 ∧ i = pdx utext then page2pa 4 ||| 7
      else if p = 4 ∧ i = ptx utext then page2pa 5 ||| 7
      else if p = 2 ∧ i = pdpe kernbase then page2pa 6 ||| 7
      else if p = 6 ∧ i = pdx kernbase then page2pa 7 ||| 7
      else if p = 7 ∧ i = ptx kernbase then page2pa 8 ||| 3
      else 0 }
  (Kernel.envInit m 1).setEnv 0
    { envId := 4096, envStatus := .running, envPml4e := some 1, envCr3 := 1 }

/-- A string whose end wraps around passes the check and is printed from kernel
    memory, a frame is taken from there, a length is written there, and a packet
    of length -1 overruns the transmit buffer. -/
theorem touches_not_allowed :
    (∃ a ∈ oneUserPage.touches 0xf0200000 0 (.cputs kernbase (2 ^ 64 - kernbase)),
      ¬oneUserPage.Allowed 0 a) ∧
    (∃ a ∈ oneUserPage.touches 0xf0200000 0 (.envSetTrapframe 0 kernbase),
      ¬oneUserPage.Allowed 0 a) ∧
    (∃ a ∈ oneUserPage.touches 0xf0200000 0 (.netTryReceive utext kernbase),
      a.write = true ∧ ¬oneUserPage.Allowed 0 a) ∧
    1518 < oneUserPage.copied 0xf0200000 0 (.netTrySend utext (-1)) := by
  refine ⟨by decide, by decide +kernel, by decide +kernel, ?_⟩
  have hload : ∀ i < 1519, oneUserPage.vm.faults 1 ⟨utext + i, false⟩ = false := by
    intro i hi
    have hpage : (utext + i) / pgSize * pgSize = utext := by
      simp only [utext, pgSize]
      omega
    unfold Vm.faults
    simp only [← Vm.translate_page _ _ (utext + i), hpage]
    rfl
  have hup : oneUserPage.accesses 0xf0200000 0 (.netTrySend utext (-1)) =
      span false utext (2 ^ 64 - 1) := by
    simp only [accesses, transmitLoads]
    rw [if_neg (by decide), if_neg (by decide)]
    rfl
  simp only [copied, hup]
  exact oneUserPage.vm.le_takeWhile_span (by decide) hload

end Kernel
end Jos
