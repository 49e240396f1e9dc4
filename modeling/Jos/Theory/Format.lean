import Jos.Core.Fsformat
import Jos.Theory.FileIo

/-!
# The Image of a Formatted Disk

`fsformat` and the file server know the format of the disk each for itself. Here
the image is described in the terms of the server: what the slots of the root
directory and of every file are, where the bytes of the files are, and which
blocks are free.

## Main definitions

* `blocks`, `extent`, `startOf`: How many blocks a file takes, and which.
* `Laid`: A file as `writefile` leaves it.
* `Fresh`: What the program has not used so far is blank.
* `Image`: The disk at the end.

## Theorems

* `writefile_spec`, `writefiles_spec`: The files one after the other.
* `fsformat_image`: What the program makes.
-/

namespace Jos.Fs

open Lib.Bytes (load store storeList load_lt store_off load_store_off load_store_at load_same
  load_zero load_moved storeList_off load_storeList_at)
open BitVec (ofNat toNat_ofNat toNat_sub toNat_umod)

namespace Format

variable {s s' : Format} {m : Mem} {f start n : Nat} {base data : List (BitVec 8)}

/-! ## Rounding -/

theorem heap_eq : heap = 4294967296 := rfl

theorem toNat_roundup (n : Nat) (h : n < 2 ^ 31) :
    (roundup (ofNat 32 n)).toNat = 4096 * ((n + 4095) / 4096) := by
  by_cases h0 : n = 0
  · rw [h0]
    rfl
  · have h1 : (ofNat 32 n - 1#32).toNat = n - 1 := by
      rw [toNat_sub, toNat_ofNat, toNat_ofNat]
      omega
    unfold roundup
    rw [toNat_sub, BitVec.toNat_add, toNat_umod, h1, toNat_ofNat]
    rw [show 4096 % 2 ^ 32 = 4096 from rfl]
    omega

/-- The two roundings agree on positive numbers. -/
theorem roundupInt_eq (n : Nat) (h0 : 0 < n) (h : n < 2 ^ 31) :
    roundupInt (ofNat 32 n) = roundup (ofNat 32 n) := by
  have h1 : (ofNat 32 n - 1#32).toNat = n - 1 := by
    rw [toNat_sub, toNat_ofNat, toNat_ofNat]
    omega
  have hrem : (ofNat 32 n - 1#32).srem 4096#32 = (ofNat 32 n - 1#32) % 4096#32 := by
    apply BitVec.eq_of_toNat_eq
    rw [toNat_srem _ (by omega), toNat_umod]
    rfl
  unfold roundupInt roundup
  rw [hrem]

/-- The number of blocks for the bytes of a file. -/
def blocks (data : List (BitVec 8)) : Nat := (data.length + 4095) / 4096

/-- The blocks that a file takes, with its indirect block. -/
def extent (data : List (BitVec 8)) : Nat := blocks data + if 10 ≤ blocks data then 1 else 0

theorem alloc_eq_some {bytes : BitVec 32} {a : Nat} (h : alloc s bytes = some (a, s')) :
    a = s.diskpos ∧ s' = { s with diskpos := s.diskpos + (roundup bytes).toNat } ∧
      (s.diskpos + (roundup bytes).toNat) / 4096 < s.nblocks := by
  simp only [alloc] at h
  split at h
  · cases h
  · next hlt =>
    rw [Option.some.injEq, Prod.mk.injEq] at h
    exact ⟨h.1.symm, h.2.symm, Nat.lt_of_not_le hlt⟩

/-! ## One file -/

/-- The file with its structure at `f` and its blocks from `start` on, as
    `writefile` leaves it. -/
structure Laid (m : Mem) (f : Nat) (base data : List (BitVec 8)) (start : Nat) : Prop where
  name : ∀ t < base.length, m (f + t) = base.getD t 0
  nul : m (f + base.length) = 0
  size : fSize m f = ofNat 32 data.length
  type : fType m f = 0
  direct : ∀ k < 10, load m 4 (f + 136 + 4 * k) = if k < blocks data then start + k else 0
  indirect : fIndirect m f = if 10 ≤ blocks data then start + blocks data else 0
  far : 10 ≤ blocks data → ∀ t < 1024, load m 4 (4096 * (start + blocks data) + 4 * t) =
    if 10 + t < blocks data then start + (10 + t) else 0
  bytes : ∀ q < 4096 * blocks data, m (4096 * start + q) = data.getD q 0

/-- The structure may be moved, as `finishdir` does it. -/
theorem Laid.move {m' : Mem} {f' : Nat} (h : Laid m f base data start) (hbase : base.length < 128)
    (hf : ∀ t < 256, m' (f' + t) = m (f + t))
    (hblocks : ∀ a, 4096 * start ≤ a → a < 4096 * (start + extent data) → m' a = m a) :
    Laid m' f' base data start := by
  have hload : ∀ o, o + 4 ≤ 256 → load m' 4 (f' + o) = load m 4 (f + o) := by
    intro o ho
    refine load_moved m m' 4 _ _ fun i hi => ?_
    rw [Nat.add_assoc, Nat.add_assoc]
    exact hf (o + i) (by omega)
  have hext : extent data = blocks data + if 10 ≤ blocks data then 1 else 0 := rfl
  refine ⟨?_, ?_, ?_, ?_, ?_, ?_, ?_, ?_⟩
  · intro t ht
    rw [hf t (by omega)]
    exact h.name t ht
  · rw [hf _ (by omega)]
    exact h.nul
  · rw [← h.size]
    unfold fSize
    rw [hload 128 (by omega)]
  · rw [← h.type]
    exact hload 132 (by omega)
  · intro k hk
    rw [← h.direct k hk, Nat.add_assoc f', Nat.add_assoc f]
    exact hload _ (by omega)
  · rw [← h.indirect]
    exact hload 176 (by omega)
  · intro hten t ht
    rw [← h.far hten t ht]
    rw [if_pos hten] at hext
    refine load_same m ?_
    intro a hlo hhi
    exact hblocks a (by omega) (by rw [hext]; omega)
  · intro q hq
    rw [← h.bytes q hq]
    refine hblocks _ (by omega) ?_
    unfold extent
    omega

/-- The slots of a file. -/
theorem Laid.slots (h : Laid m f base data start) (k : Nat) (hk : k ≤ 1034) :
    slot m f k = if k = 1034 then (if 10 ≤ blocks data then start + blocks data else 0)
      else if k < blocks data then start + k else 0 := by
  by_cases h1 : k < 10
  · rw [slot_direct m f h1, h.direct k h1, if_neg (show k ≠ 1034 by omega)]
  · by_cases h2 : k = 1034
    · rw [if_pos h2, h2, slot_indirect, h.indirect]
    · rw [if_neg h2]
      have hi := h.indirect
      by_cases hten : 10 ≤ blocks data
      · rw [if_pos hten] at hi
        have hne : fIndirect m f ≠ 0 := by omega
        rw [slot_far (by omega) (by omega) hne, hi, Nat.mul_comm,
          h.far hten (k - 10) (by omega)]
        rw [show 10 + (k - 10) = k by omega]
      · rw [if_neg hten] at hi
        rw [slot_none (by omega) (by omega) hi, if_neg (by omega)]

theorem copy_off {x a : Nat} (h : ¬(a ≤ x ∧ x < a + data.length)) : copy m a data x = m x :=
  if_neg h

theorem copy_at {a q : Nat} (h : q < data.length) : copy m a data (a + q) = data.getD q 0 := by
  unfold copy
  rw [if_pos (by omega), Nat.add_sub_cancel_left]

theorem numbers_off (m : Mem) (n a : Nat) {g : Nat → Nat} {x : Nat} (h : x < a ∨ a + 4 * n ≤ x) :
    storeList m 4 a ((List.range n).map g) x = m x := by
  refine storeList_off m 4 a x _ ?_
  rwa [List.length_map, List.length_range]

/-- Numbers that a loop has stored in a row. -/
theorem load_numbers (m : Mem) {n : Nat} (a : Nat) {g : Nat → Nat} {k : Nat}
    (hlt : k < n → g k < 2 ^ 32) :
    load (storeList m 4 a ((List.range n).map g)) 4 (a + 4 * k) =
      if k < n then g k else load m 4 (a + 4 * k) := by
  by_cases hk : k < n
  · rw [if_pos hk, load_storeList_at m 4 a k (g k),
      Nat.mod_eq_of_lt (show g k < 256 ^ 4 from hlt hk)]
    rw [List.getElem?_map, List.getElem?_range hk]
    rfl
  · rw [if_neg hk]
    exact load_same m fun x hlo hhi => numbers_off m n a (.inr (by omega))

/-- The structure of a file of `c` blocks from `start` on with its size and its
    direct slots. -/
structure Headed (m m' : Mem) (f start c : Nat) (size : BitVec 32) : Prop where
  size : fSize m' f = size
  direct : ∀ k < 10, load m' 4 (f + 136 + 4 * k) = if k < c then start + k else 0
  indirect : fIndirect m' f = 0
  frame : ∀ a, ¬(f + 128 ≤ a ∧ a < f + 132) → ¬(f + 136 ≤ a ∧ a < f + 176) → m' a = m a

theorem headed_store {c : Nat} (size : BitVec 32) (hstart : start + 1034 < 2 ^ 32)
    (hslots : ∀ a, f + 136 ≤ a → a < f + 180 → m a = 0) :
    Headed m (storeList (setSize m f size) 4 (f + 136)
      ((List.range (min c 10)).map fun i => start + i)) f start c size := by
  have hsize : ∀ a, ¬(f + 128 ≤ a ∧ a < f + 132) → setSize m f size a = m a :=
    fun a ha => store_off m _ (by omega)
  have hzero : ∀ k < 11, load (setSize m f size) 4 (f + 136 + 4 * k) = 0 := by
    intro k hk
    refine load_zero _ fun a hlo hhi => ?_
    rw [hsize a (by omega)]
    exact hslots a (by omega) (by omega)
  refine ⟨?_, ?_, ?_, ?_⟩
  · refine Eq.trans ?_ (fSize_setSize m f size)
    exact congrArg (ofNat 32) (load_same (setSize m f size) fun a hlo hhi =>
      numbers_off _ _ _ (by omega))
  · intro k hk
    rw [load_numbers _ _ (fun _ => by omega), hzero k (by omega)]
    by_cases hkc : k < c
    · rw [if_pos (by omega), if_pos hkc]
    · rw [if_neg (by omega), if_neg hkc]
  · exact (load_same (setSize m f size) fun a hlo hhi => numbers_off _ _ _ (by omega)).trans
      (hzero 10 (by omega))
  · intro a h1 h2
    rw [numbers_off _ _ _ (by omega), hsize a h1]

/-- The block at `pos` is the indirect block of the file, with the numbers from
    the tenth on. -/
structure Linked (m m' : Mem) (f start c pos : Nat) : Prop where
  indirect : fIndirect m' f = pos / 4096
  far : ∀ t < 1024, load m' 4 (pos + 4 * t) = if 10 + t < c then start + (10 + t) else 0
  frame : ∀ a, ¬(f + 176 ≤ a ∧ a < f + 180) → ¬(pos ≤ a ∧ a < pos + 4096) → m' a = m a

theorem linked_store {c pos : Nat} (hc : c ≤ 1034) (hstart : start + 1034 < 2 ^ 32)
    (hpos : pos / 4096 < 2 ^ 32) (hblank : ∀ a, pos ≤ a → a < pos + 4096 → m a = 0)
    (hoff : f + 256 ≤ pos ∨ pos + 4096 ≤ f) :
    Linked m (storeList (setIndirect m f (blockof pos)) 4 pos
      ((List.range (c - 10)).map fun i => start + (10 + i))) f start c pos := by
  have hind : ∀ a, ¬(f + 176 ≤ a ∧ a < f + 180) → setIndirect m f (blockof pos) a = m a :=
    fun a ha => store_off m _ (by omega)
  refine ⟨?_, ?_, ?_⟩
  · refine (load_same (setIndirect m f (blockof pos)) fun a hlo hhi =>
      numbers_off _ _ _ (by omega)).trans ?_
    unfold setIndirect
    rw [load_store_at]
    exact Nat.mod_eq_of_lt hpos
  · intro t ht
    have hzero : load (setIndirect m f (blockof pos)) 4 (pos + 4 * t) = 0 := by
      refine load_zero _ fun a hlo hhi => ?_
      rw [hind a (by omega)]
      exact hblank a (by omega) (by omega)
    rw [load_numbers _ _ (fun _ => by omega), hzero]
    by_cases htc : 10 + t < c
    · rw [if_pos (by omega), if_pos htc]
    · rw [if_neg (by omega), if_neg htc]
  · intro a h1 h2
    rw [numbers_off _ _ _ (by omega), hind a h1]

/-- What `finishfile` does for a file of `c` blocks from `start` on: a file of ten
    blocks or more gets the next block of the disk as its indirect block. -/
structure Finished (s s' : Format) (f start c : Nat) (size : BitVec 32) : Prop where
  nblocks : s'.nblocks = s.nblocks
  super : s'.super = s.super
  bitmap : s'.bitmap = s.bitmap
  pos : s'.diskpos = s.diskpos + if 10 ≤ c then 4096 else 0
  room : 10 ≤ c → s'.diskpos / 4096 < s.nblocks
  size : fSize s'.mem f = size
  direct : ∀ k < 10, load s'.mem 4 (f + 136 + 4 * k) = if k < c then start + k else 0
  indirect : fIndirect s'.mem f = if 10 ≤ c then s.diskpos / 4096 else 0
  far : 10 ≤ c → ∀ t < 1024, load s'.mem 4 (s.diskpos + 4 * t) =
    if 10 + t < c then start + (10 + t) else 0
  frame : ∀ a, ¬(f + 128 ≤ a ∧ a < f + 132) → ¬(f + 136 ≤ a ∧ a < f + 180) →
    ¬(10 ≤ c ∧ s.diskpos ≤ a ∧ a < s.diskpos + 4096) → s'.mem a = s.mem a

theorem finishfile_spec {len : Nat} (hlen : len ≤ 1034 * 4096) (hstart : start + 1034 < 2 ^ 32)
    (hpos : s.diskpos / 4096 < 2 ^ 32) (hslots : ∀ a, f + 136 ≤ a → a < f + 180 → s.mem a = 0)
    (hnext : ∀ a, s.diskpos ≤ a → a < s.diskpos + 4096 → s.mem a = 0)
    (hoff : f + 256 ≤ s.diskpos ∨ s.diskpos + 4096 ≤ f)
    (h : finishfile s f start (ofNat 32 len) = some s') :
    Finished s s' f start ((len + 4095) / 4096) (ofNat 32 len) := by
  have hn : (roundup (ofNat 32 len)).toNat / 4096 = (len + 4095) / 4096 := by
    rw [toNat_roundup len (by omega)]
    omega
  have hc : (len + 4095) / 4096 ≤ 1034 := by omega
  simp only [finishfile, hn] at h
  generalize (len + 4095) / 4096 = c at h hc ⊢
  have hhead := headed_store (c := c) (ofNat 32 len) hstart hslots
  generalize storeList (setSize s.mem f (ofNat 32 len)) 4 (f + 136)
    ((List.range (min c 10)).map fun i => start + i) = m1 at h hhead
  by_cases hten : 10 ≤ c
  · -- the next block of the disk is blank, and it is not where the structure is
    rw [if_pos (by omega)] at h
    rcases Option.map_eq_some_iff.1 h with ⟨⟨ind, s1⟩, halloc, rfl⟩
    rcases alloc_eq_some halloc with ⟨rfl, rfl, hroom⟩
    have hr : (roundup 4096).toNat = 4096 := by decide
    have hblank : ∀ a, s.diskpos ≤ a → a < s.diskpos + 4096 → m1 a = 0 := by
      intro a hlo hhi
      rw [hhead.frame a (by omega) (by omega)]
      exact hnext a hlo hhi
    have hlink := linked_store hc hstart hpos hblank hoff
    simp only [setMem]
    generalize storeList (setIndirect m1 f (blockof s.diskpos)) 4 s.diskpos
      ((List.range (c - 10)).map fun i => start + (10 + i)) = m2 at hlink ⊢
    refine ⟨rfl, rfl, rfl, ?_, fun _ => hroom, ?_, ?_, ?_, fun _ => hlink.far, ?_⟩
    · rw [if_pos hten, hr]
    · rw [← hhead.size]
      refine congrArg _ (load_same m1 fun a hlo hhi => ?_)
      exact hlink.frame a (by omega) (by omega)
    · intro k hk
      rw [← hhead.direct k hk]
      exact load_same m1 fun a hlo hhi => hlink.frame a (by omega) (by omega)
    · rw [if_pos hten]
      exact hlink.indirect
    · intro a h1 h2 h3
      exact (hlink.frame a (by omega) (by omega)).trans (hhead.frame a h1 (by omega))
  · rw [if_neg (by omega)] at h
    cases h
    refine ⟨rfl, rfl, rfl, ?_, fun hc' => absurd hc' hten, hhead.size, hhead.direct, ?_,
      fun hc' => absurd hc' hten, ?_⟩
    · rw [if_neg hten]
      rfl
    · rw [if_neg hten]
      exact hhead.indirect
    · intro a h1 h2 _
      exact hhead.frame a h1 (by omega)

/-- The disk from the position on and the directory from entry `n` on are blank. -/
structure Fresh (s : Format) (n : Nat) : Prop where
  disk : ∀ a, s.diskpos ≤ a → a < heap → s.mem a = 0
  ents : ∀ a, heap + 256 * n ≤ a → s.mem a = 0
  aligned : s.diskpos = 4096 * (s.diskpos / 4096)
  room : s.diskpos / 4096 < s.nblocks
  small : s.nblocks ≤ 10240

/-- What `writefile` does: the file is entry `n` of the directory, and its blocks
    are the next ones of the disk. -/
structure Written (s s' : Format) (n : Nat) (file : Input) : Prop where
  laid : Laid s'.mem (heap + 256 * n) (last file.name) file.data (s.diskpos / 4096)
  pos : s'.diskpos = 4096 * (s.diskpos / 4096 + extent file.data)
  nblocks : s'.nblocks = s.nblocks
  super : s'.super = s.super
  bitmap : s'.bitmap = s.bitmap
  fresh : Fresh s' (n + 1)
  frame : ∀ a, ¬(heap + 256 * n ≤ a ∧ a < heap + 256 * (n + 1)) →
    ¬(s.diskpos ≤ a ∧ a < s'.diskpos) → s'.mem a = s.mem a

/-- The name and the type of an entry, as `diradd` leaves them. -/
structure Named (m : Mem) (f : Nat) (base : List (BitVec 8)) : Prop where
  name : ∀ t < base.length, m (f + t) = base.getD t 0
  nul : m (f + base.length) = 0
  type : fType m f = 0

theorem diradd_spec {f : Nat} (hbase : base.length < 128) (h : diradd s n 0 base = some (f, s')) :
    n < 128 ∧ f = heap + 256 * n ∧ ∃ m', s' = s.setMem m' ∧ Named m' f base ∧
      ∀ a, ¬(f ≤ a ∧ a < f + 136) → m' a = s.mem a := by
  simp only [diradd] at h
  split at h
  · cases h
  next hn =>
  cases h
  have hlen : (base ++ [0]).length = base.length + 1 := List.length_append
  have hstr : ∀ t ≤ base.length, store (copy s.mem (heap + 256 * n) (base ++ [0])) 4
      (heap + 256 * n + 132) 0 (heap + 256 * n + t) = (base ++ [0]).getD t 0 := by
    intro t ht
    rw [store_off _ _ (by omega), copy_at (by omega)]
  refine ⟨by omega, rfl, _, rfl, ⟨?_, ?_, ?_⟩, ?_⟩
  · intro t ht
    rw [hstr t (by omega), List.getD_eq_getElem?_getD, List.getElem?_append_left ht,
      ← List.getD_eq_getElem?_getD]
  · rw [hstr _ le_rfl, List.getD_eq_getElem?_getD, List.getElem?_append_right le_rfl, Nat.sub_self]
    rfl
  · exact (load_store_at _ _ _ _).trans rfl
  · intro a ha
    rw [store_off _ _ (by omega), copy_off (by omega)]

/-- A file whose name and bytes are in place is laid once `finishfile` is done. -/
theorem Finished.laid (hf : Finished s s' f start (blocks data) (ofNat 32 data.length))
    (hnamed : Named s.mem f base) (hbase : base.length < 128)
    (hpos : s.diskpos = 4096 * (start + blocks data)) (hoff : s.diskpos + 4096 ≤ f)
    (hbytes : ∀ q < 4096 * blocks data, s.mem (4096 * start + q) = data.getD q 0) :
    Laid s'.mem f base data start := by
  have hblock : s.diskpos / 4096 = start + blocks data := by omega
  refine ⟨?_, ?_, hf.size, ?_, hf.direct, ?_, ?_, ?_⟩
  · intro t ht
    rw [hf.frame _ (by omega) (by omega) (by omega)]
    exact hnamed.name t ht
  · rw [hf.frame _ (by omega) (by omega) (by omega)]
    exact hnamed.nul
  · rw [← hnamed.type]
    exact load_same s.mem fun a hlo hhi => hf.frame a (by omega) (by omega) (by omega)
  · rw [hf.indirect, hblock]
  · intro hten t ht
    rw [← hpos]
    exact hf.far hten t ht
  · intro q hq
    rw [hf.frame _ (by omega) (by omega) (by omega)]
    exact hbytes q hq

theorem writefile_spec {file : Input} (hs : Fresh s n) (hname : (last file.name).length < 128)
    (h : writefile s n file = some s') :
    n < 128 ∧ file.data.length < 1034 * 4096 ∧ Written s s' n file := by
  have hheap := heap_eq
  have haligned := hs.aligned
  have hroom := hs.room
  have hsmall := hs.small
  simp only [writefile] at h
  split at h
  · cases h
  next hlen =>
  rw [Option.bind_eq_some_iff] at h
  rcases h with ⟨⟨f, s1⟩, hadd, h⟩
  rcases diradd_spec hname hadd with ⟨hn, rfl, m1, rfl, hnamed, hentry⟩
  rw [Option.bind_eq_some_iff] at h
  rcases h with ⟨⟨start, s1⟩, halloc, hfin⟩
  rcases alloc_eq_some halloc with ⟨rfl, rfl, hroom1⟩
  rw [toNat_roundup _ (by omega)] at hroom1 hfin
  simp only [setMem, blockof] at hroom1 hfin
  have hnum : (file.data.length + 4095) / 4096 = blocks file.data := rfl
  rw [hnum] at hroom1 hfin
  have hcount : blocks file.data ≤ 1034 := by
    unfold blocks
    omega
  have hfits : file.data.length ≤ 4096 * blocks file.data := by
    unfold blocks
    omega
  -- the bytes of the file are in blank blocks, behind which there are zeros
  have hdata : ∀ a, ¬(s.diskpos ≤ a ∧ a < s.diskpos + 4096 * blocks file.data) →
      copy m1 s.diskpos file.data a = m1 a :=
    fun a ha => copy_off (by omega)
  have hbytes : ∀ q < 4096 * blocks file.data,
      copy m1 s.diskpos file.data (s.diskpos + q) = file.data.getD q 0 := by
    intro q hq
    by_cases hin : q < file.data.length
    · exact copy_at hin
    · rw [copy_off (by omega), hentry _ (by omega), hs.disk _ (by omega) (by omega),
        List.getD_eq_getElem?_getD, List.getElem?_eq_none (by omega)]
      rfl
  generalize copy m1 s.diskpos file.data = m2 at *
  have hf := finishfile_spec (by omega) (by omega) (by simp only; omega) ?_ ?_
    (by simp only; omega) hfin
  · rw [hnum] at hf
    have hpos := hf.pos
    have hmore := hf.room
    have hframe := hf.frame
    simp only at hpos hmore hframe
    have hend : s'.diskpos = 4096 * (s.diskpos / 4096 + extent file.data) := by
      rw [hpos]
      unfold extent
      split <;> omega
    have hout : ∀ a, ¬(heap + 256 * n ≤ a ∧ a < heap + 256 * (n + 1)) →
        ¬(s.diskpos ≤ a ∧ a < s'.diskpos) → s'.mem a = s.mem a := by
      intro a h1 h2
      rw [hpos] at h2
      rw [hframe a (by omega) (by omega) ?_, hdata a (by omega), hentry a (by omega)]
      rintro ⟨hten, h3⟩
      rw [if_pos hten] at h2
      omega
    have hlast : s'.diskpos / 4096 < s.nblocks := by
      by_cases hten : 10 ≤ blocks file.data
      · exact hmore hten
      · rwa [hpos, if_neg hten]
    refine ⟨hn, by omega, ?_, hend, hf.nblocks, hf.super, hf.bitmap, ?_, hout⟩
    · refine hf.laid ⟨?_, ?_, ?_⟩ hname (by simp only; omega) (by simp only; omega) ?_
      · intro t ht
        exact (hdata _ (by omega)).trans (hnamed.name t ht)
      · exact (hdata _ (by omega)).trans hnamed.nul
      · exact (load_same m1 fun a hlo hhi => hdata a (by omega)).trans hnamed.type
      · intro q hq
        rw [← haligned]
        exact hbytes q hq
    · refine ⟨?_, ?_, by omega, by rwa [hf.nblocks], by rwa [hf.nblocks]⟩
      · intro a hlo hhi
        rw [hout a (by omega) (by omega)]
        exact hs.disk a (by omega) hhi
      · intro a ha
        rw [hout a (by omega) (by omega)]
        exact hs.ents a (by omega)
  · intro a hlo hhi
    simp only
    rw [hdata a (by omega), hentry a (by omega)]
    exact hs.ents a (by omega)
  · intro a hlo hhi
    simp only at hlo hhi ⊢
    rw [hdata a (by omega), hentry a (by omega)]
    exact hs.disk a (by omega) (by omega)

/-! ## The files one after the other -/

/-- Where the blocks of file `i` begin, if those of the first one do at `b`. -/
def startOf (b : Nat) (files : List Input) (i : Nat) : Nat :=
  b + ((files.take i).map fun file => extent file.data).sum

theorem startOf_cons (b : Nat) (file : Input) (files : List Input) (i : Nat) :
    startOf b (file :: files) (i + 1) = startOf (b + extent file.data) files i := by
  unfold startOf
  rw [List.take_succ_cons, List.map_cons, List.sum_cons, Nat.add_assoc]

/-- The blocks of a file are before those of any later one. -/
theorem startOf_le (files : List Input) :
    ∀ (b i j : Nat) (file : Input), files[i]? = some file → i < j →
      startOf b files i + extent file.data ≤ startOf b files j := by
  induction files with
  | nil =>
    intro b i j file hi
    rw [List.getElem?_nil] at hi
    cases hi
  | cons head files ih =>
    intro b i j file hi hij
    cases j with
    | zero => omega
    | succ j =>
      rw [startOf_cons]
      cases i with
      | zero =>
        rw [List.getElem?_cons_zero, Option.some.injEq] at hi
        rw [hi]
        unfold startOf
        simp
      | succ i =>
        rw [List.getElem?_cons_succ] at hi
        rw [startOf_cons]
        exact ih _ i j file hi (by omega)

/-- The state after the files, in a directory that had `n` entries. -/
structure Filled (s s' : Format) (n : Nat) (files : List Input) : Prop where
  laid : ∀ i file, files[i]? = some file → file.data.length < 1034 * 4096 ∧
    Laid s'.mem (heap + 256 * (n + i)) (last file.name) file.data
      (startOf (s.diskpos / 4096) files i)
  pos : s'.diskpos = 4096 * startOf (s.diskpos / 4096) files files.length
  nblocks : s'.nblocks = s.nblocks
  super : s'.super = s.super
  bitmap : s'.bitmap = s.bitmap
  fresh : Fresh s' (n + files.length)
  count : n ≤ 128 → n + files.length ≤ 128
  frame : ∀ a, ¬(heap + 256 * n ≤ a ∧ a < heap + 256 * (n + files.length)) →
    ¬(s.diskpos ≤ a ∧ a < s'.diskpos) → s'.mem a = s.mem a

theorem writefiles_spec (files : List Input) :
    ∀ (s s' : Format) (n : Nat), Fresh s n → (∀ file ∈ files, (last file.name).length < 128) →
      writefiles s n files = some s' → Filled s s' n files := by
  induction files with
  | nil =>
    intro s s' n hs _ h
    rw [writefiles] at h
    cases h
    refine ⟨?_, ?_, rfl, rfl, rfl, hs, fun h => h, fun _ _ _ => rfl⟩
    · intro i file hi
      rw [List.getElem?_nil] at hi
      cases hi
    · exact hs.aligned
  | cons file files ih =>
    intro s s' n hs hnames h
    rw [writefiles, Option.bind_eq_some_iff] at h
    rcases h with ⟨s1, hfirst, hrest⟩
    have hname := hnames file List.mem_cons_self
    rcases writefile_spec hs hname hfirst with ⟨hn, hlen, hw⟩
    have hi := ih s1 s' (n + 1) hw.fresh (fun g hg => hnames g (List.mem_cons_of_mem _ hg)) hrest
    have hblock : s1.diskpos / 4096 = s.diskpos / 4096 + extent file.data := by
      rw [hw.pos]
      omega
    have hpos := hi.pos
    rw [hblock, ← startOf_cons] at hpos
    have hmono := startOf_le (file :: files) (s.diskpos / 4096) 0 (files.length + 1) file rfl
      (by omega)
    have haligned := hs.aligned
    have hzero : startOf (s.diskpos / 4096) (file :: files) 0 = s.diskpos / 4096 := rfl
    have hheap := heap_eq
    have hlow : s.diskpos / 4096 + extent file.data < 10240 := by
      have hroom := hw.fresh.room
      have hsmall := hw.fresh.small
      omega
    have hhigh : s'.diskpos < 4096 * 10240 := by
      have hroom := hi.fresh.room
      have hsmall := hi.fresh.small
      omega
    have hstep : s1.diskpos ≤ s'.diskpos := by
      rw [hw.pos, hpos]
      exact Nat.mul_le_mul_left 4096 hmono
    refine ⟨?_, hpos, hi.nblocks.trans hw.nblocks, hi.super.trans hw.super,
      hi.bitmap.trans hw.bitmap, ?_, ?_, ?_⟩
    · intro i g hg
      cases i with
      | zero =>
        rw [List.getElem?_cons_zero] at hg
        cases hg
        refine ⟨hlen, ?_⟩
        -- the later files are elsewhere
        refine hw.laid.move hname ?_ ?_
        · intro t ht
          exact hi.frame _ (by omega) (by rw [hw.pos]; omega)
        · intro a hlo hhi
          exact hi.frame a (by omega) (by rw [hw.pos]; omega)
      | succ i =>
        rw [List.getElem?_cons_succ] at hg
        have hlaid := hi.laid i g hg
        rwa [startOf_cons, ← hblock, show n + (i + 1) = n + 1 + i by omega]
    · rw [List.length_cons, show n + (files.length + 1) = n + 1 + files.length by omega]
      exact hi.fresh
    · intro _
      have := hi.count (by omega)
      rw [List.length_cons]
      omega
    · intro a h1 h2
      rw [List.length_cons] at h1
      have hmore : s.diskpos ≤ s1.diskpos := by
        rw [hw.pos]
        omega
      rw [hi.frame a (by omega) (by omega)]
      exact hw.frame a (fun h3 => h1 ⟨h3.1, by omega⟩) (by omega)

/-! ## The disk around the files -/

/-- The disk as `opendisk` leaves it. -/
structure Blank (s : Format) (n : Nat) : Prop where
  nblocks : s.nblocks = n
  super : s.super = 4096
  bitmap : s.bitmap = 8192
  pos : s.diskpos = 12288
  fresh : Fresh s 0
  count : sNblocks s.mem = n
  type : fType s.mem sRoot = 1
  slots : ∀ a, sRoot + 136 ≤ a → a < 8192 → s.mem a = 0
  bits : ∀ a, 8192 ≤ a → a < 12288 → s.mem a = 0xFF

theorem opendisk_spec {nblocks : Nat} (h2 : 2 ≤ nblocks) (hsmall : nblocks ≤ 10240)
    (h : opendisk nblocks = some s) : Blank s nblocks := by
  have hr : (roundup 4096).toNat = 4096 := by decide
  have hbits : (nblocks + 32767) / 32768 * 4096 = 4096 := by omega
  have hheap := heap_eq
  simp only [opendisk, Option.bind_eq_some_iff, Option.map_eq_some_iff, hbits] at h
  rcases h with ⟨⟨a1, s1⟩, h1, ⟨a2, s2⟩, h2', ⟨a3, s3⟩, h3, rfl⟩
  rcases alloc_eq_some h1 with ⟨rfl, rfl, -⟩
  rcases alloc_eq_some h2' with ⟨rfl, rfl, -⟩
  rcases alloc_eq_some h3 with ⟨rfl, rfl, hroom⟩
  simp only [setMem, hr, show ofNat 32 4096 = 4096 from rfl, Nat.zero_add,
    Nat.reduceAdd] at hroom ⊢
  have hname : [slash, 0].length = 2 := rfl
  have hlen : (List.replicate 4096 (0xFF : BitVec 8)).length = 4096 := List.length_replicate
  have hones : ∀ i < 4096, (List.replicate 4096 (0xFF : BitVec 8)).getD i 0 = 0xFF := by
    intro i hi
    rw [List.getD_eq_getElem?_getD, List.getElem?_replicate, if_pos hi]
    rfl
  generalize List.replicate 4096 (0xFF : BitVec 8) = ones at *
  -- what is stored before the bitmap ends with the type of the root
  have hhigh : ∀ a, 12288 ≤ a ∨ sRoot + 136 ≤ a ∧ a < 8192 →
      copy (copy (store (store (store (fun _ => 0) 4 4096 0x4A0530AE) 4 4100 nblocks) 4 4236 1)
        4104 [slash, 0]) 8192 ones a = 0 := by
    intro a ha
    unfold sRoot at ha
    rw [copy_off (by omega), copy_off (by rw [hname]; omega), store_off _ _ (by omega),
      store_off _ _ (by omega), store_off _ _ (by omega)]
  refine ⟨rfl, rfl, rfl, rfl, ⟨?_, ?_, by simp only, hroom, hsmall⟩, ?_, ?_, ?_, ?_⟩
  · intro a hlo _
    exact hhigh a (.inl hlo)
  · intro a ha
    exact hhigh a (.inl (by omega))
  · unfold sNblocks
    refine (load_same (store (store (fun _ => 0) 4 4096 0x4A0530AE) 4 4100 nblocks)
      fun a hlo hhi => ?_).trans ?_
    · refine (copy_off (by omega)).trans ((copy_off (by omega)).trans ?_)
      exact store_off _ _ (by omega)
    · rw [load_store_at]
      exact Nat.mod_eq_of_lt (lt_of_le_of_lt hsmall (by decide))
  · unfold fType sRoot
    refine (load_same (store (store (store (fun _ => 0) 4 4096 0x4A0530AE) 4 4100 nblocks) 4 4236 1)
      fun a hlo hhi => ?_).trans ?_
    · exact (copy_off (by omega)).trans (copy_off (by rw [hname]; omega))
    · rw [load_store_at]
      rfl
  · intro a hlo hhi
    exact hhigh a (.inr ⟨hlo, hhi⟩)
  · intro a hlo hhi
    exact (if_pos (by omega)).trans (hones _ (by omega))

/-- The disk after `finishdir`: the entries are moved to the blocks from `b` on,
    which are those of the root directory. -/
structure Closed (s s' : Format) (n : Nat) : Prop where
  nblocks : s'.nblocks = s.nblocks
  bitmap : s'.bitmap = s.bitmap
  pos : s'.diskpos = 4096 * (s.diskpos / 4096 + (n + 15) / 16)
  room : s.diskpos / 4096 + (n + 15) / 16 < s.nblocks
  size : fSize s'.mem sRoot = ofNat 32 (4096 * ((n + 15) / 16))
  slots : ∀ k ≤ 1034, slot s'.mem sRoot k =
    if k < (n + 15) / 16 then s.diskpos / 4096 + k else 0
  ents : ∀ q < 256 * n, s'.mem (s.diskpos + q) = s.mem (heap + q)
  frame : ∀ a, ¬(sRoot + 128 ≤ a ∧ a < sRoot + 132) → ¬(sRoot + 136 ≤ a ∧ a < sRoot + 180) →
    ¬(s.diskpos ≤ a ∧ a < s.diskpos + 256 * n) → s'.mem a = s.mem a

theorem finishdir_spec (hs : Fresh s n) (h0 : 0 < n) (hn : n ≤ 128) (hsuper : s.super = 4096)
    (hlow : 12288 ≤ s.diskpos) (hslots : ∀ a, sRoot + 136 ≤ a → a < 8192 → s.mem a = 0)
    (h : finishdir s n = some s') :
    Closed s s' n := by
  have haligned := hs.aligned
  have hroom := hs.room
  have hsmall := hs.small
  have hheap := heap_eq
  have hroot : sRoot = 4104 := rfl
  have hup : (roundup (ofNat 32 (n * 256))).toNat = 4096 * ((n + 15) / 16) := by
    rw [toNat_roundup _ (by omega)]
    omega
  have hsize : roundupInt (ofNat 32 (n * 256)) =
      ofNat 32 (4096 * ((n + 15) / 16)) := by
    apply BitVec.eq_of_toNat_eq
    rw [roundupInt_eq _ (by omega) (by omega), hup, toNat_ofNat]
    omega
  simp only [finishdir, Option.bind_eq_some_iff] at h
  rcases h with ⟨⟨start, s1⟩, halloc, hfin⟩
  rcases alloc_eq_some halloc with ⟨rfl, rfl, hroom1⟩
  simp only [hup, hsize, setMem, blockof, hsuper] at hroom1 hfin
  have hlen : (bytes s.mem heap (n * 256)).length = n * 256 := by
    unfold bytes
    rw [List.length_map, List.length_range]
  have hcopy : ∀ a, ¬(s.diskpos ≤ a ∧ a < s.diskpos + 256 * n) →
      copy s.mem s.diskpos (bytes s.mem heap (n * 256)) a = s.mem a :=
    fun a ha => copy_off (by omega)
  have hents : ∀ q < 256 * n,
      copy s.mem s.diskpos (bytes s.mem heap (n * 256)) (s.diskpos + q) = s.mem (heap + q) := by
    intro q hq
    rw [copy_at (by omega), List.getD_eq_getElem?_getD]
    unfold bytes
    rw [List.getElem?_map, List.getElem?_range (by omega)]
    rfl
  generalize copy s.mem s.diskpos (bytes s.mem heap (n * 256)) = m1 at *
  have hf := finishfile_spec (by omega) (by omega) (by simp only; omega) ?_ ?_
    (by simp only; omega) hfin
  · -- at most eight blocks, so that there is no indirect block
    rw [show (4096 * ((n + 15) / 16) + 4095) / 4096 = (n + 15) / 16 by omega] at hf
    have hten : ¬10 ≤ (n + 15) / 16 := by omega
    have hpos := hf.pos
    have hframe := hf.frame
    have hind := hf.indirect
    rw [if_neg hten] at hpos hind
    simp only at hpos hframe
    have hsame : ∀ a, ¬(sRoot + 128 ≤ a ∧ a < sRoot + 132) →
        ¬(sRoot + 136 ≤ a ∧ a < sRoot + 180) → s'.mem a = m1 a :=
      fun a h1 h2 => hframe a h1 h2 fun h3 => hten h3.1
    refine ⟨hf.nblocks, hf.bitmap, by omega, by omega, hf.size, ?_, ?_, ?_⟩
    · intro k hk
      by_cases hd : k < 10
      · rw [slot_direct _ _ hd]
        exact hf.direct k hd
      · rw [if_neg (by omega)]
        exact slot_none (by omega) hk hind
    · intro q hq
      rw [hsame _ (by omega) (by omega)]
      exact hents q hq
    · intro a h1 h2 h3
      rw [hsame a h1 h2, hcopy a h3]
  · intro a hlo hhi
    simp only
    rw [hcopy a (by omega)]
    exact hslots a (by omega) (by omega)
  · intro a hlo hhi
    simp only at hlo hhi ⊢
    rw [hcopy a (by omega)]
    exact hs.disk a (by omega) (by omega)

theorem clearBit_spec (m : Mem) (i : Nat) (hi : i < sNblocks m) :
    Marked m (clearBit 8192 m i) i false := by
  refine marked_store hi ?_ ?_
  · exact lt_of_le_of_lt Nat.and_le_left (load_lt m 4 _)
  · intro j
    rw [Nat.testBit_and, Nat.testBit_xor, Nat.testBit_two_pow_sub_one, testBit_one_shiftLeft]
    by_cases hj : j = i % 32
    · rw [if_pos hj, decide_eq_true hj, decide_eq_true (show j < 32 by omega)]
      exact Bool.and_false _
    · rw [if_neg hj, decide_eq_false hj, Bool.xor_false]
      by_cases hlt : j < 32
      · rw [decide_eq_true hlt, Bool.and_true]
        rfl
      · -- no word has a bit there
        have hw := load_lt m 4 (bitmapWord i)
        have hz := Nat.testBit_lt_two_pow
          (lt_of_lt_of_le (show _ < 2 ^ 32 from hw)
            (Nat.pow_le_pow_right Nat.two_pos (show 32 ≤ j by omega)))
        rw [hz, decide_eq_false hlt, Bool.and_false]

/-- The loop of `finishdisk` marks the blocks before the position in use. -/
theorem clearBits_spec (m : Mem) (n : Nat) (hn : n ≤ sNblocks m) :
    (∀ a, ¬InBitmap m a → (List.range n).foldl (clearBit 8192) m a = m a) ∧
      ∀ x, blockIsFree ((List.range n).foldl (clearBit 8192) m) x =
        if x < n then false else blockIsFree m x := by
  induction n with
  | zero => exact ⟨fun _ _ => rfl, fun _ => rfl⟩
  | succ n ih =>
    rcases ih (by omega) with ⟨hbytes, hfree⟩
    have hnb : sNblocks ((List.range n).foldl (clearBit 8192) m) = sNblocks m := by
      refine sNblocks_congr fun a hlo hhi => hbytes a ?_
      unfold InBitmap
      omega
    have hstep := clearBit_spec ((List.range n).foldl (clearBit 8192) m) n (by omega)
    rw [List.range_succ, List.foldl_append, List.foldl_cons, List.foldl_nil]
    refine ⟨?_, ?_⟩
    · intro a ha
      rw [hstep.bytes a ?_, hbytes a ha]
      rwa [inBitmap_congr hnb]
    · intro x
      rw [hstep.free, hfree]
      by_cases hx : x = n
      · rw [if_pos hx, if_pos (by omega)]
      · rw [if_neg hx]
        by_cases hlt : x < n
        · rw [if_pos hlt, if_pos (by omega)]
        · rw [if_neg hlt, if_neg (by omega)]

/-- A bitmap with all bits set. -/
theorem blockIsFree_ones (m : Mem) (hn : sNblocks m ≤ 10240)
    (h : ∀ a, 8192 ≤ a → a < 12288 → m a = 0xFF) (b : Nat) (hb : b < sNblocks m) :
    blockIsFree m b = true := by
  have hword : load m 4 (bitmapWord b) = 2 ^ 32 - 1 := by
    have hbyte : ∀ i < 4, m (bitmapWord b + i) = 0xFF := by
      intro i hi
      unfold bitmapWord
      exact h _ (by omega) (by omega)
    have h0 := hbyte 0 (by omega)
    have h1 := hbyte 1 (by omega)
    have h2 := hbyte 2 (by omega)
    have h3 := hbyte 3 (by omega)
    simp only [load, Nat.add_assoc, Nat.add_zero, Nat.reduceAdd] at h0 h1 h2 h3 ⊢
    rw [h0, h1, h2, h3]
    rfl
  unfold blockIsFree
  rw [hword, Nat.testBit_two_pow_sub_one, decide_eq_true hb,
    decide_eq_true (Nat.mod_lt b (by decide : 32 > 0))]
  rfl

/-- What the program writes out: the first `e` blocks are in use, and the others
    are free. -/
structure Cut (m m' : Mem) (n e : Nat) : Prop where
  nblocks : sNblocks m' = n
  free : ∀ b, blockIsFree m' b = decide (e ≤ b ∧ b < n)
  beyond : ∀ a, 4096 * n ≤ a → m' a = 0
  frame : ∀ a < 4096 * n, a < 8192 ∨ 12288 ≤ a → m' a = m a

theorem finishdisk_spec (hn : sNblocks s.mem = n) (h3 : 3 ≤ n) (hsmall : n ≤ 10240)
    (hend : s.diskpos / 4096 ≤ n) (hbitmap : s.bitmap = 8192)
    (hbits : ∀ a, 8192 ≤ a → a < 12288 → s.mem a = 0xFF) :
    Cut s.mem (fun a => if a < n * 4096 then finishdisk s a else 0) n (s.diskpos / 4096) := by
  have hclear := clearBits_spec s.mem (s.diskpos / 4096) (by omega)
  rw [← hbitmap] at hclear
  change (∀ a, _ → finishdisk s a = _) ∧ ∀ x, blockIsFree (finishdisk s) x = _ at hclear
  generalize hm : (fun a => if a < n * 4096 then finishdisk s a else 0) = m
  have hin : ∀ a < 4096 * n, m a = finishdisk s a := by
    intro a ha
    rw [← hm]
    exact if_pos (by omega)
  have hframe : ∀ a < 4096 * n, a < 8192 ∨ 12288 ≤ a → m a = s.mem a := by
    intro a ha hoff
    rw [hin a ha, hclear.1 a]
    unfold InBitmap nbitblocks
    omega
  have hcut : sNblocks (finishdisk s) = n := by
    rw [← hn]
    refine sNblocks_congr fun a hlo hhi => hclear.1 a ?_
    unfold InBitmap
    omega
  have hnblocks : sNblocks m = n := by
    rw [← hn]
    exact sNblocks_congr fun a hlo hhi => hframe a (by omega) (by omega)
  refine ⟨hnblocks, ?_, ?_, hframe⟩
  · intro b
    have hsame : blockIsFree m b = blockIsFree (finishdisk s) b := by
      refine blockIsFree_congr (hnblocks.trans hcut.symm) (fun a ha => hin a ?_) b
      unfold InBitmap nbitblocks at ha
      omega
    rw [hsame, hclear.2]
    by_cases hused : b < s.diskpos / 4096
    · rw [if_pos hused, decide_eq_false (by omega)]
    · rw [if_neg hused]
      by_cases hb : b < n
      · rw [blockIsFree_ones s.mem (by omega) hbits b (by omega), decide_eq_true (by omega)]
      · rw [decide_eq_false (by omega), Bool.eq_false_iff]
        intro hfree
        have := free_lt hfree
        omega
  · intro a ha
    rw [← hm]
    exact if_neg (by omega)

/-- The first block of the root directory of an image. -/
def dirStart (files : List Input) : Nat := startOf 3 files files.length

/-- The number of blocks of the root directory. -/
def dirBlocks (files : List Input) : Nat := (files.length + 15) / 16

end Format

open Format

/-- The image of a disk with `n` blocks: the files are in the order of the list,
    then comes the root directory, and the rest is free and blank. -/
structure Image (m : Mem) (n : Nat) (files : List Input) : Prop where
  nblocks : sNblocks m = n
  small : n ≤ 10240
  count : files.length ≤ 128
  room : dirStart files + dirBlocks files < n
  type : fType m sRoot = 1
  size : fSize m sRoot = ofNat 32 (4096 * dirBlocks files)
  slots : ∀ k ≤ 1034, slot m sRoot k = if k < dirBlocks files then dirStart files + k else 0
  free : ∀ b, blockIsFree m b = decide (dirStart files + dirBlocks files ≤ b ∧ b < n)
  laid : ∀ i file, files[i]? = some file → file.data.length < 1034 * 4096 ∧
    Laid m (4096 * dirStart files + 256 * i) (last file.name) file.data (startOf 3 files i)
  blank : ∀ a, 4096 * dirStart files + 256 * files.length ≤ a → m a = 0

theorem fsformat_image {files : List Input} (hne : files ≠ [])
    (hnames : ∀ file ∈ files, (last file.name).length < 128) (h : fsformat n files = some m) :
    Image m n files := by
  have hheap := heap_eq
  have hroot : sRoot = 4104 := rfl
  simp only [fsformat] at h
  split at h
  · cases h
  next hn =>
  rw [Option.bind_eq_some_iff] at h
  rcases h with ⟨s0, hopen, h⟩
  rw [Option.bind_eq_some_iff] at h
  rcases h with ⟨s1, hfiles, h⟩
  rcases Option.map_eq_some_iff.1 h with ⟨s2, hdir, hm⟩
  have hb := opendisk_spec (by omega) (by omega) hopen
  have hf := writefiles_spec files s0 s1 0 hb.fresh hnames hfiles
  have hcount : files.length ≤ 128 := by
    have := hf.count (by omega)
    omega
  have hthree : s0.diskpos / 4096 = 3 := by rw [hb.pos]
  have hlen : 0 < files.length := List.length_pos_iff.2 hne
  -- where the directory begins
  have hpos : s1.diskpos = 4096 * dirStart files := by
    rw [hf.pos, hthree]
    rfl
  have hstart : s1.diskpos / 4096 = dirStart files := by omega
  have hlow3 : 3 ≤ dirStart files := Nat.le_add_right 3 _
  have hfresh := hf.fresh
  rw [Nat.zero_add] at hfresh
  have hlow : ∀ a < 12288, s1.mem a = s0.mem a := by
    intro a ha
    exact hf.frame a (by omega) (by rw [hb.pos]; omega)
  have hc := finishdir_spec hfresh hlen hcount (hf.super.trans hb.super) (by omega)
    (fun a hlo hhi => hlow a (by omega) ▸ hb.slots a hlo hhi) hdir
  have hroom := hc.room
  have hends := hc.pos
  rw [hstart, show (files.length + 15) / 16 = dirBlocks files from rfl] at hroom hends
  rw [hf.nblocks, hb.nblocks] at hroom
  have hend : s2.diskpos / 4096 = dirStart files + dirBlocks files := by omega
  -- the first blocks are as they were, but for the structure of the directory
  have hkept : ∀ a < 12288, a < sRoot + 128 ∨ sRoot + 132 ≤ a ∧ a < sRoot + 136 ∨ 8192 ≤ a →
      s2.mem a = s0.mem a := by
    intro a ha hoff
    rw [hc.frame a (by omega) (by omega) (by omega), hlow a ha]
  have hnum : sNblocks s2.mem = n := by
    rw [← hb.count]
    exact sNblocks_congr fun a hlo hhi => hkept a (by omega) (by omega)
  have hcut := finishdisk_spec hnum (by omega) (by omega) (by omega)
    (hc.bitmap.trans (hf.bitmap.trans hb.bitmap))
    (fun a hlo hhi => (hkept a hhi (by omega)).trans (hb.bits a hlo hhi))
  rw [hm, hend] at hcut
  refine ⟨hcut.nblocks, by omega, hcount, hroom, ?_, ?_, ?_, hcut.free, ?_, ?_⟩
  · rw [← hb.type]
    refine load_same s0.mem fun a hlo hhi => ?_
    rw [hcut.frame a (by omega) (by omega), hkept a (by omega) (by omega)]
  · refine Eq.trans ?_ hc.size
    unfold fSize
    rw [load_same s2.mem fun a hlo hhi => hcut.frame a (by omega) (by omega)]
  · have hslots := hc.slots
    rw [hstart] at hslots
    intro k hk
    refine (slot_congr (fun a hlo hhi => hcut.frame a (by omega) (by omega)) ?_ k hk).trans
      (hslots k hk)
    intro hi
    refine absurd (hslots 1034 le_rfl) ?_
    rwa [if_neg (by omega)]
  · -- a file is where it was, and its entry is in the blocks of the directory
    intro i file hi
    have hl := hf.laid i file hi
    rw [hthree, Nat.zero_add] at hl
    have hlt : i < files.length := (List.getElem?_eq_some_iff.1 hi).1
    have hext : _ ≤ dirStart files := startOf_le files 3 i files.length file hi hlt
    have hbase : 3 ≤ startOf 3 files i := Nat.le_add_right 3 _
    have hblocks : dirBlocks files = (files.length + 15) / 16 := rfl
    refine ⟨hl.1, hl.2.move (hnames file (List.mem_of_getElem? hi)) ?_ ?_⟩
    · intro t ht
      rw [hcut.frame _ (by omega) (by omega), ← hpos, Nat.add_assoc, hc.ents _ (by omega),
        Nat.add_assoc]
    · intro a hlo hhi
      rw [hcut.frame a (by omega) (by omega), hc.frame a (by omega) (by omega) (by omega)]
  · intro a ha
    by_cases hlt : a < 4096 * n
    · rw [hcut.frame a hlt (by omega), hc.frame a (by omega) (by omega) (by omega)]
      exact hfresh.disk a (by omega) (by omega)
    · exact hcut.beyond a (by omega)

end Jos.Fs
