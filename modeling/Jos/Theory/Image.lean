import Jos.Theory.Directory
import Jos.Theory.Format
import Mathlib.Data.List.Nodup
import Mathlib.Data.List.TakeWhile

/-!
# Reading a Formatted Disk

The file server finds on the image of `fsformat` what was put there: every file
under its name, with its size and its bytes. The image has its blocks in good
order, which is where the invariants of the file system start from.

## Theorems

* `Image.tidy`: The entries of an image are files of their own.
* `fsformat_correct`: What the file server finds.
-/

namespace Jos.Fs

open Lib.Bytes (load load_zero)
open Format

variable {i k b f : Nat} {s name : List (BitVec 8)} {file : Input} {m : Mem}

/-! ## The blocks of the files -/

namespace Format

variable {m : Mem} {f start : Nat} {base data : List (BitVec 8)}

section

variable (h : Laid m f base data start)

include h

/-- The block numbers a file has, in order. -/
theorem Laid.number (hk : k ≤ 1034) (hne : slot m f k ≠ 0) :
    (k < 1034 ∧ k < blocks data ∧ slot m f k = start + k) ∨
      (k = 1034 ∧ 10 ≤ blocks data ∧ slot m f k = start + blocks data) := by
  rw [h.slots k hk] at hne ⊢
  by_cases hlast : k = 1034
  · rw [if_pos hlast] at hne ⊢
    by_cases hten : 10 ≤ blocks data
    · rw [if_pos hten]
      exact .inr ⟨hlast, hten, rfl⟩
    · exact absurd (if_neg hten) hne
  · rw [if_neg hlast] at hne ⊢
    by_cases hlt : k < blocks data
    · rw [if_pos hlt]
      exact .inl ⟨by omega, hlt, rfl⟩
    · exact absurd (if_neg hlt) hne

theorem Laid.range (hk : k ≤ 1034) (hne : slot m f k ≠ 0) :
    start ≤ slot m f k ∧ slot m f k < start + extent data := by
  unfold extent
  rcases h.number hk hne with hnum | hnum
  · omega
  · rw [if_pos hnum.2.1]
    omega

theorem Laid.inj {k' : Nat} (hk : k ≤ 1034) (hk' : k' ≤ 1034)
    (hne : slot m f k ≠ 0) (he : slot m f k = slot m f k') : k = k' := by
  have hnum := h.number hk hne
  have hnum' := h.number hk' (by rwa [← he])
  omega

/-- All the blocks from the first to the last belong to the file. -/
theorem Laid.all (hlen : data.length < 1034 * 4096)
    (hstart : start ≠ 0) (hlo : start ≤ b) (hhi : b < start + extent data) : Owned m f b := by
  have hcount : blocks data ≤ 1034 := by
    unfold blocks
    omega
  refine ⟨by omega, ?_⟩
  by_cases hb : b < start + blocks data
  · refine ⟨b - start, by omega, ?_⟩
    rw [h.slots _ (by omega), if_neg (by omega), if_pos (by omega)]
    omega
  · -- the block behind the data is the indirect block
    unfold extent at hhi
    split at hhi
    · next hten =>
      refine ⟨1034, le_rfl, ?_⟩
      rw [h.slots _ le_rfl, if_pos rfl, if_pos hten]
      omega
    · omega

end

/-- A block before the end of the files is one of a file. -/
theorem startOf_find {files : List Input} :
    ∀ start b, start ≤ b → b < startOf start files files.length →
      ∃ i file, files[i]? = some file ∧ startOf start files i ≤ b ∧
        b < startOf start files i + extent file.data := by
  induction files with
  | nil =>
    intro start b hlo hhi
    exact absurd hhi (Nat.not_lt.2 hlo)
  | cons file files ih =>
    intro start b hlo hhi
    by_cases hb : b < start + extent file.data
    · exact ⟨0, file, rfl, hlo, hb⟩
    · rw [List.length_cons, startOf_cons] at hhi
      rcases ih _ b (Nat.le_of_not_lt hb) hhi with ⟨i, g, hi, h1, h2⟩
      refine ⟨i + 1, g, ?_, ?_, ?_⟩
      · rwa [List.getElem?_cons_succ]
      · rwa [startOf_cons]
      · rwa [startOf_cons]

end Format

/-! ## The invariants -/

namespace Image

variable {m : Mem} {n : Nat} {files : List Input}

theorem three_le (files : List Input) : 3 ≤ dirStart files := Nat.le_add_right 3 _

section

variable (h : Image m n files)

include h

theorem bitmap : nbitblocks m = 1 := by
  have hsmall := h.small
  have hroom := h.room
  unfold nbitblocks
  rw [h.nblocks]
  omega

theorem used (hb : b < dirStart files + dirBlocks files) :
    blockIsFree m b = false := by
  rw [h.free]
  exact decide_eq_false (by omega)

theorem sane : Sane m := by
  have hthree := three_le files
  have hroom := h.room
  refine ⟨by rw [h.bitmap, h.nblocks]; omega, ?_⟩
  intro b _ hb
  rw [h.bitmap] at hb
  exact h.used (by omega)

/-- The block numbers of the root directory. -/
theorem number (hk : k ≤ 1034) (hne : slot m sRoot k ≠ 0) :
    k < dirBlocks files ∧ slot m sRoot k = dirStart files + k := by
  rw [h.slots k hk] at hne ⊢
  by_cases hlt : k < dirBlocks files
  · exact ⟨hlt, if_pos hlt⟩
  · exact absurd (if_neg hlt) hne

theorem root : Owns m sRoot := by
  have hthree := three_le files
  have hroom := h.room
  have hroot : sRoot = 4104 := rfl
  refine ⟨⟨by omega, by omega, .inl (by omega), h.used (by omega)⟩, ?_, ?_⟩
  · intro k hk hne
    rcases h.number hk hne with ⟨hlt, he⟩
    rw [he, h.bitmap, h.nblocks]
    exact ⟨by omega, by omega, h.used (by omega), by omega⟩
  · intro k k' hk hk' hne he
    have hnum := h.number hk hne
    have hnum' := h.number hk' (by rwa [← he])
    omega

end

/-- Where the structure of file `i` is. -/
def place (files : List Input) (i : Nat) : Nat := 4096 * dirStart files + 256 * i

/-- An entry is that of a file of the list, or it is empty. -/
theorem entry_cases (h : Image m n files) (hf : Entry m f) :
    ∃ i, f = place files i ∧ i < 16 * dirBlocks files ∧
      ((∃ file, files[i]? = some file) ∨ ∀ t < 256, m (f + t) = 0) := by
  rcases hf with ⟨k, hk, j, hj, hne, rfl⟩
  rcases h.number (by omega) hne with ⟨hlt, hslot⟩
  have hindex : slot m sRoot k * 4096 + 256 * j = place files (16 * k + j) := by
    unfold place
    rw [hslot, Nat.add_mul]
    omega
  refine ⟨16 * k + j, hindex, by omega, ?_⟩
  by_cases hi : 16 * k + j < files.length
  · exact .inl ⟨_, List.getElem?_eq_getElem hi⟩
  · -- behind the last file the directory is blank
    refine .inr fun t _ => h.blank _ ?_
    rw [hindex]
    unfold place
    omega

theorem entry_block (hi : i < 16 * dirBlocks files) :
    dirStart files ≤ place files i / 4096 ∧
      place files i / 4096 < dirStart files + dirBlocks files ∧
      place files i % 4096 + 256 ≤ 4096 := by
  unfold place
  omega

section

variable (h : Image m n files)

include h

/-- The blocks that an entry has are those of its file, all of them before the
    directory. -/
theorem entry_range (hf : f = place files i)
    (hi : (∃ file, files[i]? = some file) ∨ ∀ t < 256, m (f + t) = 0) (hb : Owned m f b) :
    3 ≤ b ∧ b < dirStart files ∧ startOf 3 files i ≤ b ∧ ∀ j, i < j → b < startOf 3 files j := by
  rcases hb with ⟨h0, k, hk, rfl⟩
  rcases hi with ⟨file, hi⟩ | hz
  · have hlaid := (h.laid i file hi).2
    have hr := hlaid.range hk (by rw [hf] at h0; exact h0)
    have hlater : ∀ j, i < j → slot m (place files i) k < startOf 3 files j := fun j hij =>
      lt_of_lt_of_le hr.2 (startOf_le files 3 i j file hi hij)
    rw [hf]
    exact ⟨le_trans (Nat.le_add_right 3 _) hr.1, hlater _ (List.getElem?_eq_some_iff.1 hi).1, hr.1,
      hlater⟩
  · exact absurd ((blank_struct hz).1 k hk) h0

theorem entry_owns (hf : Entry m f) : Owns m f := by
  have hthree := three_le files
  have hroom := h.room
  rcases h.entry_cases hf with ⟨i, he, hlt, hi⟩
  have hblock := entry_block hlt
  rw [← he] at hblock
  have hhome : Home m f :=
    ⟨by omega, hblock.2.2, .inr (by rw [h.bitmap]; omega), h.used hblock.2.1⟩
  rcases hi with ⟨file, hi⟩ | hz
  · have hlaid := (h.laid i file hi).2
    rw [show 4096 * dirStart files + 256 * i = f from he.symm] at hlaid
    refine ⟨hhome, ?_, fun k k' hk hk' hne hs => hlaid.inj hk hk' hne hs⟩
    intro k hk hne
    have hr := h.entry_range he (.inl ⟨file, hi⟩) ⟨hne, k, hk, rfl⟩
    rw [h.bitmap, h.nblocks]
    exact ⟨by omega, by omega, h.used (by omega), by omega⟩
  · exact Owns.of_empty hhome (blank_struct hz).1

theorem toNat_size : (fSize m sRoot).toNat = 4096 * dirBlocks files := by
  have hcount := h.count
  rw [h.size, BitVec.toNat_ofNat]
  unfold dirBlocks
  omega

theorem tidy : Tidy m := by
  have hsize := h.toNat_size
  have hcount := h.count
  have hthree := three_le files
  have hroom := h.room
  have hroot : sRoot = 4104 := rfl
  have hindirect : fIndirect m sRoot = 0 := by
    by_contra hi
    have := (h.number le_rfl hi).1
    unfold dirBlocks at this
    omega
  refine ⟨h.sane, h.root, fun f hf => h.entry_owns hf, ?_, ?_, ?_, ?_, by omega, ?_⟩
  · intro f hf
    rcases h.entry_cases hf with ⟨i, he, hlt, hi⟩
    have hblock := entry_block hlt
    rw [← he] at hblock
    refine ⟨by omega, ?_, fun hb => ?_, fun hne => absurd hindirect hne⟩
    · rintro b hb ⟨h0, k, hk, rfl⟩
      have hr := h.entry_range he hi hb
      have := (h.number hk h0).2
      omega
    · have := (h.entry_range he hi hb).1
      omega
  · -- the blocks of the file that was first end where those of the other begin
    intro f g hf hg hne
    rcases h.entry_cases hf with ⟨i, he, hlt, hi⟩
    rcases h.entry_cases hg with ⟨j, he', hlt', hj⟩
    have hblock := entry_block hlt
    have hblock' := entry_block hlt'
    rw [← he] at hblock
    rw [← he'] at hblock'
    have hij : i ≠ j := fun hij => hne (by rw [he, he', hij])
    refine ⟨?_, ?_, ?_, ?_⟩
    · unfold place at he he'
      omega
    · intro b hb hb'
      have hr := h.entry_range he hi hb
      have hr' := h.entry_range he' hj hb'
      rcases Nat.lt_or_gt_of_ne hij with hlt | hlt
      · have := hr.2.2.2 j hlt
        omega
      · have := hr'.2.2.2 i hlt
        omega
    · intro hb
      have := (h.entry_range he hi hb).2.1
      omega
    · intro hne' hi'
      have := (h.entry_range he' hj ⟨hne', 1034, le_rfl, rfl⟩).2.1
      omega
  · intro f hf
    rcases h.entry_cases hf with ⟨i, he, -, ⟨file, hi⟩ | hz⟩
    · rw [he, show fType m (place files i) = 0 from (h.laid i file hi).2.type]
      decide
    · rw [(blank_struct hz).2.2]
      decide
  · rw [hsize]
    unfold dirBlocks
    omega
  · intro k hk hne
    have := (h.number (by omega) hne).1
    omega

theorem dirBlocks_eq :
    ((fSize m sRoot).sdiv 4096#32).toNat = dirBlocks files := by
  have hcount := h.count
  have hsize := h.toNat_size
  unfold dirBlocks at hsize ⊢
  rw [toNat_sdiv (by omega), hsize]
  omega

theorem noGap : NoGap m := by
  have hthree := three_le files
  have hcount := h.count
  intro k _ hk
  rw [h.dirBlocks_eq, Nat.zero_add] at hk
  have hlt : k < 1034 := by
    unfold dirBlocks at hk
    omega
  rw [h.slots k (by omega), if_pos hk]
  exact ⟨hlt, by omega⟩

end

end Image

/-! ## Names -/

/-- No NUL ends a name early. -/
theorem getD_ne_zero (h : 0 ∉ s) {t : Nat} (ht : t < s.length) :
    s.getD t 0 ≠ 0 := by
  rw [List.getD_eq_getElem?_getD, List.getElem?_eq_getElem ht, Option.getD_some]
  intro he
  exact h (he ▸ List.getElem_mem ht)

theorem Format.Laid.strEq_iff {start : Nat} {base data : List (BitVec 8)}
    (h : Laid m f base data start) (hbase : 0 ∉ base) (hname : 0 ∉ name) :
    strEq m f name = true ↔ base = name := by
  rw [Fs.strEq_iff]
  refine ⟨?_, ?_⟩
  · rintro ⟨hs, hnul⟩
    -- the shorter one of two strings would end the longer one
    have hlen : base.length = name.length := by
      rcases Nat.lt_trichotomy base.length name.length with hlt | he | hgt
      · refine absurd (hs _ hlt) ?_
        rw [h.nul]
        exact Ne.symm (getD_ne_zero hname hlt)
      · exact he
      · refine absurd (h.name _ hgt) ?_
        rw [hnul]
        exact Ne.symm (getD_ne_zero hbase hgt)
    refine List.ext_getElem hlen fun t ht ht' => ?_
    have he := (h.name t ht).symm.trans (hs t ht')
    rwa [List.getD_eq_getElem?_getD, List.getElem?_eq_getElem ht, List.getD_eq_getElem?_getD,
      List.getElem?_eq_getElem ht'] at he
  · rintro rfl
    exact ⟨h.name, h.nul⟩

theorem last_slash : ∀ c ∈ last name, (c != slash) = true := by
  intro c hc
  unfold last at hc
  rw [List.mem_reverse] at hc
  have hp := List.mem_takeWhile_imp hc
  exact hp

theorem skipSlash_replicate (t : Nat) (s : List (BitVec 8)) :
    skipSlash (List.replicate t slash ++ s) = skipSlash s := by
  induction t with
  | zero => rfl
  | succ t ih =>
    rw [List.replicate_succ, List.cons_append]
    unfold skipSlash at ih ⊢
    rwa [List.dropWhile_cons, if_pos (beq_self_eq_true slash)]

/-- A path of one element. -/
theorem walkPath_single {f : Nat} (t : Nat) (hs : ∀ c ∈ s, (c != slash) = true) (hne : s ≠ [])
    (hlen : s.length < 128) (htype : fType m sRoot = 1)
    (hlook : dirLookup m sRoot s = some (.ok f, m)) :
    walkPath m (List.replicate t slash ++ s) = some (.ok (some sRoot, f), m) := by
  have htake : s.takeWhile (· != slash) = s := List.takeWhile_eq_self_iff.2 hs
  have hdrop : s.dropWhile (· != slash) = [] := List.dropWhile_eq_nil_iff.2 hs
  have hskip : skipSlash s = s := by
    cases s with
    | nil => exact absurd rfl hne
    | cons c s =>
      have hc := hs c List.mem_cons_self
      unfold skipSlash
      rw [List.dropWhile_cons, if_neg]
      intro hslash
      rw [beq_iff_eq] at hslash
      rw [hslash] at hc
      cases hc
  have hnil : skipSlash [] = [] := rfl
  have hwalk : walkPath m (List.replicate t slash ++ s) = walkFrom s.length none sRoot s m := by
    unfold walkPath
    rw [skipSlash_replicate, hskip]
  rw [hwalk]
  cases hn : s.length with
  | zero => exact absurd (List.length_eq_zero_iff.1 hn) hne
  | succ k =>
    rw [walkFrom, if_neg hne]
    simp only [htake, hdrop, hnil, hlook]
    rw [if_neg (by omega), if_neg (by rw [htype]; decide)]
    cases k with
    | zero => rfl
    | succ k => rfl

namespace Image

variable {m : Mem} {n : Nat} {files : List Input}

/-- The names of the input: not empty, without NUL, and all different. -/
structure Names (files : List Input) : Prop where
  length : ∀ file ∈ files, 1 ≤ (last file.name).length ∧ (last file.name).length ≤ 127
  nul : ∀ file ∈ files, 0 ∉ last file.name
  distinct : (files.map fun file => last file.name).Nodup

theorem Names.inj (h : Names files) {j : Nat} {file' : Input} (hi : files[i]? = some file)
    (hj : files[j]? = some file') (he : last file.name = last file'.name) : i = j := by
  have hne := List.nodup_iff_getElem?_ne_getElem?.1 h.distinct
  have hmap : (files.map fun file => last file.name)[i]? =
      (files.map fun file => last file.name)[j]? := by
    rw [List.getElem?_map, List.getElem?_map, hi, hj, Option.map_some, Option.map_some, he]
  have hlti := (List.getElem?_eq_some_iff.1 hi).1
  have hltj := (List.getElem?_eq_some_iff.1 hj).1
  rcases Nat.lt_trichotomy i j with hlt | hij | hgt
  · exact absurd hmap (hne i j hlt (by rwa [List.length_map]))
  · exact hij
  · exact absurd hmap.symm (hne j i hgt (by rwa [List.length_map]))

section

variable (h : Image m n files)

include h

theorem place_entry (hi : files[i]? = some file) :
    Entry m (place files i) ∧ ∃ k, ∃ j < 16, k < dirBlocks files ∧
      place files i = slot m sRoot k * 4096 + 256 * j := by
  have hthree := three_le files
  have hcount := h.count
  have hlt := (List.getElem?_eq_some_iff.1 hi).1
  have hk : i / 16 < dirBlocks files := by
    unfold dirBlocks
    omega
  have hslot : slot m sRoot (i / 16) = dirStart files + i / 16 := by
    rw [h.slots _ (by unfold dirBlocks at hk; omega), if_pos hk]
  have hplace : place files i = slot m sRoot (i / 16) * 4096 + 256 * (i % 16) := by
    unfold place
    rw [hslot, Nat.add_mul]
    omega
  exact ⟨⟨i / 16, by unfold dirBlocks at hk; omega, i % 16, by omega, by omega, hplace⟩,
    i / 16, i % 16, by omega, hk, hplace⟩

theorem dirLookup (hnames : Names files) (hi : files[i]? = some file) :
    dirLookup m sRoot (last file.name) = some (.ok (place files i), m) := by
  have hmem := List.mem_of_getElem? hi
  have hsize := h.toNat_size
  have hcount := h.count
  have hfits : (fSize m sRoot).toNat < 2 ^ 31 := by
    unfold dirBlocks at hsize
    omega
  have hrem : (fSize m sRoot).srem 4096#32 = 0 := by
    apply BitVec.eq_of_toNat_eq
    rw [toNat_srem _ hfits, hsize]
    exact Nat.mul_mod_right 4096 _
  have hlaid : Laid m (place files i) (last file.name) file.data (startOf 3 files i) :=
    (h.laid i file hi).2
  have hentry := h.place_entry hi
  unfold Fs.dirLookup dirNblock
  rw [if_pos hrem, Option.bind_some]
  rcases (dirScan_root h.tidy (.inl h.noGap) fun m f => strEq m f (last file.name)).ends with
    ⟨e, m', -, -, hgap, -⟩ | ⟨r, m', hres, hlooked, -, hnone, hfound⟩
  · exact absurd h.noGap hgap
  · rw [hres]
    have hsame := hlooked.same h.noGap
    subst hsame
    cases r with
    | none =>
      -- the entry of the file has the name
      rcases hentry.2 with ⟨k, j, hj, hk, he⟩
      have hnot := hnone rfl h.noGap _ ⟨k, j, hj, by rwa [h.dirBlocks_eq], he⟩
      have hyes := (hlaid.strEq_iff (hnames.nul file hmem) (hnames.nul file hmem)).2 rfl
      rw [hnot] at hyes
      cases hyes
    | some f =>
      rcases hfound f rfl with ⟨hf, hname⟩
      rcases h.entry_cases hf with ⟨i', he, -, ⟨file', hi'⟩ | hz⟩
      · have hlaid' := (h.laid i' file' hi').2
        rw [he] at hname
        have hbase := (hlaid'.strEq_iff (hnames.nul file' (List.mem_of_getElem? hi'))
          (hnames.nul file hmem)).1 hname
        rw [he, hnames.inj hi' hi hbase]
        rfl
      · -- an empty name is none of the names
        have hfirst := ((Fs.strEq_iff m' _ f).1 hname).1 0 (hnames.length file hmem).1
        refine absurd hfirst ?_
        rw [hz 0 (by decide)]
        exact Ne.symm (getD_ne_zero (hnames.nul file hmem) (hnames.length file hmem).1)

/-! ## Contents -/

theorem size_place (hi : files[i]? = some file) :
    (fSize m (place files i)).toNat = file.data.length := by
  have hlaid := h.laid i file hi
  rw [show fSize m (place files i) = _ from hlaid.2.size, BitVec.toNat_ofNat]
  exact Nat.mod_eq_of_lt (by omega)

/-- The blocks of a file hold its bytes, and zeros behind them. -/
theorem block_place (hi : files[i]? = some file) (hk : k < blocks file.data) :
    k < 1034 ∧ slot m (place files i) k ≠ 0 ∧
      ∀ o < 4096, m (slot m (place files i) k * 4096 + o) = file.data.getD (4096 * k + o) 0 := by
  have hlaid : Laid m (place files i) (last file.name) file.data (startOf 3 files i) :=
    (h.laid i file hi).2
  have hlt : k < 1034 := by
    have := (h.laid i file hi).1
    unfold blocks at hk
    omega
  have hthree : 3 ≤ startOf 3 files i := Nat.le_add_right 3 _
  have hslot : slot m (place files i) k = startOf 3 files i + k := by
    rw [hlaid.slots k (by omega), if_neg (by omega), if_pos hk]
  rw [hslot]
  refine ⟨hlt, by omega, fun o ho => ?_⟩
  rw [← hlaid.bytes (4096 * k + o) (by omega), Nat.add_mul, Nat.mul_comm _ 4096,
    Nat.mul_comm k 4096, Nat.add_assoc]

theorem fileRead_place (hi : files[i]? = some file) (count : BitVec 64)
    {offset : BitVec 32} (hoff : offset.toNat < 2 ^ 31) :
    fileRead m (place files i) count offset =
      some ((((file.data.drop offset.toNat).take count.toNat).length : Int),
        (file.data.drop offset.toNat).take count.toNat, m) := by
  have hsize := h.size_place hi
  have hlen := (h.laid i file hi).1
  have hentry := (h.place_entry hi).1
  have hread : readable m (place files i) count offset =
      min count.toNat (file.data.length - offset.toNat) := by
    unfold readable
    rw [hsize]
    split
    · next hle =>
      rw [BitVec.sle_iff_toInt_le, BitVec.toInt_eq_toNat_of_lt (by omega),
        BitVec.toInt_eq_toNat_of_lt (by omega)] at hle
      omega
    · rfl
  have hpresent : ∀ q, offset.toNat ≤ q →
      q < offset.toNat + readable m (place files i) count offset →
      q / 4096 < blocks file.data := by
    intro q hlo hhi
    rw [hread] at hhi
    unfold blocks
    omega
  rw [fileRead_present h.sane (h.entry_owns hentry) hoff]
  · have hout : (List.range (readable m (place files i) count offset)).map
        (fun t => byteAt m (place files i) (offset.toNat + t)) =
        (file.data.drop offset.toNat).take count.toNat := by
      refine List.ext_getElem ?_ fun t ht ht' => ?_
      · rw [List.length_map, List.length_range, List.length_take, List.length_drop, hread]
      · rw [List.length_map, List.length_range] at ht
        have hblock := h.block_place hi (hpresent (offset.toNat + t) (by omega) (by omega))
        have hbyte := hblock.2.2 ((offset.toNat + t) % 4096) (Nat.mod_lt _ (by decide))
        rw [List.getElem_map, List.getElem_range, List.getElem_take, List.getElem_drop]
        refine hbyte.trans ?_
        rw [show 4096 * ((offset.toNat + t) / 4096) + (offset.toNat + t) % 4096 =
          offset.toNat + t by omega, List.getD_eq_getElem?_getD,
          List.getElem?_eq_getElem (by omega)]
        rfl
    rw [hout, List.length_take, List.length_drop, hread]
  · intro q hlo hhi
    have hblock := h.block_place hi (hpresent q hlo hhi)
    exact ⟨hblock.1, hblock.2.1⟩

theorem listed (hnames : Names files) (hi : files[i]? = some file) :
    Listed m (place files i) := by
  have hmem := List.mem_of_getElem? hi
  have hlaid : Laid m (place files i) (last file.name) file.data (startOf 3 files i) :=
    (h.laid i file hi).2
  refine ⟨(h.place_entry hi).1, ?_⟩
  have hfirst := hlaid.name 0 (hnames.length file hmem).1
  rw [Nat.add_zero] at hfirst
  rw [hfirst]
  exact getD_ne_zero (hnames.nul file hmem) (hnames.length file hmem).1

/-- A block that no file has is free, but for the reserved ones. -/
theorem free_of_not_owned (hnames : Names files) (hlo : 3 ≤ b) (hhi : b < n)
    (hnot : ∀ f, Holder m f → ¬Owned m f b) : blockIsFree m b = true := by
  have hthree := three_le files
  have hcount := h.count
  rw [h.free]
  refine decide_eq_true ⟨?_, hhi⟩
  by_contra hlt
  by_cases hb : b < dirStart files
  · rcases startOf_find 3 b hlo hb with ⟨i, file, hi, h1, h2⟩
    have hstart : 3 ≤ startOf 3 files i := Nat.le_add_right 3 _
    refine hnot _ (.inr (h.listed hnames hi)) ?_
    exact (h.laid i file hi).2.all (h.laid i file hi).1 (by omega) h1 h2
  · have hk : b - dirStart files < dirBlocks files := by omega
    refine hnot sRoot (.inl rfl) ⟨by omega, b - dirStart files, ?_, ?_⟩
    · unfold dirBlocks at hk
      omega
    · rw [h.slots _ (by unfold dirBlocks at hk; omega), if_pos hk]
      omega

end

end Image

open Image

/-- What the file server finds on a formatted disk: every file under its name,
    with its size and its bytes, its blocks in order in the bitmap, and nothing
    else in use. -/
theorem fsformat_correct (n : Nat) (files : List Input) (img : Mem) (hne : files ≠ [])
    (hnames : Names files) (h : fsformat n files = some img) :
    (∀ file ∈ files, ∃ f, Listed img f ∧
      (∀ t, walkPath img (List.replicate t slash ++ last file.name) =
        some (.ok (some sRoot, f), img)) ∧
      (fSize img f).toNat = file.data.length ∧
      (∀ k < blocks file.data, ∃ a, fileGetBlock img f k = some (.ok a, img) ∧
        ∀ o < 4096, img (a + o) = file.data.getD (4096 * k + o) 0) ∧
      ∀ (count : BitVec 64) (offset : BitVec 32), offset.toNat < 2 ^ 31 →
        fileRead img f count offset =
          some ((((file.data.drop offset.toNat).take count.toNat).length : Int),
            (file.data.drop offset.toNat).take count.toNat, img)) ∧
    Exclusive img ∧ sNblocks img = n ∧
    (∀ b < 2 + nbitblocks img, blockIsFree img b = false) ∧
    ∀ b < n, 2 + nbitblocks img ≤ b → (∀ f, Holder img f → ¬Owned img f b) →
      blockIsFree img b = true := by
  have himg := fsformat_image hne (fun file hf => by
    have := (hnames.length file hf).2
    omega) h
  have hthree := three_le files
  refine ⟨?_, himg.tidy.exclusive, himg.nblocks, ?_, ?_⟩
  · intro file hfile
    rcases List.mem_iff_getElem?.1 hfile with ⟨i, hi⟩
    have hlen := hnames.length file hfile
    refine ⟨place files i, himg.listed hnames hi, fun t => ?_, himg.size_place hi, ?_,
      himg.fileRead_place hi⟩
    · exact walkPath_single t last_slash (List.length_pos_iff.1 hlen.1) (by omega)
        himg.type (himg.dirLookup hnames hi)
    · intro k hk
      have hblock := himg.block_place hi hk
      exact ⟨_, fileGetBlock_present himg.sane (himg.entry_owns (himg.place_entry hi).1) hblock.1
        hblock.2.1, hblock.2.2⟩
  · intro b hb
    rw [himg.bitmap] at hb
    exact himg.used (by omega)
  · intro b hb hlo hnot
    rw [himg.bitmap] at hlo
    exact himg.free_of_not_owned hnames hlo hb hnot

/-- A disk of six blocks with one file, which has one byte. -/
theorem fsformat_correct_single : ∃ img f, fsformat 6 [⟨[120, 47, 97], [7]⟩] = some img ∧
    walkPath img [47, 97] = some (.ok (some sRoot, f), img) ∧
    fileRead img f 5 0 = some (1, [7], img) := by
  have hnames : Names [⟨[120, 47, 97], [7]⟩] := ⟨by decide, by decide, by decide⟩
  have hsome : (fsformat 6 [⟨[120, 47, 97], [7]⟩]).isSome = true := by decide
  rcases Option.isSome_iff_exists.1 hsome with ⟨img, himg⟩
  have h := fsformat_correct 6 [⟨[120, 47, 97], [7]⟩] img (by decide) hnames himg
  rcases h.1 _ List.mem_cons_self with ⟨f, -, hwalk, -, -, hread⟩
  exact ⟨img, f, himg, hwalk 1, hread 5 0 (by decide)⟩

end Jos.Fs
