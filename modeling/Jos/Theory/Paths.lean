import Jos.Theory.ReadBack
import Mathlib.Data.List.TakeWhile

/-!
# Path Resolution

`walk_path` goes through the characters of a path and looks up one name after
the other. What it finds depends on the names between the slashes only: leading,
repeated and trailing slashes make no difference. For a tree in which no block of
a directory is missing, the search also leaves the disk as it is.

A path is given by its components. A component leads from a directory to the first
entry with that name, and the components of a path one after the other from the
root to the file. The ways in which this can fail are the ways in which
`walk_path` fails.

## Main definitions

* `components`: The names in a path.
* `entries`, `find`: The entries of a directory, and the first one with a name.
* `Leads`: Looking up components one after the other.
* `Whole`: No block of a directory in the tree is missing.
* `resolve`: The result that the components determine.

## Theorems

* `components_skip`, `components_next`: How the scan of a path takes it apart.
* `dirLookup_eq`: Looking up one name.
* `walkPath_eq`: The walk is the resolution of the components.
* `resolve_ok_iff`, `resolve_bad_iff`, `resolve_missing_iff`, `resolve_last_iff`: The
  outcomes.
* `walkPath_resolves`: Path resolution.
-/

namespace Jos.Fs

open Lib.Bytes (load store)

variable {dir f g e : Nat} {names : List (List (BitVec 8))} {name : List (BitVec 8)}
  {Q : Nat → List (BitVec 8) → List (List (BitVec 8)) → Prop} {m : Mem} {c : BitVec 8}

/-! ## Components -/

/-- The names between the slashes of a path. -/
def components (path : List (BitVec 8)) : List (List (BitVec 8)) :=
  (path.splitOnP (· == slash)).filter (· ≠ [])

theorem components_nil : components [] = [] := rfl

variable (path : List (BitVec 8))

theorem components_slash :
    components (slash :: path) = components path := by
  unfold components
  rw [List.splitOnP_cons_eq_if_modifyHead, if_pos (beq_self_eq_true slash)]
  exact List.filter_cons_of_neg (by simp)

/-- Slashes in front make no difference. -/
theorem components_skip :
    components (skipSlash path) = components path := by
  induction path with
  | nil => rfl
  | cons c path ih =>
    unfold skipSlash at ih ⊢
    rw [List.dropWhile_cons]
    by_cases hc : (c == slash) = true
    · rw [if_pos hc, ih, beq_iff_eq.1 hc, components_slash]
    · rw [if_neg hc]

/-- A path that does not begin with a slash begins with its first component. -/
theorem components_next (hc : c ≠ slash) :
    components (c :: path) = (c :: path).takeWhile (· != slash) ::
      components (skipSlash ((c :: path).dropWhile (· != slash))) := by
  have hname : (c :: path).takeWhile (· != slash) ≠ [] := by
    rw [List.takeWhile_cons, if_pos (bne_iff_ne.2 hc)]
    exact List.cons_ne_nil _ _
  have hfree : ∀ x ∈ (c :: path).takeWhile (· != slash), (x == slash) = false := by
    intro x hx
    have := List.mem_takeWhile_imp hx
    rwa [bne, Bool.not_eq_true'] at this
  have hsplit := List.takeWhile_append_dropWhile (p := (· != slash)) (l := c :: path)
  rw [components_skip]
  generalize (c :: path).takeWhile (· != slash) = name at hname hfree hsplit ⊢
  cases hrest : (c :: path).dropWhile (· != slash) with
  | nil =>
    -- the path ends with this component
    rw [hrest, List.append_nil] at hsplit
    rw [← hsplit, components_nil]
    unfold components
    rw [List.splitOnP_eq_singleton hfree]
    exact List.filter_cons_of_pos (by simpa using hname)
  | cons s rest =>
    have hs : s = slash := by
      have hhead := List.head_dropWhile_not (· != slash) (l := c :: path)
        (hrest ▸ List.cons_ne_nil _ _)
      simp only [hrest, List.head_cons] at hhead
      simpa using hhead
    rw [hrest] at hsplit
    rw [← hsplit, hs, components_slash]
    unfold components
    rw [List.splitOnP_append_cons_of_forall_mem hfree slash (beq_self_eq_true slash)]
    exact List.filter_cons_of_pos (by simpa using hname)

/-- A path without components is one of slashes. -/
theorem components_eq_nil (h : ∀ c rest, path = c :: rest → c ≠ slash) :
    components path = [] ↔ path = [] := by
  cases path with
  | nil => exact iff_of_true rfl rfl
  | cons c rest =>
    rw [components_next rest (h c rest rfl)]
    exact iff_of_false (List.cons_ne_nil _ _) (List.cons_ne_nil _ _)

/-- The rest of a path behind its first component is shorter. -/
theorem length_next (hc : c ≠ slash) :
    (skipSlash ((c :: path).dropWhile (· != slash))).length ≤ path.length := by
  rw [List.dropWhile_cons, if_pos (bne_iff_ne.2 hc)]
  exact le_trans (List.dropWhile_suffix _).length_le (List.dropWhile_suffix _).length_le

/-- What `skip_slash` leaves is empty or does not begin with a slash. -/
theorem skipSlash_head {rest : List (BitVec 8)} (h : skipSlash path = c :: rest) : c ≠ slash := by
  have hhead := List.head_dropWhile_not (· == slash) (l := path)
    (by unfold skipSlash at h; rw [h]; exact List.cons_ne_nil _ _)
  unfold skipSlash at h
  simp only [h, List.head_cons] at hhead
  simpa using hhead

/-! ## Directories -/

/-- `dir->f_size / BLKSIZE` -/
def nblock (m : Mem) (dir : Nat) : Nat := ((fSize m dir).sdiv 4096#32).toNat

/-- The size of the directory is a whole number of blocks, and the blocks are
    there. -/
structure Allocated (m : Mem) (dir : Nat) : Prop where
  whole : (fSize m dir).srem 4096#32 = 0
  block : ∀ k < nblock m dir, k < 1034 ∧ slot m dir k ≠ 0 ∧ slot m dir k < sNblocks m ∧
    (10 ≤ k → fIndirect m dir < sNblocks m)

/-- The entries in `n` blocks of a directory from block `i` on. -/
def entriesFrom (m : Mem) (dir i n : Nat) : List Nat :=
  (List.range' i n).flatMap fun k => (List.range 16).map fun j => slot m dir k * 4096 + 256 * j

/-- All entries of a directory. -/
def entries (m : Mem) (dir : Nat) : List Nat := entriesFrom m dir 0 (nblock m dir)

/-- The first entry with a name. -/
def find (m : Mem) (dir : Nat) (name : List (BitVec 8)) : Option Nat :=
  (entries m dir).find? fun f => strEq m f name

/-- A block that is there is found without allocating anything. -/
theorem fileGetBlock_there {k : Nat} (hk : k < 1034) (hne : slot m dir k ≠ 0)
    (hlt : slot m dir k < sNblocks m) (hind : 10 ≤ k → fIndirect m dir < sNblocks m) :
    fileGetBlock m dir k = some (.ok (slot m dir k * 4096), m) := by
  have hi : k < 10 ∨ fIndirect m dir ≠ 0 := by
    by_cases hd : k < 10
    · exact .inl hd
    · exact .inr fun hz => hne (slot_none (by omega) hk.le hz)
  have hwalk : fileBlockWalk m dir k true = some (.ok (cell m dir k), m) := by
    unfold fileBlockWalk cell
    rw [if_neg (by omega)]
    by_cases hd : k < 10
    · rw [if_pos hd, if_pos hd]
    · have hz := hi.resolve_left hd
      rw [if_neg hd, if_neg hd, needIndirect, if_pos hz]
      simp only [Lib.Outcome.andThen, diskaddr_some hz (hind (by omega)), Option.map_some]
  have hload := load_cell hk hi
  unfold fileGetBlock
  rw [hwalk]
  simp only [Lib.Outcome.andThen, needBlock, hload, if_pos hne, diskaddr_some hne hlt,
    Option.map_some]

/-- Looking through blocks that are there. -/
theorem dirScan_eq (p : Mem → Nat → Bool) (m : Mem) (dir n : Nat) : ∀ i,
    (∀ k, i ≤ k → k < i + n → k < 1034 ∧ slot m dir k ≠ 0 ∧ slot m dir k < sNblocks m ∧
      (10 ≤ k → fIndirect m dir < sNblocks m)) →
    dirScan p dir n i m = some (.ok ((entriesFrom m dir i n).find? (p m)), m) := by
  induction n with
  | zero =>
    intro i _
    rfl
  | succ n ih =>
    intro i h
    rcases h i le_rfl (by omega) with ⟨hk, hne, hlt, hind⟩
    have hrest := ih (i + 1) fun k hlo hhi => h k (by omega) (by omega)
    have hentries : entriesFrom m dir i (n + 1) =
        ((List.range 16).map fun j => slot m dir i * 4096 + 256 * j) ++
          entriesFrom m dir (i + 1) n := by
      unfold entriesFrom
      rw [List.range'_succ, List.flatMap_cons]
    rw [dirScan, fileGetBlock_there hk hne hlt hind, hentries, List.find?_append, List.find?_map]
    simp only [Lib.Outcome.andThen, Function.comp_def]
    cases (List.range 16).find? fun j => p m (slot m dir i * 4096 + 256 * j) with
    | some j => rfl
    | none => exact hrest

/-- `dir_lookup` in a directory without missing blocks. -/
theorem dirLookup_eq (h : Allocated m dir) (name : List (BitVec 8)) :
    dirLookup m dir name =
      (find m dir name).elim (some (.error eNotFound, m)) fun f => some (.ok f, m) := by
  have hscan := dirScan_eq (fun m f => strEq m f name) m dir (nblock m dir) 0
    fun k _ hk => h.block k (by omega)
  unfold dirLookup dirNblock find entries
  rw [if_pos h.whole, Option.bind_some]
  unfold nblock at hscan ⊢
  rw [hscan]
  simp only [Lib.Outcome.andThen]
  cases (entriesFrom m dir 0 ((fSize m dir).sdiv 4096#32).toNat).find?
    fun f => strEq m f name with
  | none => rfl
  | some f => rfl

/-! ## The tree -/

/-- Looking up components one after the other leads from a file to a file: all
    names fit, and each but the last one is that of a directory. -/
inductive Leads (m : Mem) : Nat → List (List (BitVec 8)) → Nat → Prop
  | here (f : Nat) : Leads m f [] f
  | down {f g e : Nat} {name : List (BitVec 8)} {names : List (List (BitVec 8))} :
      name.length < 128 → fType m f = 1 → find m f name = some g → Leads m g names e →
        Leads m f (name :: names) e

/-- No block of a directory in the tree is missing. -/
def Whole (m : Mem) : Prop :=
  ∀ names dir, Leads m sRoot names dir → fType m dir = 1 → Allocated m dir

/-- The file that the components lead to, with its directory, or what is wrong
    with the first component that leads nowhere. -/
def resolve (m : Mem) : Option Nat → Nat → List (List (BitVec 8)) → Walk
  | dir, f, [] => .ok (dir, f)
  | _, f, name :: names =>
    if 128 ≤ name.length then .error (eBadPath, none)
    else if fType m f ≠ 1 then .error (eNotFound, none)
    else
      (find m f name).elim
        (.error (eNotFound, if names = [] then some (f, name) else none))
        fun g => resolve m (some f) g names

theorem Leads.trans {names' : List (List (BitVec 8))} (h : Leads m f names g)
    (h' : Leads m g names' e) : Leads m f (names ++ names') e := by
  induction h with
  | here f => exact h'
  | down hlen htype hfind _ ih => exact Leads.down hlen htype hfind (ih h')

/-- The loop of `walk_path` is the resolution of the components that are left. -/
theorem walkFrom_eq (hwhole : Whole m) {n : Nat} :
    ∀ (dir : Option Nat) (f : Nat) (path : List (BitVec 8)) (names : List (List (BitVec 8))),
      Leads m sRoot names f → (∀ c rest, path = c :: rest → c ≠ slash) → path.length ≤ n →
      walkFrom n dir f path m = some (resolve m dir f (components path), m) := by
  induction n with
  | zero =>
    intro dir f path names _ _ hlen
    rw [List.eq_nil_of_length_eq_zero (Nat.le_zero.1 hlen)]
    rfl
  | succ n ih =>
    intro dir f path names hleads hhead hlen
    cases path with
    | nil => rfl
    | cons c rest =>
      have hc := hhead c rest rfl
      have hshort := length_next rest hc
      rw [List.length_cons] at hlen
      rw [walkFrom, if_neg (List.cons_ne_nil c rest), components_next rest hc]
      simp only [resolve]
      -- the first component of what is left
      generalize hname : (c :: rest).takeWhile (· != slash) = name
      by_cases hlong : 128 ≤ name.length
      · rw [if_pos hlong, if_pos hlong]
      rw [if_neg hlong, if_neg hlong]
      by_cases htype : fType m f ≠ 1
      · rw [if_pos htype, if_pos htype]
      rw [if_neg htype, if_neg htype]
      rw [not_not] at htype
      rw [dirLookup_eq (hwhole names f hleads htype)]
      cases hfind : find m f name with
      | none =>
        have hlast := components_eq_nil
          (skipSlash ((c :: rest).dropWhile (· != slash))) fun _ _ h => skipSlash_head _ h
        simp only [Option.elim_none, true_and, hlast]
      | some g =>
        simp only [Option.elim_some]
        have hdown := hleads.trans
          (Leads.down (Nat.lt_of_not_le hlong) htype hfind (Leads.here g))
        refine ih (some f) g _ _ hdown ?_ (by omega)
        intro c' rest' hrest
        exact skipSlash_head _ hrest

/-- `walk_path` in a whole tree. -/
theorem walkPath_eq (hwhole : Whole m) (path : List (BitVec 8)) :
    walkPath m path = some (resolve m none sRoot (components path), m) := by
  unfold walkPath
  rw [← components_skip path]
  exact walkFrom_eq hwhole none sRoot _ [] (Leads.here sRoot)
    (fun c rest h => skipSlash_head path h) le_rfl

/-! ## The outcomes -/

section

variable {m : Mem}

/-- The resolution of a component that leads somewhere. -/
theorem resolve_down {dir : Option Nat} (hlen : name.length < 128) (htype : fType m f = 1)
    (hfind : find m f name = some g) :
    resolve m dir f (name :: names) = resolve m (some f) g names := by
  rw [resolve, if_neg (by omega), if_neg (not_not.2 htype), hfind, Option.elim_some]

/-- What becomes of the first component: it leads somewhere, it is too long, or it
    is not found. -/
theorem resolve_cases (dir : Option Nat) (f : Nat) (name : List (BitVec 8))
    (names : List (List (BitVec 8))) :
    (∃ g, name.length < 128 ∧ fType m f = 1 ∧ find m f name = some g) ∨
    (128 ≤ name.length ∧ resolve m dir f (name :: names) = .error (eBadPath, none)) ∨
    (name.length < 128 ∧ fType m f ≠ 1 ∧
      resolve m dir f (name :: names) = .error (eNotFound, none)) ∨
    (name.length < 128 ∧ fType m f = 1 ∧ find m f name = none ∧
      resolve m dir f (name :: names) =
        .error (eNotFound, if names = [] then some (f, name) else none)) := by
  by_cases hlong : 128 ≤ name.length
  · right; left
    exact ⟨hlong, by rw [resolve, if_pos hlong]⟩
  have hlen : name.length < 128 := by omega
  by_cases htype : fType m f = 1
  · cases hfind : find m f name with
    | some g => exact .inl ⟨g, hlen, htype, rfl⟩
    | none =>
      right; right; right
      refine ⟨hlen, htype, rfl, ?_⟩
      rw [resolve, if_neg hlong, if_neg (not_not.2 htype), hfind, Option.elim_none]
  · right; right; left
    exact ⟨hlen, htype, by rw [resolve, if_neg hlong, if_pos htype]⟩

/-- The first component on the way is the same for both. -/
theorem Leads.tail (h : Leads m f (name :: names) e) (hfind : find m f name = some g) :
    Leads m g names e := by
  cases h with
  | down _ _ hfind' hrest =>
    rw [hfind, Option.some.injEq] at hfind'
    rwa [hfind']

/-- A file is found if the components lead to it; with it comes the directory that
    all but the last of them lead to. -/
theorem resolve_ok_iff (names : List (List (BitVec 8))) : ∀ (dir : Option Nat) (f : Nat)
    (d : Option Nat) (e : Nat), resolve m dir f names = .ok (d, e) ↔
      Leads m f names e ∧
        (names = [] ∧ d = dir ∨ names ≠ [] ∧ ∃ g, d = some g ∧ Leads m f names.dropLast g) := by
  induction names with
  | nil =>
    intro dir f d e
    rw [resolve, Except.ok.injEq, Prod.mk.injEq]
    constructor
    · rintro ⟨rfl, rfl⟩
      exact ⟨Leads.here f, .inl ⟨rfl, rfl⟩⟩
    · rintro ⟨hleads, ⟨-, rfl⟩ | ⟨hne, -⟩⟩
      · cases hleads
        exact ⟨rfl, rfl⟩
      · exact absurd rfl hne
  | cons name names ih =>
    intro dir f d e
    rcases resolve_cases (m := m) dir f name names with ⟨g, hlen, htype, hfind⟩ |
      ⟨hlong, hres⟩ | ⟨hlen, htype, hres⟩ | ⟨hlen, htype, hfind, hres⟩
    · rw [resolve_down hlen htype hfind, ih]
      -- both sides go through `g`
      have hstep : ∀ ns x, Leads m g ns x ↔ Leads m f (name :: ns) x := fun ns x =>
        ⟨Leads.down hlen htype hfind, fun h => h.tail hfind⟩
      cases names with
      | nil =>
        rw [← hstep]
        simp only [List.dropLast_singleton, ne_eq, reduceCtorEq, not_false_eq_true, true_and,
          false_and, false_or, not_true_eq_false, or_false]
        refine and_congr_right fun _ => ⟨fun h => ⟨f, h, Leads.here f⟩, ?_⟩
        rintro ⟨g', rfl, hg'⟩
        cases hg'
        rfl
      | cons name' names =>
        rw [← hstep, List.dropLast_cons_of_ne_nil (List.cons_ne_nil name' names)]
        simp only [ne_eq, reduceCtorEq, not_false_eq_true, true_and, false_and, false_or]
        exact and_congr_right fun _ => exists_congr fun g' => and_congr_right fun _ => hstep _ _
    · rw [hres]
      refine iff_of_false (by simp) fun h => ?_
      cases h.1 with
      | down hlen => omega
    · rw [hres]
      refine iff_of_false (by simp) fun h => ?_
      cases h.1 with
      | down _ htype' => exact htype htype'
    · rw [hres]
      refine iff_of_false (by simp) fun h => ?_
      cases h.1 with
      | down _ _ hfind' =>
        rw [hfind] at hfind'
        cases hfind'

/-- One of the components is such that `Q` holds of it: of the file that the ones
    before it lead to, of the name, and of the components after it. -/
def Meets (m : Mem) (f : Nat) (names : List (List (BitVec 8)))
    (Q : Nat → List (BitVec 8) → List (List (BitVec 8)) → Prop) : Prop :=
  ∃ pre name post g, names = pre ++ name :: post ∧ Leads m f pre g ∧ Q g name post

theorem meets_cons (hlen : name.length < 128) (htype : fType m f = 1)
    (hfind : find m f name = some g) (hnot : ¬Q f name names) :
    Meets m f (name :: names) Q ↔ Meets m g names Q := by
  constructor
  · rintro ⟨pre, name', post, g', hsplit, hleads, hQ⟩
    cases pre with
    | nil =>
      rw [List.nil_append, List.cons.injEq] at hsplit
      cases hleads
      rw [← hsplit.1, ← hsplit.2] at hQ
      exact absurd hQ hnot
    | cons first pre =>
      rw [List.cons_append, List.cons.injEq] at hsplit
      rw [← hsplit.1] at hleads
      exact ⟨pre, name', post, g', hsplit.2, hleads.tail hfind, hQ⟩
  · rintro ⟨pre, name', post, g', rfl, hleads, hQ⟩
    exact ⟨name :: pre, name', post, g', rfl, Leads.down hlen htype hfind hleads, hQ⟩

/-- A component that leads nowhere is the only one that is reached and of which
    something can hold that holds of no component that leads somewhere. -/
theorem meets_stop (hstop : ¬(name.length < 128 ∧ fType m f = 1 ∧ ∃ g, find m f name = some g)) :
    Meets m f (name :: names) Q ↔ Q f name names := by
  constructor
  · rintro ⟨pre, name', post, g', hsplit, hleads, hQ⟩
    cases pre with
    | nil =>
      rw [List.nil_append, List.cons.injEq] at hsplit
      cases hleads
      rwa [hsplit.1, hsplit.2]
    | cons first pre =>
      rw [List.cons_append, List.cons.injEq] at hsplit
      rw [← hsplit.1] at hleads
      cases hleads with
      | down hlen htype hfind _ => exact absurd ⟨hlen, htype, _, hfind⟩ hstop
  · intro hQ
    exact ⟨[], name, names, f, rfl, Leads.here f, hQ⟩

/-- The rule for errors: what is said of them (`E`) is what is said of the
    component that leads nowhere (`Q`), in each of the three cases. -/
theorem resolve_error_iff {E : Int × Option (Nat × List (BitVec 8)) → Prop}
    (hdown : ∀ g name post e, name.length < 128 → fType m g = 1 → find m g name = some e →
      ¬Q g name post)
    (hlong : ∀ g name post, 128 ≤ name.length → (E (eBadPath, none) ↔ Q g name post))
    (hfile : ∀ g name post, name.length < 128 → fType m g ≠ 1 →
      (E (eNotFound, none) ↔ Q g name post))
    (hnone : ∀ g name post, name.length < 128 → fType m g = 1 → find m g name = none →
      (E (eNotFound, if post = [] then some (g, name) else none) ↔ Q g name post))
    (names : List (List (BitVec 8))) : ∀ (dir : Option Nat) (f : Nat),
    (∃ x, resolve m dir f names = .error x ∧ E x) ↔ Meets m f names Q := by
  have hone : ∀ x, (∃ y, (Except.error x : Walk) = .error y ∧ E y) ↔ E x := by
    intro x
    constructor
    · rintro ⟨y, hy, hE⟩
      rw [Except.error.injEq] at hy
      rwa [hy]
    · exact fun hE => ⟨x, rfl, hE⟩
  induction names with
  | nil =>
    intro dir f
    refine iff_of_false ?_ ?_
    · rintro ⟨x, hx, -⟩
      cases hx
    · rintro ⟨pre, name, post, g, hsplit, -⟩
      exact absurd hsplit.symm (by simp)
  | cons name names ih =>
    intro dir f
    rcases resolve_cases (m := m) dir f name names with ⟨g, hlen, htype, hfind⟩ |
      ⟨hlen, hres⟩ | ⟨hlen, htype, hres⟩ | ⟨hlen, htype, hfind, hres⟩
    · rw [resolve_down hlen htype hfind, ih,
        meets_cons hlen htype hfind (hdown f name names g hlen htype hfind)]
    · rw [hres, hone, meets_stop fun h => absurd h.1 (by omega)]
      exact hlong f name names hlen
    · rw [hres, hone, meets_stop fun h => htype h.2.1]
      exact hfile f name names hlen htype
    · rw [hres, hone, meets_stop fun h => by
        rcases h.2.2 with ⟨g, hg⟩
        rw [hfind] at hg
        cases hg]
      exact hnone f name names hlen htype hfind

/-- `-E_BAD_PATH`: a component is reached that is too long. -/
theorem resolve_bad_iff (names : List (List (BitVec 8))) (dir : Option Nat) (f : Nat) :
    (∃ x, resolve m dir f names = .error x ∧ x.1 = eBadPath) ↔
      Meets m f names fun _ name _ => 128 ≤ name.length := by
  have hne : eNotFound ≠ eBadPath := by decide
  refine resolve_error_iff ?_ ?_ ?_ ?_ names dir f
  · intro g name post e hlen _ _
    omega
  · intro g name post hlen
    exact iff_of_true rfl hlen
  · intro g name post hlen _
    exact iff_of_false hne (by omega)
  · intro g name post hlen _ _
    exact iff_of_false hne (by omega)

/-- `-E_NOT_FOUND`: a component is reached in a file that is no directory, or in a
    directory that has no such entry. -/
theorem resolve_missing_iff (names : List (List (BitVec 8))) (dir : Option Nat) (f : Nat) :
    (∃ x, resolve m dir f names = .error x ∧ x.1 = eNotFound) ↔
      Meets m f names fun g name _ =>
        name.length < 128 ∧ (fType m g ≠ 1 ∨ find m g name = none) := by
  have hne : eBadPath ≠ eNotFound := by decide
  refine resolve_error_iff ?_ ?_ ?_ ?_ names dir f
  · rintro g name post e hlen htype hfind ⟨-, hnot | hnot⟩
    · exact hnot htype
    · rw [hfind] at hnot
      cases hnot
  · intro g name post hlen
    exact iff_of_false hne fun h => absurd h.1 (by omega)
  · intro g name post hlen htype
    exact iff_of_true rfl ⟨hlen, .inl htype⟩
  · intro g name post hlen _ hfind
    exact iff_of_true rfl ⟨hlen, .inr hfind⟩

/-- The directory and the name are handed out if only the last component is
    missing. -/
theorem resolve_last_iff (names : List (List (BitVec 8))) (dir : Option Nat) (f d : Nat)
    (last : List (BitVec 8)) :
    (∃ x, resolve m dir f names = .error x ∧ x.2 = some (d, last)) ↔
      Meets m f names fun g name post => post = [] ∧ g = d ∧ name = last ∧
        name.length < 128 ∧ fType m g = 1 ∧ find m g name = none := by
  refine resolve_error_iff ?_ ?_ ?_ ?_ names dir f
  · rintro g name post e - - hfind ⟨-, -, -, -, -, hnone⟩
    rw [hfind] at hnone
    cases hnone
  · intro g name post hlen
    exact iff_of_false (by simp) fun h => absurd h.2.2.2.1 (by omega)
  · intro g name post _ htype
    exact iff_of_false (by simp) fun h => htype h.2.2.2.2.1
  · intro g name post hlen htype hfind
    by_cases hpost : post = []
    · rw [if_pos hpost, Option.some.injEq, Prod.mk.injEq]
      exact ⟨fun h => ⟨hpost, h.1, h.2, hlen, htype, hfind⟩, fun h => ⟨h.2.1, h.2.2.1⟩⟩
    · rw [if_neg hpost]
      exact iff_of_false (by simp) fun h => hpost h.1

/-- There are no other errors. -/
theorem resolve_code : ∀ (dir : Option Nat) (f : Nat)
    (x : Int × Option (Nat × List (BitVec 8))), resolve m dir f names = .error x →
      x.1 = eBadPath ∨ x.1 = eNotFound := by
  induction names with
  | nil =>
    intro dir f x h
    cases h
  | cons name names ih =>
    intro dir f x h
    rcases resolve_cases (m := m) dir f name names with ⟨g, hlen, htype, hfind⟩ |
      ⟨-, hres⟩ | ⟨-, -, hres⟩ | ⟨-, -, -, hres⟩
    · rw [resolve_down hlen htype hfind] at h
      exact ih _ _ x h
    · rw [hres, Except.error.injEq] at h
      exact .inl (by rw [← h])
    · rw [hres, Except.error.injEq] at h
      exact .inr (by rw [← h])
    · rw [hres, Except.error.injEq] at h
      exact .inr (by rw [← h])

end

/-- What `walk_path` reports is what the components say, looked up one after the
    other from the root. -/
structure Resolved (m : Mem) (names : List (List (BitVec 8))) (w : Walk) : Prop where
  found : ∀ d e, w = .ok (d, e) ↔ Leads m sRoot names e ∧
    (names = [] ∧ d = none ∨ names ≠ [] ∧ ∃ g, d = some g ∧ Leads m sRoot names.dropLast g)
  long : (∃ x, w = .error x ∧ x.1 = eBadPath) ↔
    Meets m sRoot names fun _ name _ => 128 ≤ name.length
  missing : (∃ x, w = .error x ∧ x.1 = eNotFound) ↔
    Meets m sRoot names fun g name _ =>
      name.length < 128 ∧ (fType m g ≠ 1 ∨ find m g name = none)
  last : ∀ dir name, (∃ r, w = .error (r, some (dir, name))) ↔
    ∃ pre, names = pre ++ [name] ∧ Leads m sRoot pre dir ∧ name.length < 128 ∧
      fType m dir = 1 ∧ find m dir name = none
  code : ∀ x, w = .error x → x.1 = eBadPath ∨ x.1 = eNotFound

/-- The only directory of the disk with one file is the root. -/
theorem oneFile_whole : Whole oneFile := by
  have hfiles : ∀ g ∈ entries oneFile sRoot, fType oneFile g = 0 := by decide
  intro names dir hleads htype
  cases hleads with
  | here => exact ⟨by decide, by decide⟩
  | down _ _ hfind hrest =>
    have hfile := hfiles _ (List.mem_of_find?_eq_some hfind)
    -- a path ends in a file that is no directory
    cases hrest with
    | here =>
      rw [htype] at hfile
      cases hfile
    | down _ htype' =>
      rw [htype'] at hfile
      cases hfile

/-- In a tree without missing directory blocks, `walk_path` leaves the disk alone
    and its result depends on the components of the path only. -/
theorem walkPath_resolves (m : Mem) (hwhole : Whole m) (path : List (BitVec 8)) :
    ∃ w, walkPath m path = some (w, m) ∧ Resolved m (components path) w ∧
      ∀ path', components path' = components path → walkPath m path' = some (w, m) := by
  refine ⟨_, walkPath_eq hwhole path, ⟨?_, ?_, ?_, ?_, ?_⟩, fun path' h => ?_⟩
  · exact resolve_ok_iff _ none sRoot
  · exact resolve_bad_iff _ none sRoot
  · exact resolve_missing_iff _ none sRoot
  · intro dir name
    have hlast := resolve_last_iff (m := m) (components path) none sRoot dir name
    constructor
    · rintro ⟨r, hr⟩
      rcases hlast.1 ⟨_, hr, rfl⟩ with ⟨pre, _, _, _, hsplit, hleads, rfl, rfl, rfl, hrest⟩
      exact ⟨pre, hsplit, hleads, hrest⟩
    · rintro ⟨pre, hsplit, hleads, hrest⟩
      rcases hlast.2 ⟨pre, name, [], dir, hsplit, hleads, rfl, rfl, rfl, hrest⟩ with
        ⟨⟨r, o⟩, hx, ho⟩
      dsimp only at ho
      rw [ho] at hx
      exact ⟨r, hx⟩
  · exact resolve_code none sRoot
  · rw [walkPath_eq hwhole path', h]

theorem walkPath_resolves_oneFile : Whole oneFile ∧
    ∃ w, walkPath oneFile [slash, slash, 97, slash] = some (w, oneFile) ∧
      Resolved oneFile [[97]] w := by
  rcases walkPath_resolves oneFile oneFile_whole [slash, slash, 97, slash] with
    ⟨w, hw, hresolved, -⟩
  exact ⟨oneFile_whole, w, hw, hresolved⟩

end Jos.Fs
