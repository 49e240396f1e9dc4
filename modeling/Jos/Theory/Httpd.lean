import Jos.Core.Httpd
import Mathlib.Data.List.TakeWhile

/-!
# Requests and Answers

Which requests are parsed within what was received, and what is sent of a file. The buffer is
not terminated, so a request that is cut off is read on into the stack. A request that is
refused leaves the pointers as they were on the stack, and they are freed. The body is never
the file, since a line end is printed after it.

## Main definitions

* `Safe`: The reads are within the request, and the pointers come from `malloc`.
* `RequestLine`: A `GET` with both delimiters.
* `Agrees`: The body is the file.

## Theorems

* `scan_eq`, `exists_of_scan_lt`: Where a scan ends.
* `httpRequestParse_safe_iff`: The requests that are safe are those with a request line.
* `sendFile_not_agrees`: No file is sent as it is.
-/

namespace Jos.Httpd

open List (append_assoc drop_drop append_nil length_append length_cons)

/-- With `rcv` in the buffer and anything behind it, the reads stay within `rcv` and a NUL
    that follows it in the buffer, and no other pointers are freed than those from `malloc`. -/
def Safe (rcv : List (BitVec 8)) : Prop :=
  ∀ (behind : List (BitVec 8)) (req : Request) (url version : BitVec 64),
    let p := httpRequestParse req url version (rcv ++ behind)
    (p.reads ≤ rcv.length ∨
      p.reads = rcv.length + 1 ∧ rcv.length < 512 ∧ behind.head? = some 0) ∧
    ∀ q ∈ p.freed, q = 0 ∨ q ∈ p.owned

/-- The bytes before a delimiter. -/
def Plain (stop : BitVec 8) (s : List (BitVec 8)) : Prop := ∀ c ∈ s, c ≠ 0 ∧ c ≠ stop

/-- A request line, with the space after the URL and the line end, or a NUL for either. -/
def RequestLine (rcv : List (BitVec 8)) : Prop :=
  ∃ url x version y rest, rcv = get ++ (url ++ x :: (version ++ y :: rest)) ∧
    Plain 32 url ∧ (x = 0 ∨ x = 32) ∧ Plain 10 version ∧ (y = 0 ∨ y = 10)

variable {stop x : BitVec 8} {s : List (BitVec 8)}

theorem scan_eq (hs : Plain stop s) (hx : x = 0 ∨ x = stop) (l : List (BitVec 8)) :
    scan stop (s ++ x :: l) = s.length := by
  rw [scan, List.takeWhile_append_of_pos fun c hc => by simpa using hs c hc,
    List.takeWhile_cons_of_neg (by rcases hx with rfl | rfl <;> simp), append_nil]

/-- A scan that ends in `s` has found a delimiter. -/
theorem exists_of_scan_lt (h : scan stop s < s.length) :
    ∃ u x l, s = u ++ x :: l ∧ Plain stop u ∧ (x = 0 ∨ x = stop) ∧ u.length = scan stop s := by
  have hsplit := List.takeWhile_append_dropWhile (p := fun c => c != 0 && c != stop) (l := s)
  have hplain : Plain stop (s.takeWhile fun c => c != 0 && c != stop) :=
    fun c hc => by simpa using List.mem_takeWhile_imp hc
  cases hdrop : s.dropWhile fun c => c != 0 && c != stop with
  | nil =>
    rw [hdrop, append_nil] at hsplit
    rw [scan, hsplit] at h
    exact absurd h (Nat.lt_irrefl _)
  | cons x l =>
    have hx := List.head?_dropWhile_not (fun c => c != 0 && c != stop) s
    rw [hdrop] at hx
    refine ⟨_, x, l, (hdrop ▸ hsplit).symm, hplain, ?_, rfl⟩
    simpa [imp_iff_not_or] using hx

theorem strncmp_get (l : List (BitVec 8)) : strncmp (get ++ l) get = (true, 4) := by
  simp [strncmp, get]

theorem isPrefix_of_strncmp : ∀ (s : List (BitVec 8)) {q : List (BitVec 8)}, 0 ∉ q →
    (strncmp s q).1 = true → q <+: s
  | _, [], _, _ => List.nil_prefix
  | [], _ :: _, _, h => by simp [strncmp] at h
  | p :: ps, c :: cs, hq, h => by
    rw [List.mem_cons, not_or] at hq
    by_cases hp : p ≠ 0 ∧ p = c
    · rw [strncmp, if_pos hp] at h
      rw [hp.2]
      exact List.cons_prefix_cons.2 ⟨rfl, isPrefix_of_strncmp ps hq.2 h⟩
    · rw [strncmp, if_neg hp] at h
      have heq : p = c := by simpa using h
      exact absurd ⟨heq ▸ Ne.symm hq.1, heq⟩ hp

/-- What is parsed after the `GET`. -/
theorem httpRequestParse_get (req : Request) (url version : BitVec 64) (l : List (BitVec 8)) :
    httpRequestParse req url version (get ++ l) =
      ⟨0, ⟨url, version⟩, 4 + scan 32 l + 1 + scan 10 (l.drop (scan 32 l + 1)) + 1,
        [url, version]⟩ := by
  rw [httpRequestParse, strncmp_get]
  simp only [show (get ++ l).drop 4 = l from rfl,
    show 4 + scan 32 l + 1 = 4 + (scan 32 l + 1) from rfl, ← drop_drop]

theorem Safe.get_prefix {rcv : List (BitVec 8)} (h : Safe rcv) : get <+: rcv := by
  have hfree := (h [] ⟨1, 1⟩ 0 0).2 1
  rw [append_nil, httpRequestParse] at hfree
  refine isPrefix_of_strncmp rcv (by decide) ?_
  -- Otherwise the pointers of the stack are freed.
  cases hcmp : strncmp rcv get with
  | mk same n =>
    cases same with
    | true => rfl
    | false =>
      rw [hcmp] at hfree
      exact absurd (hfree (by simp [Parsed.freed])) (by simp)

/-- A request is parsed safely exactly if it has a request line. -/
theorem httpRequestParse_safe_iff (rcv : List (BitVec 8)) : Safe rcv ↔ RequestLine rcv := by
  constructor
  · intro h
    rcases h.get_prefix with ⟨l, rfl⟩
    -- With nothing behind the request, both scans end within it.
    have hreads := (h [] ⟨1, 1⟩ 0 0).1
    rw [append_nil, httpRequestParse_get] at hreads
    have hlen : (get ++ l).length = 4 + l.length := length_append
    have hends : scan 32 l + 1 + scan 10 (l.drop (scan 32 l + 1)) < l.length := by
      rcases hreads with hreads | ⟨-, -, hnul⟩
      · dsimp only at hreads
        omega
      · cases hnul
    rcases exists_of_scan_lt (show scan 32 l < l.length by omega) with ⟨u, x, l', rfl, hu, hx, hlu⟩
    have hdrop : (u ++ x :: l').drop (scan 32 (u ++ x :: l') + 1) = l' := by
      rw [← hlu, ← drop_drop, List.drop_left]
      rfl
    rw [hdrop, length_append, length_cons, ← hlu] at hends
    have hend : scan 10 l' < l'.length := by omega
    rcases exists_of_scan_lt hend with ⟨v, y, rest, rfl, hv, hy, -⟩
    exact ⟨u, x, v, y, rest, rfl, hu, hx, hv, hy⟩
  · rintro ⟨u, x, v, y, rest, rfl, hu, hx, hv, hy⟩ behind req url version
    have hdrop (l : List (BitVec 8)) : (u ++ x :: l).drop (u.length + 1) = l := by
      rw [← drop_drop, List.drop_left]
      rfl
    rw [append_assoc, append_assoc, List.cons_append, append_assoc,
      List.cons_append, httpRequestParse_get, scan_eq hu hx, hdrop, scan_eq hv hy]
    refine ⟨.inl ?_, fun q hq => .inr hq⟩
    simp only [length_append, length_cons, get]
    omega

/-- A request that is cut off is read beyond its end, and what is no `GET` has the pointers
    of the stack freed. -/
theorem httpRequestParse_not_safe :
    ¬ Safe [71, 69, 84, 32, 47] ∧ ¬ Safe [80, 85, 84, 32, 47, 32, 49, 10] := by
  refine ⟨fun h => absurd (h [1] ⟨1, 1⟩ 0 0).1 (by decide), fun h => ?_⟩
  exact absurd ((h [] ⟨1, 1⟩ 0 0).2 1 (by decide)) (by decide)

/-! ## Answers -/

/-- The body is the file and as long as the header says, and the buffers are large enough. -/
def Agrees (content behind rest : List (BitVec 8)) : Prop :=
  let sent := sendFile content behind rest
  sent.body = content ∧ sent.body.length = sent.contentLength ∧
    sent.fileData ≤ 512 ∧ sent.buf ≤ 512

instance (content behind rest : List (BitVec 8)) : Decidable (Agrees content behind rest) :=
  inferInstanceAs (Decidable (_ ∧ _ ∧ _ ∧ _))

/-- The text ends before the first NUL of the file, so that it is not followed by a line
    end there. -/
theorem takeWhile_ne_append {content behind text : List (BitVec 8)} (tail : List (BitVec 8))
    (h : content = text ++ 13 :: tail) : (content ++ behind).takeWhile (· != 0) ≠ text := by
  intro htext
  have hpos : ∀ c ∈ text ++ [13], (c != 0) = true := by
    intro c hc
    rcases List.mem_append.1 hc with hc | hc
    · rw [← htext] at hc
      exact List.mem_takeWhile_imp (p := (· != 0)) hc
    · rw [List.mem_singleton.1 hc]
      decide
  rw [h, show text ++ 13 :: tail ++ behind = text ++ [13] ++ (tail ++ behind) by simp,
    List.takeWhile_append_of_pos hpos] at htext
  have hlen := congrArg List.length htext
  simp only [length_append, length_cons, List.length_nil] at hlen
  omega

/-- Whatever the file and the stack are, what is sent is not the file. -/
theorem sendFile_not_agrees (content behind rest : List (BitVec 8)) :
    ¬ Agrees content behind rest := by
  rintro ⟨hbody, -, hdata, hbuf⟩
  by_cases hlen : content.length ≤ 4096
  · obtain ⟨text, htext⟩ : ∃ text, (content ++ behind).takeWhile (· != 0) = text := ⟨_, rfl⟩
    simp only [sendFile, if_pos hlen, htext, length_append, length_cons,
      List.length_nil] at hbody hbuf
    -- The carriage return is sent after the text.
    have hroom : text.length < 511 := by omega
    refine takeWhile_ne_append (content.drop (text.length + 1)) ?_ htext
    have htake : content.take (text.length + 1) = text ++ [13] := by
      rw [← hbody, List.take_take, Nat.min_eq_left (by omega),
        List.take_append_of_le_length (by simp; omega), List.take_take,
        Nat.min_eq_left (by omega), List.take_length_add_append]
      rfl
    calc content = content.take (text.length + 1) ++ content.drop (text.length + 1) :=
          (List.take_append_drop _ _).symm
      _ = text ++ 13 :: content.drop (text.length + 1) := by
          rw [htake, append_assoc]
          rfl
  · simp only [sendFile, if_neg hlen] at hdata
    omega

theorem sendFile_line_end : ¬ Agrees [97] [0] [] := by
  decide

end Jos.Httpd
