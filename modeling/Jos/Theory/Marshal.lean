import Jos.Theory.Offsets

/-!
# The Page of a Write Request

A client puts a write request into a `union Fsipc` and sends the first page of
it. The structure is larger than a page, because `req_n` is aligned to 8 bytes:
`req_buf` is at offset 16, and 4080 bytes of it are in the page. The client takes
it for 4092 bytes and the server for 4084, so that both go wrong for larger
writes: the server reads on behind its page, and the client writes on behind the
union, which has 4104 bytes.

## Main definitions

* `Stored`: The bytes that the client writes.
* `Agrees`: The server passes on what the client was given.

## Theorems

* `fileWriteBy_count`: The count that is returned, and the bytes read for it.
* `agrees_iff`: For which lengths client and server agree.
-/

namespace Jos.Fs

open Lib.Bytes (load store store_off load_store_off load_store_at load_same)

/-! ## The count -/

theorem allocBlock_any (m : Mem) :
    (allocBlock m).Sat (fun _ _ => True) (fun e _ => e < 0) True := by
  unfold allocBlock
  split
  · exact show eNoDisk < 0 by decide
  · rcases diskaddr m 2 with _ | a <;> trivial

theorem needIndirect_any (m : Mem) (f : Nat) (alloc : Bool) :
    (needIndirect m f alloc).Sat (fun _ _ => True) (fun e _ => e < 0) True := by
  unfold needIndirect
  split
  · trivial
  · split
    · exact show eNotFound < 0 by decide
    · refine (allocBlock_any m).andThen fun r m1 _ => ?_
      simp only
      rcases diskaddr (setIndirect m1 f r) _ with _ | a <;> trivial

theorem fileBlockWalk_any (m : Mem) (f k : Nat) (alloc : Bool) :
    (fileBlockWalk m f k alloc).Sat (fun _ _ => k < 1034) (fun e _ => e < 0) True := by
  unfold fileBlockWalk
  split
  · exact show eInval < 0 by decide
  · next hk =>
    split
    · exact Nat.lt_of_not_le hk
    · refine (needIndirect_any m f alloc).andThen fun _ m1 _ => ?_
      rcases diskaddr m1 (fIndirect m1 f) with _ | a
      · trivial
      · exact Nat.lt_of_not_le hk

/-- On any disk, `file_get_block` gives blocks in range or a code. -/
theorem fileGetBlock_any (m : Mem) (f k : Nat) :
    (fileGetBlock m f k).Sat (fun _ _ => k < 1034) (fun e _ => e < 0) True := by
  have hneed : ∀ m1 a, (needBlock m1 a).Sat (fun _ _ => True) (fun e _ => e < 0) True := by
    intro m1 a
    unfold needBlock
    split
    · trivial
    · have halloc := allocBlock_any m1
      rcases allocBlock m1 with _ | ⟨e | b, m2⟩
      · trivial
      · exact show eNoDisk < 0 by decide
      · trivial
  unfold fileGetBlock
  refine (fileBlockWalk_any m f k true).andThen fun a m1 hk => ?_
  refine (hneed m1 a).andThen fun _ m2 _ => ?_
  rcases diskaddr m2 (load m2 4 a) with _ | b
  · trivial
  · exact hk

variable {σ : Type} {count n : BitVec 64}

/-- On any disk and from any position, the loop copies no more than it is asked
    for. -/
theorem fileLoop_total (act : Mem → Nat → Nat → σ → Mem × σ) (m : Mem) (f : Nat)
    (offset : BitVec 32) (x : σ) (hcount : count.toNat < 2 ^ 31) :
    (fileLoop (logged act) f (offset.signExtend 64 + count) 1036 offset (m, ([], x))).Sat
      (fun _ s => total s.2.1 ≤ count.toNat) (fun e _ => e < 0) True := by
  by_cases hoff : offset.toNat < 2 ^ 31
  · have hstop := toNat_stop hoff (show count.toNat < 2 ^ 63 by omega)
    have hloop := fileLoop_rule (logged act) f (offset.signExtend 64 + count)
      (fun p _ s => offset.toNat ≤ p ∧ p ≤ offset.toNat + count.toNat ∧
        total s.1 = p - offset.toNat)
      (fun e _ _ => e < 0) True ?_ 1036 offset m ([], x) hoff (by omega) (.inl (by omega))
      ⟨le_rfl, Nat.le_add_right _ _, by rw [Nat.sub_self]; rfl⟩
    · refine hloop.mono ?_ (fun _ _ h => h) id
      rintro - s ⟨p, -, -, -, hhi, htot⟩
      omega
    · rintro p m1 ⟨log, x1⟩ hp ⟨hlo, -, htot⟩
      have hnext := next_spec hp
      refine (fileGetBlock_any m1 f (p / 4096)).mono ?_ (fun _ _ h => h) id
      intro blk m2 hk
      refine ⟨hk, by omega, by omega, ?_⟩
      simp only [logged, total_append, htot]
      omega
  · -- from a negative position: no turn, one turn, or an error at once
    by_cases hrun : count.toNat = 0 ∨ 2 ^ 32 ≤ offset.toNat + count.toNat
    · rw [fileLoop_skip offset count (logged act) m f ([], x) (by omega) hrun]
      exact Nat.zero_le _
    · by_cases hnear : 2 ^ 32 < offset.toNat + 4096
      · have hget := fileGetBlock_any m f 0
        rcases hres : fileGetBlock m f 0 with _ | ⟨e | blk, m'⟩
        · unfold fileLoop
          rw [sdiv_near offset hnear, hres]
          split
          · trivial
          · exact Nat.zero_le _
        · rw [hres] at hget
          unfold fileLoop
          rw [sdiv_near offset hnear, hres]
          split
          · exact hget
          · exact Nat.zero_le _
        · rw [fileLoop_near offset count (logged act) m f ([], x) hnear (by omega) (by omega)
            hres]
          exact Nat.le_of_eq ((total_append [] _).trans (Nat.zero_add _))
      · rw [fileLoop_far offset count (logged act) m f ([], x) (by omega) (by omega) (by omega)
          (by omega)]
        exact show eInval < 0 by decide

/-- The count that `file_write` returns is the one it was given, and no more
    bytes are read from the buffer. -/
theorem fileWriteBy_count {act : Mem → Nat → Nat → σ → Mem × σ} {m : Mem} {f : Nat}
    {offset : BitVec 32} {x : σ} (hcount : count.toNat < 2 ^ 31) {r : Int} {m' : Mem}
    {log : List Access} {x' : σ}
    (hrun : fileWriteBy (logged act) m f count offset ([], x) = some (r, m', log, x'))
    (hr : 0 ≤ r) : r = count.toNat ∧ total log ≤ count.toNat := by
  unfold fileWriteBy at hrun
  rcases Option.bind_eq_some_iff.1 hrun with ⟨m1, -, hmap⟩
  rcases Option.map_eq_some_iff.1 hmap with ⟨⟨u, m2, log', x2⟩, hloop, hres⟩
  have htot := fileLoop_total act m1 f offset x hcount
  rw [hloop] at htot
  cases u with
  | error e =>
    simp only [counted, Prod.mk.injEq] at hres
    have hneg : e < 0 := htot
    omega
  | ok u =>
    simp only [counted] at hres
    cases hres
    exact ⟨asInt_of_lt _ hcount, htot⟩

/-! ## Client and server -/

/-- The bytes from `fsipcbuf` on that `devfile_write` stores to. -/
def Stored (n : BitVec 64) (a : Nat) : Prop := a < 4 ∨ (8 ≤ a ∧ a < 16 + (devfileCount n).toNat)

theorem length_bytes (m : Mem) (a n : Nat) : (bytes m a n).length = n := by
  unfold bytes
  rw [List.length_map, List.length_range]

theorem toNat_devfileCount (n : BitVec 64) : (devfileCount n).toNat = min n.toNat 4092 := by
  have h4092 : (4092 : BitVec 64).toNat = 4092 := rfl
  unfold devfileCount
  split
  · next h =>
    rw [BitVec.lt_def] at h
    omega
  · next h =>
    rw [BitVec.lt_def] at h
    omega

/-- The number of bytes in the request is the one the client was given. -/
theorem reqN_devfileWrite (ipc : Mem) (fileid : BitVec 32) (buf : Mem) (n : BitVec 64) :
    reqN (devfileWrite ipc fileid buf n) = n := by
  unfold reqN devfileWrite
  rw [load_same (store (store ipc 4 0 fileid.toNat) 8 8 n.toNat), load_store_at,
    Nat.mod_eq_of_lt (show n.toNat < 256 ^ 8 from n.isLt), BitVec.ofNat_toNat, BitVec.setWidth_eq]
  exact fun a hlo hhi => if_neg (by omega)

theorem reqFileid_devfileWrite (ipc : Mem) (fileid : BitVec 32) (buf : Mem) (n : BitVec 64) :
    reqFileid (devfileWrite ipc fileid buf n) = fileid := by
  unfold reqFileid devfileWrite
  rw [load_same (store (store ipc 4 0 fileid.toNat) 8 8 n.toNat),
    load_store_off _ _ (by omega), load_store_at,
    Nat.mod_eq_of_lt (show fileid.toNat < 256 ^ 4 from fileid.isLt), BitVec.ofNat_toNat,
    BitVec.setWidth_eq]
  exact fun a hlo hhi => if_neg (by omega)

/-- The bytes of the request that the server finds in its page. -/
theorem writeBytes_devfileWrite (s : Server) (ipc : Mem) (fileid : BitVec 32) (buf : Mem)
    (h : n.toNat ≤ 4080) : writeBytes s (devfileWrite ipc fileid buf n) = bytes buf 0 n.toNat := by
  have hclient : (devfileCount n).toNat = n.toNat := by
    rw [toNat_devfileCount]
    omega
  have hserver : (writeCount (devfileWrite ipc fileid buf n)).toNat = n.toNat := by
    rw [toNat_writeCount, reqN_devfileWrite]
    omega
  unfold writeBytes
  rw [hserver]
  refine List.map_congr_left fun i hi => ?_
  rw [List.mem_range] at hi
  unfold Server.view
  rw [if_pos (by omega)]
  unfold devfileWrite copy
  rw [length_bytes, hclient, if_pos (by omega), Nat.add_sub_cancel_left, List.getD_eq_getElem?_getD]
  unfold bytes
  rw [List.getElem?_map, List.getElem?_range hi]
  rfl

/-- What the write request of a client comes to if it succeeds: the server has
    passed on the bytes of the client's buffer, has read no byte behind the page
    of the request, and the client has written no byte behind the union. -/
def Agrees (s : Server) (ipc : Mem) (fileid : BitVec 32) (buf : Mem) (n : BitVec 64) : Prop :=
  ∀ r s' log rest,
    serveWriteBy (logged writeChunk) s (devfileWrite ipc fileid buf n)
      ([], writeBytes s (devfileWrite ipc fileid buf n)) = some (r, s', log, rest) → 0 ≤ r →
    writeBytes s (devfileWrite ipc fileid buf n) = bytes buf 0 r.toNat ∧
      (∀ a, a < 16 + total log → a < 4096) ∧ ∀ a, Stored n a → a < 4104

theorem agrees_of_le (s : Server) (ipc : Mem) (fileid : BitVec 32) (buf : Mem)
    (h : n.toNat ≤ 4080) : Agrees s ipc fileid buf n := by
  intro r s' log rest hrun hr
  have hcount : (writeCount (devfileWrite ipc fileid buf n)).toNat = n.toNat := by
    rw [toNat_writeCount, reqN_devfileWrite]
    omega
  unfold serveWriteBy withFile at hrun
  cases hlook : openfileLookup s (reqFileid (devfileWrite ipc fileid buf n)) with
  | none =>
    rw [hlook, Option.some.injEq, Prod.mk.injEq] at hrun
    exact absurd hr (by rw [← hrun.1]; decide)
  | some i =>
    rw [hlook] at hrun
    rcases Option.bind_eq_some_iff.1 hrun with ⟨f, -, hrun⟩
    rcases Option.bind_eq_some_iff.1 hrun with ⟨fd, -, hrun⟩
    rcases Option.map_eq_some_iff.1 hrun with ⟨⟨r', m', log', x'⟩, hwrite, hres⟩
    cases hres
    have hc := fileWriteBy_count (by omega) hwrite hr
    refine ⟨?_, fun a ha => by omega, fun a ha => ?_⟩
    · rw [writeBytes_devfileWrite s ipc fileid buf h, hc.1, hcount, Int.toNat_natCast]
    · unfold Stored at ha
      rw [toNat_devfileCount] at ha
      omega

/-- A write of up to a block at the start of the file of `oneFile` succeeds. -/
theorem oneFile_fits (count : BitVec 64) (x : List (BitVec 8)) (hpos : 0 < count.toNat)
    (hle : count.toNat ≤ 4096) :
    ∃ m' log x', fileWriteBy (logged writeChunk) oneFile 12288 count 0#32 ([], x) =
      some ((count.toNat : Int), m', log, x') ∧ total log = count.toNat := by
  have hext := extended_step oneFile_entry.1 count.toNat
  rcases fileWriteBy_loop (logged writeChunk) count 0#32 ([], x)
    (by rw [BitVec.toNat_zero]; omega) (by rw [oneFile_size]; decide) with ⟨stop, hstop, hrun⟩
  rw [BitVec.toNat_zero, Nat.zero_add] at hstop hrun
  have hloop := fileLoop_rule (logged writeChunk) 12288 stop
    (fun p m1 s => (p = 0 ∧ m1 = extended oneFile 12288 count.toNat ∧ s.1 = []) ∨
      (p = stop.toNat ∧ total s.1 = count.toNat))
    (fun _ _ _ => False) False ?_ 1036 0#32 (extended oneFile 12288 count.toNat) ([], x)
    (by decide) (by omega) (.inl (by decide)) (.inl ⟨rfl, rfl, rfl⟩)
  · rcases hres : fileLoop (logged writeChunk) 12288 stop 1036 0#32
      (extended oneFile 12288 count.toNat, ([], x)) with _ | ⟨e | u, m', log, x'⟩
    · rw [hres] at hloop
      exact hloop.elim
    · rw [hres] at hloop
      exact hloop.elim
    · rw [hres] at hloop
      simp only [Lib.Outcome.Sat] at hloop
      rcases hloop with ⟨p, hp, -, hI⟩
      refine ⟨m', log, x', ?_, ?_⟩
      · rw [hrun, hres, Option.map_some]
        simp only [counted]
        rw [asInt_of_lt _ (by omega)]
      · rcases hI with ⟨hp0, -, -⟩ | ⟨-, htot⟩
        · omega
        · exact htot
  · rintro p m1 ⟨log, x1⟩ hp (⟨rfl, rfl, rfl⟩ | ⟨hend, -⟩)
    · -- the only turn: the free block becomes the first block of the file
      have hs := hext.1.sane oneFile_entry.1 oneFile_sane
      refine (fileGetBlock_spec (0 / 4096) hs hext.1.owns).mono ?_ ?_ id
      · intro blk m2 _
        refine ⟨by decide, .inr ⟨?_, ?_⟩⟩
        · unfold next
          omega
        · refine (total_append [] _).trans ?_
          unfold next
          simp only [total, List.map_nil, List.sum_nil]
          omega
      · rintro e m2 ⟨-, -, -, -, hfull⟩
        have := hfull (by decide) 4 (by decide)
        rw [hext.2.2, oneFile_free] at this
        cases this
    · omega

/-- A write to the file of `oneFile` that the client has filled in. -/
theorem oneFile_request (buf : Mem) (n : BitVec 64) (hpos : 0 < n.toNat) :
    ∃ s' log rest, serveWriteBy (logged writeChunk) (openAt 0#32)
      (devfileWrite (fun _ => 0) 1024 buf n)
      ([], writeBytes (openAt 0#32) (devfileWrite (fun _ => 0) 1024 buf n)) =
        some (((min n.toNat 4084 : Nat) : Int), s', log, rest) ∧ total log = min n.toNat 4084 := by
  have hcount : (writeCount (devfileWrite (fun _ => 0) 1024 buf n)).toNat = min n.toNat 4084 := by
    rw [toNat_writeCount, reqN_devfileWrite]
  rcases oneFile_fits (writeCount (devfileWrite (fun _ => 0) 1024 buf n))
    (writeBytes (openAt 0#32) (devfileWrite (fun _ => 0) 1024 buf n)) (by omega) (by omega) with
    ⟨m', log, rest, hwrite, htot⟩
  have hrun := (opened_openAt 0#32 (reqFileid_devfileWrite (fun _ => 0) 1024 buf n)).serveWriteBy_eq
    (logged writeChunk) ([], writeBytes (openAt 0#32) (devfileWrite (fun _ => 0) 1024 buf n))
  rw [show (openAt 0#32).disk = oneFile from rfl] at hrun
  simp only [hwrite, Option.map_some] at hrun
  rw [hcount] at hrun htot
  exact ⟨_, log, rest, hrun, htot⟩

/-- A client and the server agree on the bytes of a write exactly if these fit
    the page of the request. -/
theorem agrees_iff (buf : Mem) (n : BitVec 64) :
    (∀ s ipc fileid, Agrees s ipc fileid buf n) ↔ n.toNat ≤ 4080 := by
  refine ⟨fun hall => ?_, fun h s ipc fileid => agrees_of_le s ipc fileid buf h⟩
  by_contra hlarge
  rcases oneFile_request buf n (by omega) with ⟨s', log, rest, hrun, htot⟩
  -- the server reads the byte behind the page
  have hpage := (hall (openAt 0#32) (fun _ => 0) 1024 _ _ _ _ hrun (Int.natCast_nonneg _)).2.1
  have := hpage 4096 (by omega)
  omega

/-- A write of 4096 bytes, all of them 7: the server passes on bytes of the
    disk, and the client writes behind its union. -/
theorem not_agrees : ∃ r s' log rest, serveWriteBy (logged writeChunk) (openAt 0#32)
    (devfileWrite (fun _ => 0) 1024 (fun _ => 7) 4096)
    ([], writeBytes (openAt 0#32) (devfileWrite (fun _ => 0) 1024 (fun _ => 7) 4096)) =
      some (r, s', log, rest) ∧ 0 ≤ r ∧
    writeBytes (openAt 0#32) (devfileWrite (fun _ => 0) 1024 (fun _ => 7) 4096) ≠
      bytes (fun _ => 7) 0 r.toNat ∧
    (∃ a, a < 16 + total log ∧ 4096 ≤ a) ∧ ∃ a, Stored 4096 a ∧ 4104 ≤ a := by
  have hn : (4096 : BitVec 64).toNat = 4096 := rfl
  rcases oneFile_request (fun _ => 7) 4096 (by decide) with ⟨s', log, rest, hrun, htot⟩
  have hcount : (writeCount (devfileWrite (fun _ => 0) 1024 (fun _ => 7) 4096)).toNat = 4084 := by
    rw [toNat_writeCount, reqN_devfileWrite]
    rfl
  refine ⟨_, s', log, rest, hrun, Int.natCast_nonneg _, fun he => ?_, ⟨4096, ?_, le_rfl⟩,
    4104, .inr ⟨by decide, ?_⟩, le_rfl⟩
  · -- the byte after the 4080 that are in the page
    have hbyte := congrArg (fun l => l[4080]?) he
    unfold writeBytes bytes at hbyte
    simp only [hcount, List.getElem?_map, hn, Int.toNat_natCast] at hbyte
    rw [List.getElem?_range (by decide), List.getElem?_range (by decide)] at hbyte
    cases hbyte
  · rw [htot]
    decide
  · rw [toNat_devfileCount]
    decide

end Jos.Fs
