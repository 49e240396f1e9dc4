import Jos.Core.Fs

/-!
# The File Server

The server of `fs/serv.c`: the table of open files, the `Fd` pages it shares
with its clients, and the handlers of the requests.

A request is a page that a client sends. The server has it at `fsreq`, the page
before `DISKMAP`, so that reading on behind it reads the disk. A handler returns
an `Option`: `none` is a panic of the server, and also the fault of a null
pointer or of an `Fd` page that was never allocated, as the handler of faults
panics outside of the disk.

## Main definitions

* `Fd`, `OpenFile`, `Server`: The state of the server.
* `pageref`, `openfileAlloc`, `openfileLookup`: The table.
* `serveOpen`, `serveSetSize`, `serveRead`, `serveWrite`, `serveStat`,
  `serveFlush`, `serveRemove`, `handle`: The requests.
* `devfileWrite`: How a client fills the page of a write request.
-/

namespace Jos.Fs

open Lib.Bytes (load store)

def eMaxOpen : Int := -10

/-! ## The state -/

/-- `struct Fd`. It is alone on its page, which clients can write. -/
structure Fd where
  devId : BitVec 32
  offset : BitVec 32
  omode : BitVec 32
  fileId : BitVec 32
  deriving DecidableEq

/-- The page of a `struct Fd` after `memset`. -/
def Fd.blank : Fd := ⟨0, 0, 0, 0⟩

/-- `struct OpenFile`. The address of its `Fd` page follows from the index. -/
structure OpenFile where
  fileid : BitVec 32
  file : Option Nat
  mode : BitVec 32
  deriving DecidableEq

/-- A page that the server has mapped for an entry: its contents, and how many
    mappings of it there are in other environments. -/
structure FdPage where
  fd : Fd
  clients : Nat
  deriving DecidableEq

/-- The server: the disk, the table of open files, the `Fd` pages that are
    allocated, and the entry whose `Fd` page was sent as the request, if it was
    one. -/
structure Server where
  disk : Mem
  opentab : Nat → OpenFile
  fdPage : Nat → Option FdPage
  request : Option Nat

namespace Server

variable (s : Server)

/-- `*o = …` for the entry `i`. -/
def setEntry (i : Nat) (o : OpenFile) : Server :=
  { s with opentab := fun j => if j = i then o else s.opentab j }

/-- The page at the address of the `Fd` of entry `i` changes. -/
def setPage (i : Nat) (p : FdPage) : Server :=
  { s with fdPage := fun j => if j = i then some p else s.fdPage j }

def setDisk (m : Mem) : Server := { s with disk := m }

/-- The `struct Fd` of an entry. -/
def fd (i : Nat) : Option Fd := (s.fdPage i).map FdPage.fd

/-- `of->o_fd->fd_offset += n` -/
def advance (i : Nat) (n : Int) : Server :=
  match s.fdPage i with
  | none => s
  | some p => s.setPage i { p with fd := { p.fd with offset := p.fd.offset + BitVec.ofInt 32 n } }

/-- The memory from `fsreq` on: the request page, and then the disk. -/
def view (page : Mem) : Mem := fun a => if a < 4096 then page a else s.disk (a - 4096)

end Server

/-- `serve_init` over a disk -/
def serveInit (m : Mem) : Server where
  disk := m
  opentab := fun i => ⟨BitVec.ofNat 32 i, none, if i = 0 then 1 else 0⟩
  fdPage := fun _ => none
  request := none

/-! ## The table of open files -/

/-- `pageref` of the `Fd` of an entry: the 16 bits of `pp_ref`, which counts the
    mappings of the page in all environments. -/
def pageref (s : Server) (i : Nat) : Nat :=
  match s.fdPage i with
  | none => 0
  | some p => (1 + p.clients + if s.request = some i then 1 else 0) % 65536

/-- The part of `openfile_alloc` for an entry with a page: the value returned,
    the entry, and the server. -/
def openfileTake (s : Server) (i : Nat) : Int × Nat × Server :=
  let o := s.opentab i
  let fileid := o.fileid + 1024
  let clients := ((s.fdPage i).map FdPage.clients).getD 0
  (fileid.toInt, i, (s.setEntry i { o with fileid := fileid }).setPage i ⟨Fd.blank, clients⟩)

/-- `openfile_alloc`. `nomem` is the error of `sys_page_alloc`, if it fails. -/
def openfileAlloc (s : Server) (nomem : Option Int) : Int × Nat × Server :=
  match (List.range 1024).find? fun i => pageref s i == 0 || pageref s i == 1 with
  | none => (eMaxOpen, 0, s)
  | some i =>
    if pageref s i = 0 then
      match nomem with
      | some e => (e, i, s)
      | none => openfileTake (s.setPage i ⟨Fd.blank, 0⟩) i
    else openfileTake s i

/-- `openfile_lookup` -/
def openfileLookup (s : Server) (fileid : BitVec 32) : Option Nat :=
  let i := fileid.toNat % 1024
  if pageref s i = 1 ∨ (s.opentab i).fileid ≠ fileid then none else some i

/-! ## The requests -/

/-- `req->req_fileid` -/
def reqFileid (page : Mem) : BitVec 32 := BitVec.ofNat 32 (load page 4 0)

/-- `req->req_n`, at offset 8 as a `size_t` is aligned to 8. -/
def reqN (page : Mem) : BitVec 64 := BitVec.ofNat 64 (load page 8 8)

/-- The path in a request: it is cut off at `MAXPATHLEN - 1` characters. -/
def reqPath (page : Mem) : List (BitVec 8) := (bytes page 0 1023).takeWhile (· != 0)

/-- The part of `serve_open` that creates or opens the file. -/
def openPath (m : Mem) (path : List (BitVec 8)) (omode : BitVec 32) : Res Nat :=
  if omode &&& 0x100 ≠ 0 then
    match fileCreate m path with
    | some (.error r, m) =>
      if omode &&& 0x400 = 0 ∧ r = eFileExists then fileOpen m path else some (.error r, m)
    | res => res
  else fileOpen m path

/-- `serve_open`: the value returned, the entry whose `Fd` page goes to the
    client, and the server. -/
def serveOpen (s : Server) (page : Mem) (nomem : Option Int) :
    Option (Int × Option Nat × Server) :=
  let path := reqPath page
  let omode := BitVec.ofNat 32 (load page 4 1024)
  match openfileAlloc s nomem with
  | (r, i, s) =>
    if r < 0 then some (r, none, s)
    else
      match openPath s.disk path omode with
      | none => none
      | some (.error r, m) => some (r, none, s.setDisk m)
      | some (.ok f, m) =>
        (if omode &&& 0x200 ≠ 0 then fileSetSize m f 0 else some m).map fun m =>
          let o := s.opentab i
          let fd : Fd := ⟨102, 0, omode &&& 3, o.fileid⟩
          let clients := ((s.fdPage i).map FdPage.clients).getD 0
          (0, some i, ((s.setDisk m).setEntry i
            { o with file := some f, mode := omode }).setPage
            i ⟨fd, clients⟩)

/-- The beginning of the handlers for open files: look the file up, and give its
    entry and its `struct File` to the rest. -/
def withFile {α : Type} (s : Server) (page : Mem) (fail : Int → α)
    (k : Nat → Nat → Option α) : Option α :=
  match openfileLookup s (reqFileid page) with
  | none => some (fail eInval)
  | some i => (s.opentab i).file.bind fun f => k i f

/-- `serve_set_size` -/
def serveSetSize (s : Server) (page : Mem) : Option (Int × Server) :=
  withFile s page (fun e => (e, s)) fun _ f =>
    (fileSetSize s.disk f (BitVec.ofNat 32 (load page 4 4))).map fun m => (0, s.setDisk m)

/-- `serve_read`, with `act` for the copying. -/
def serveReadBy {σ : Type} (act : Mem → Nat → Nat → σ → Mem × σ) (s : Server) (page : Mem)
    (x : σ) : Option (Int × Server × σ) :=
  let n := if reqN page ≤ 4096 then reqN page else 4096
  withFile s page (fun e => (e, s, x)) fun i f =>
    (s.fd i).bind fun fd =>
      (fileReadBy act s.disk f n fd.offset x).map fun r =>
        let s := s.setDisk r.2.1
        (r.1, if r.1 < 0 then s else s.advance i r.1, r.2.2)

/-- `serve_read`: the value returned, the page with what was read, and the
    server. -/
def serveRead (s : Server) (page : Mem) : Option (Int × Mem × Server) :=
  (serveReadBy readChunk s page []).map fun r => (r.1, copy page 0 r.2.2, r.2.1)

/-- The number of bytes that `serve_write` takes from the request:
    `MIN(req->req_n, sizeof(req->req_buf))`, where `sizeof` gives 4084. -/
def writeCount (page : Mem) : BitVec 64 :=
  if reqN page ≤ 4084 then reqN page else 4084

/-- The bytes that `serve_write` passes on: `req_buf` is at offset 16. -/
def writeBytes (s : Server) (page : Mem) : List (BitVec 8) :=
  bytes (s.view page) 16 (writeCount page).toNat

/-- `serve_write`, with `act` for the copying. -/
def serveWriteBy {σ : Type} (act : Mem → Nat → Nat → σ → Mem × σ) (s : Server) (page : Mem)
    (x : σ) : Option (Int × Server × σ) :=
  withFile s page (fun e => (e, s, x)) fun i f =>
    (s.fd i).bind fun fd =>
      (fileWriteBy act s.disk f (writeCount page) fd.offset x).map fun r =>
        (r.1, (s.setDisk r.2.1).advance i r.1, r.2.2)

/-- `serve_write` -/
def serveWrite (s : Server) (page : Mem) : Option (Int × Server) :=
  (serveWriteBy writeChunk s page (writeBytes s page)).map fun r => (r.1, r.2.1)

/-- `serve_stat` -/
def serveStat (s : Server) (page : Mem) : Option (Int × Mem × Server) :=
  withFile s page (fun e => (e, page, s)) fun _ f =>
    let name := (bytes s.disk f (sNblocks s.disk * 4096 - f)).takeWhile (· != 0)
    let page := copy page 0 (name ++ [0])
    let page := store page 4 128 (fSize s.disk f).toNat
    let page := store page 4 132 (if fType s.disk f = 1 then 1 else 0)
    some (0, page, s)

/-- `serve_flush` -/
def serveFlush (s : Server) (page : Mem) : Option (Int × Server) :=
  withFile s page (fun e => (e, s)) fun _ f => (fileFlush s.disk f).map fun _ => (0, s)

/-- `serve_remove` -/
def serveRemove (s : Server) (page : Mem) : Option (Int × Server) :=
  (fileRemove s.disk (reqPath page)).map fun r =>
    match r with
    | (.error e, m) => (e, s.setDisk m)
    | (.ok _, m) => (0, s.setDisk m)

/-- The choice of the handler in `serve`: the value returned, the entry whose
    `Fd` page is sent with it, the request page, and the server. `serve_sync`
    writes back what is in memory, which changes nothing that is read. -/
def handle (s : Server) (req : Nat) (page : Mem) (nomem : Option Int) :
    Option (Int × Option Nat × Mem × Server) :=
  match req with
  | 1 => (serveOpen s page nomem).map fun r => (r.1, r.2.1, page, r.2.2)
  | 2 => (serveSetSize s page).map fun r => (r.1, none, page, r.2)
  | 3 => (serveRead s page).map fun r => (r.1, none, r.2)
  | 4 => (serveWrite s page).map fun r => (r.1, none, page, r.2)
  | 5 => (serveStat s page).map fun r => (r.1, none, r.2)
  | 6 => (serveFlush s page).map fun r => (r.1, none, page, r.2)
  | 7 => (serveRemove s page).map fun r => (r.1, none, page, r.2)
  | 8 => some (0, none, page, s)
  | _ => some (eInval, none, page, s)

/-! ## A client -/

/-- The number of bytes that `devfile_write` copies: the size of the structure
    is 4104 with its padding, so that `buffer_size` is 4092. -/
def devfileCount (n : BitVec 64) : BitVec 64 := if n < 4092 then n else 4092

/-- What `devfile_write` stores from `fsipcbuf` on. -/
def devfileWrite (ipc : Mem) (fileid : BitVec 32) (buf : Mem) (n : BitVec 64) : Mem :=
  let ipc := store ipc 4 0 fileid.toNat
  let ipc := store ipc 8 8 n.toNat
  copy ipc 16 (bytes buf 0 (devfileCount n).toNat)

end Jos.Fs
