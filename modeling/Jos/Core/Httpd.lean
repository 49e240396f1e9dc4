import Mathlib.Tactic.Common

/-!
# Web Server

`http_request_parse` and `send_data` of `user/httpd.c`. The stack is the list of its bytes from
a buffer on, with whatever lies behind it.

## Main definitions

* `httpRequestParse`: The pointers of a request, and how far the buffer is read.
* `sendFile`: What is sent of a file, and how far the two buffers are used.
-/

namespace Jos.Httpd

/-- The pointers of `struct http_request`. -/
structure Request where
  url : BitVec 64
  version : BitVec 64

/-- What `http_request_parse` returns, with the number of bytes that it reads, which are the
    first ones, and the pointers from `malloc`. -/
structure Parsed where
  ret : Int
  req : Request
  reads : Nat
  owned : List (BitVec 64)

/-- `strncmp(p, q, n)` with `n` the length of `q`: whether it returns 0, and how many bytes of
    `p` it reads. -/
def strncmp : List (BitVec 8) → List (BitVec 8) → Bool × Nat
  | _, [] => (true, 0)
  | [], _ :: _ => (false, 1)
  | p :: ps, q :: qs =>
    if p ≠ 0 ∧ p = q then ((strncmp ps qs).1, (strncmp ps qs).2 + 1) else (p == q, 1)

/-- `"GET "` -/
def get : List (BitVec 8) := [71, 69, 84, 32]

/-- `while (*request && *request != stop) request++;` -/
def scan (stop : BitVec 8) (request : List (BitVec 8)) : Nat :=
  (request.takeWhile fun c => c != 0 && c != stop).length

/-- `http_request_parse`, where `malloc` returns `url` and `version`. -/
def httpRequestParse (req : Request) (url version : BitVec 64) (request : List (BitVec 8)) :
    Parsed :=
  match strncmp request get with
  | (false, n) => ⟨-1000, req, n, []⟩
  | (true, _) =>
    let urlLen := scan 32 (request.drop 4)
    let versionLen := scan 10 (request.drop (4 + urlLen + 1))
    ⟨0, ⟨url, version⟩, 4 + urlLen + 1 + versionLen + 1, [url, version]⟩

/-- The pointers that `req_free` frees. `handle_client` calls it in any case. Before the
    request is parsed, `memset(req, 0, sizeof(req))` clears no more than `sock`. -/
def Parsed.freed (p : Parsed) : List (BitVec 64) := [p.req.url, p.req.version]

/-- The header and the body of an answer, and the number of bytes of `file_data` and of `buf`
    that are accessed. -/
structure Sent where
  contentLength : Nat
  body : List (BitVec 8)
  fileData : Nat
  buf : Nat

/-- `send_file` from `send_size` on. Behind the content that was read to `file_data` are the
    bytes `behind`, and behind what was printed to `buf` the bytes `rest`. The file server
    returns one page. -/
def sendFile (content behind rest : List (BitVec 8)) : Sent :=
  if content.length ≤ 4096 then
    let text := (content ++ behind).takeWhile (· != 0)
    let printed := text ++ [13, 10]
    ⟨content.length, (printed.take 511 ++ 0 :: rest).take printed.length,
      max content.length (text.length + 1), max (min printed.length 511 + 1) printed.length⟩
  else ⟨content.length, [], 4096, 0⟩

end Jos.Httpd
