import Mgws.Step
import Mgws.Ws
/-!
# Requests as bytes

`mg_http_parse`, which looks for the head of a request at the front of the receive buffer, and
`http_cb`, which delivers the requests that are complete.  A part of a message is given by its
bytes.
-/

namespace Mgws.Http

open Lib Program

/-! ## The head of a request -/

inductive Scan (α : Type) where
  | bad
  | more
  | found (a : α)
  deriving DecidableEq, Repr

def isok (c : UInt8) : Bool := c = 10 || c = 13 || 32 ≤ c

/-- The loop of `mg_http_get_request_len` at position `i`, behind the bytes `q` and `p`. -/
def requestLenFrom (i : Nat) (q p : UInt8) : List UInt8 → Scan Nat
  | [] => .more
  | c :: s =>
      if !isok c then .bad
      else if (0 < i && c = 10 && p = 10) || (3 < i && c = 10 && p = 13 && q = 10) then
        .found (i + 1)
      else requestLenFrom (i + 1) p c s

def mgHttpGetRequestLen (buf : List UInt8) : Scan Nat := requestLenFrom 0 0 0 buf

def clen (c : UInt8) : Nat :=
  if 32 < c && c < 126 then 1
  else if c &&& 0xe0 = 0xc0 then 2
  else if c &&& 0xf0 = 0xe0 then 3
  else if c &&& 0xf8 = 0xf0 then 4
  else 0

/-- The characters up to a byte that is none or satisfies `stop`, and what follows.  The first
argument is how many bytes of a character are still to come; a last character that is cut off is
taken as it is. -/
def word (stop : UInt8 → Bool) : Nat → List UInt8 → List UInt8 × List UInt8
  | _, [] => ([], [])
  | 0, c :: s =>
      if stop c || clen c = 0 then ([], c :: s)
      else
        let r := word stop (clen c - 1) s
        (c :: r.1, r.2)
  | skip + 1, c :: s =>
      let r := word stop skip s
      (c :: r.1, r.2)

def skipSpaces (s : List UInt8) : List UInt8 := s.dropWhile (· = 32)

def skiptorn (s : List UInt8) : Option (List UInt8 × List UInt8) :=
  let v := s.takeWhile fun c => c ≠ 10 && c ≠ 13
  match s.drop v.length with
  | 13 :: 10 :: rest => some (v, rest)
  | 10 :: rest => some (v, rest)
  | _ => none

structure Header where
  name : List UInt8
  value : List UInt8
  deriving DecidableEq, Repr

def trimEnd (v : List UInt8) : List UInt8 := (v.reverse.dropWhile (· = 32)).reverse

/-- `mg_http_parse_headers`, with room for as many headers as the first argument says. -/
def mgHttpParseHeaders : Nat → List UInt8 → Option (List Header)
  | 0, _ => some []
  | _ + 1, [] => none
  | _ + 1, 10 :: _ => some []
  | _ + 1, 13 :: 10 :: _ => some []
  | n + 1, s => do
      let (k, s) := word (· = 58) 0 s
      if k = [] then none
      else
        match s with
        | 58 :: s => do
            let (v, s) ← skiptorn (skipSpaces s)
            let headers ← mgHttpParseHeaders n s
            pure (⟨k, trimEnd v⟩ :: headers)
        | _ => none

def mgLower (c : UInt8) : UInt8 := if 65 ≤ c && c ≤ 90 then c + 32 else c

/-- What `mg_ncasecmp` and `mg_vcasecmp` find equal. -/
def sameText (a : List UInt8) (b : String) : Bool := a.map mgLower = (bytes b).map mgLower

def mgHttpGetHeader (headers : List Header) (name : String) : Option (List UInt8) :=
  (headers.find? fun h => sameText h.name name).map (·.value)

def sizeMax : Nat := 2 ^ 64 - 1

/-- The digits in `mg_to_size_t`: the number, how many there are, and what follows. -/
def sizeDigits (result ndigits : Nat) : List UInt8 → Option (Nat × Nat × List UInt8)
  | [] => some (result, ndigits, [])
  | c :: s =>
      if 48 ≤ c && c ≤ 57 then
        let digit := c.toNat - 48
        if sizeMax / 10 < result then none
        else if sizeMax - digit < result * 10 then none
        else sizeDigits (result * 10 + digit) (ndigits + 1) s
      else some (result, ndigits, c :: s)

def isBlank (c : UInt8) : Bool := c = 32 || c = 9

def mgToSizeT (str : List UInt8) : Option Nat := do
  let s := str.dropWhile isBlank
  if s.head? = some 45 then none
  else
    let (result, ndigits, s) ← sizeDigits 0 0 s
    if ndigits = 0 || s.dropWhile isBlank ≠ [] then none else some result

structure HttpMsg where
  method : List UInt8
  uri : List UInt8
  query : List UInt8
  proto : List UInt8
  headers : List Header
  headLen : Nat
  bodyLen : Nat
  deriving DecidableEq, Repr

def bodyLength (n : Nat) (head method uri : List UInt8) (headers : List Header) : Option Nat := do
  let isResponse := sameText (head.take 5) "HTTP/"
  let (body, message) ←
    match mgHttpGetHeader headers "Content-Length" with
    | none => some (sizeMax, sizeMax)
    | some cl => (mgToSizeT cl).map fun len => (len, (n + len) % 2 ^ 64)
  let (body, message) :=
    if body = sizeMax && !isResponse && !sameText method "PUT" && !sameText method "POST" then
      (0, n)
    else (body, message)
  let (body, message) :=
    if body = sizeMax && isResponse && sameText uri "204" then (0, n) else (body, message)
  -- Overflow protection
  if message < n then none else some body

def requestLine (head : List UInt8) :
    Option (List UInt8 × List UInt8 × List UInt8 × List UInt8) :=
  let method := word (fun _ => false) 0 head
  let target := word (fun _ => false) 0 (skipSpaces method.2)
  (skiptorn (skipSpaces target.2)).map fun proto => (method.1, target.1, proto)

/-- `mg_http_parse`, once the head is complete.  A request line that ends badly is answered like
one that is not complete. -/
def parseHead (head : List UInt8) : Scan HttpMsg :=
  match requestLine head with
  | none => .more
  | some (method, target, proto, s) =>
      let uri := target.takeWhile (· ≠ 63)
      let query := target.drop (uri.length + 1)
      if method = [] || uri = [] then .bad
      else
        match mgHttpParseHeaders 30 s with
        | none => .bad
        | some headers =>
            match bodyLength head.length head method uri headers with
            | none => .bad
            | some body => .found ⟨method, uri, query, proto, headers, head.length, body⟩

def mgHttpParse (s : List UInt8) : Scan HttpMsg :=
  match mgHttpGetRequestLen s with
  | .bad => .bad
  | .more => .more
  | .found n => parseHead (s.take n)

/-! ## Chunked bodies -/

def isHexDigit (c : UInt8) : Bool :=
  (48 ≤ c && c ≤ 57) || (97 ≤ c && c ≤ 102) || (65 ≤ c && c ≤ 70)

def mgUnhexNimble (c : UInt8) : UInt8 :=
  if 48 ≤ c && c ≤ 57 then c - 48 else if 65 ≤ c && c ≤ 70 then c - 55 else c - 87

def mgUnhexn (s : List UInt8) : Nat :=
  s.foldl (fun v c => (v <<< 4 ||| (mgUnhexNimble c).toNat) % 2 ^ 64) 0

/-- What `skip_chunk` finds: an error, nothing complete yet, a sum beyond the range of `int`, or
a chunk with the length of its prefix, of its data and of the whole. -/
inductive Chunk where
  | error
  | more
  | overflow
  | chunk (pl dl n : Nat)
  deriving DecidableEq, Repr

/-- `skip_chunk`.  The byte behind the buffer is `beyond`. -/
def skipChunk (beyond : UInt8) (buf : List UInt8) : Chunk :=
  if buf.length < 3 then .more
  else
    let i := (buf.takeWhile isHexDigit).length
    if buf.length < i + 1 || buf[i]? ≠ some 13 || buf[i + 1]?.getD beyond ≠ 10 then .error
    else
      -- converted to `int`
      let n := mgUnhexn (buf.take i) % 2 ^ 32
      if 2 ^ 31 ≤ n then .error
      else if 2 ^ 31 ≤ i + n + 4 then .overflow
      else if buf.length < i + n + 4 then .more
      else if buf[i + n + 2]? ≠ some 13 || buf[i + n + 3]? ≠ some 10 then .error
      else .chunk (i + 2) n (i + 2 + n + 2)

def isChunked (hm : HttpMsg) : Bool :=
  (mgHttpGetHeader hm.headers "Transfer-Encoding").any (sameText · "chunked")

def lastChunk (beyond : UInt8) : Nat → List UInt8 → Chunk
  | 0, _ => .more
  | turns + 1, s =>
      match skipChunk beyond s with
      | .chunk pl dl n => if dl = 0 then .chunk pl dl n else lastChunk beyond turns (s.drop n)
      | r => r

def memmove (s : List UInt8) (dst src len : Nat) : List UInt8 :=
  s.take dst ++ (s.drop src).take len ++ s.drop (dst + len)

/-- Second pass: strip and relocate.  The offset and the length of the body, and the buffer. -/
def stripChunks (beyond : UInt8) : Nat → Nat → Nat → List UInt8 → Nat × Nat × List UInt8
  | 0, o, len, s => (o, len, s)
  | turns + 1, o, len, s =>
      match skipChunk beyond (s.drop o) with
      | .chunk pl dl n =>
          let s := memmove s len (o + pl) dl
          if dl = 0 then (o + n, len + dl, s)
          else stripChunks beyond turns (o + n) (len + dl) s
      | _ => (o, len, s)

/-! ## The loop of `http_cb` -/

inductive Turn where
  | more
  | badHead
  | badChunk
  | overflow
  /-- A message with its body, the bytes it takes up and the buffer from the offset on. -/
  | message (hm : HttpMsg) (body : List UInt8) (n : Nat) (buf : List UInt8)
  deriving DecidableEq, Repr

/-- One turn, on the buffer from the parsing offset on.  When the connection is being closed all
that is left is the body, unless it is chunked. -/
def httpTurn (close : Bool) (beyond : UInt8) (buf : List UInt8) : Turn :=
  match mgHttpParse buf with
  | .bad => .badHead
  | .more => .more
  | .found hm =>
      let s := buf.drop hm.headLen
      if isChunked hm then
        match lastChunk beyond s.length s with
        | .error => .badChunk
        | .more => .more
        | .overflow => .overflow
        | .chunk _ _ _ =>
            let (o, len, s) := stripChunks beyond s.length 0 0 s
            .message hm (s.take len) (hm.headLen + o) (buf.take hm.headLen ++ s)
      else
        let len := if close then s.length else hm.bodyLen
        if s.length < len then .more
        else .message hm (s.take len) (hm.headLen + len) buf

def matchFrom (s p : List UInt8) : Nat → Nat → Nat → Nat → Nat → Bool
  | 0, _, _, _, _ => false
  | turns + 1, i, j, ni, nj =>
      if i < p.length || j < s.length then
        if i < p.length && j < s.length && (p[i]? = some 63 || s[j]? = p[i]?) then
          matchFrom s p turns (i + 1) (j + 1) ni nj
        else if i < p.length && (p[i]? = some 42 || p[i]? = some 35) then
          matchFrom s p turns (i + 1) j i (j + 1)
        else if 0 < nj && nj ≤ s.length && (p[ni]? = some 35 || s[j]? ≠ some 47) then
          matchFrom s p turns ni nj ni nj
        else false
      else true

def mgMatch (s p : List UInt8) : Bool :=
  matchFrom s p ((s.length + 2) * (s.length + p.length + 2)) 0 0 0 0

/-- What `fn` sees of a message; `run` and `served` say how the factory and `mg_http_serve_dir`
behave this time. -/
def HttpMsg.view (hm : HttpMsg) (run : FactoryRun) (served : Served) : HttpMessage :=
  if mgMatch hm.uri (bytes "/websock") then
    .websock (mgHttpGetHeader hm.headers "Sec-WebSocket-Key").isSome run
  else .other served

abbrev Answers := Nat → FactoryRun × Served

/-- How a call of `http_cb` ends: what is left in the buffer, the messages it has delivered with
their bodies, and whether it has called `mg_error`. -/
structure Done where
  left : List UInt8
  delivered : List (HttpMsg × List UInt8)
  failed : Bool

/-- The loop of `http_cb` from an offset on, in as many turns as the first argument says, with the
messages delivered so far; nothing after a sum beyond the range of `int`. -/
def httpCbFrom [Nlohmann] (answers : Answers) (close : Bool) (beyond : UInt8) (k : ConnPtr) :
    Nat → Nat → List UInt8 → List (HttpMsg × List UInt8) → Cpp (Option Done)
  | 0, _, _, _ => pure none
  | turns + 1, ofs, buf, delivered => do
      let st ← get
      if (st.conn? k).any (·.isResp) || buf.length ≤ ofs then
        pure (some ⟨Ws.mgIobufDel buf 0 ofs, delivered, false⟩)
      else
        match httpTurn close beyond (buf.drop ofs) with
        | .more => pure (some ⟨Ws.mgIobufDel buf 0 ofs, delivered, false⟩)
        | .badHead => do
            mgError k
            pure (some ⟨buf, delivered, true⟩)
        | .badChunk => do
            mgError k
            pure (some ⟨Ws.mgIobufDel buf 0 ofs, delivered, true⟩)
        | .overflow => pure none
        | .message hm body n rest => do
            let (run, served) := answers turns
            setConn k fun c => { c with isResp := true }
            mgCall k (.httpMsg (hm.view run served))
            httpCbFrom answers close beyond k turns (ofs + n) (buf.take ofs ++ rest)
              (delivered ++ [(hm, body)])

def httpCbRecv [Nlohmann] (answers : Answers) (close : Bool) (beyond : UInt8) (k : ConnPtr)
    (buf : List UInt8) : Cpp (Option Done) :=
  httpCbFrom answers close beyond k (buf.length + 1) 0 buf []

end Mgws.Http
