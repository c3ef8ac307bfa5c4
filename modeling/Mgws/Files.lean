import Mathlib.Data.List.DropRight
import Mathlib.Data.List.Infix
import Mgws.Http
import Mgws.Poll
/-!
# Files

`mg_http_serve_dir`: which file a request asks for and what of it is sent, and `static_cb`, which
sends it.  Texts in C end at the first 0; the array for the path is given with what happens to be
in it.
-/

namespace Mgws.Http

open Lib Program

/-! ## The path -/

def isx (c : UInt8) : Bool :=
  (48 ≤ c && c ≤ 57) || (97 ≤ c && c ≤ 102) || (65 ≤ c && c ≤ 70)

def mgUnhex (a b : UInt8) : UInt8 := UInt8.ofNat (mgUnhexn [a, b])

/-- What `mg_url_decode` leaves in the destination, and whether it has decoded everything; after a
bad escape it does not terminate the text. -/
def mgUrlDecode (form : Bool) : List UInt8 → List UInt8 → List UInt8 × Bool
  | 37 :: a :: b :: src, d :: d' :: dst =>
      if isx a && isx b then
        let r := mgUrlDecode form src (d' :: dst)
        (mgUnhex a b :: r.1, r.2)
      else (d :: d' :: dst, false)
  | c :: src, d :: d' :: dst =>
      if c = 37 then (d :: d' :: dst, false)
      else
        let r := mgUrlDecode form src (d' :: dst)
        ((if form && c = 43 then 32 else c) :: r.1, r.2)
  | src, _ :: dst => (0 :: dst, src = [])
  | _, [] => ([], false)

def cstr (a : List UInt8) : List UInt8 := a.takeWhile (· ≠ 0)

def saneFrom (start : Bool) : List UInt8 → Bool
  | [] => true
  | c :: s =>
      if (start || c = 47 || c = 92) && [46, 46].isPrefixOf s then false
      else saneFrom false s

def mgPathIsSane (path : List UInt8) : Bool := saneFrom true path

def trimSlashes (path : List UInt8) : List UInt8 :=
  path.take 1 ++ (path.drop 1).rdropWhile (· = 47)

structure Stat where
  isDir : Bool
  size : Nat
  mtime : Nat
  deriving DecidableEq, Repr

structure Fs where
  st : List UInt8 → Option Stat
  op : List UInt8 → Option (List UInt8)

inductive Resolved where
  | bad (text : String)
  | moved
  | path (path : List UInt8) (stat : Option Bool)
  deriving DecidableEq, Repr

def withSlash (dir : List UInt8) : List UInt8 :=
  if dir ≠ [] && dir.getLast? ≠ some 47 then dir ++ [47] else dir

def pathRest (uri url area : List UInt8) : List UInt8 :=
  if url.length < uri.length then (mgUrlDecode false (uri.drop url.length) area).1 else area

def pathArray (base uri url junk : List UInt8) : List UInt8 :=
  (base ++ pathRest uri url (0 :: junk.drop (base.length + 1))).set (junk.length - 1) 0

def indexOf (fs : Fs) (size : Nat) (path : List UInt8) : Resolved :=
  let name (text : String) := path ++ (bytes text).take (size - path.length - 1)
  match fs.st (name "/index.html") with
  | some stat => .path (name "/index.html") (some stat.isDir)
  | none =>
      match fs.st (name "/index.shtml") with
      | some stat => .path (name "/index.shtml") (some stat.isDir)
      | none =>
          match fs.st (name "/index.html.gz") with
          -- Remove appended .gz in index file name
          | some stat => .path ((name "/index.html.gz").take (path.length + 11)) (some stat.isDir)
          | none => .path path (some true)

def uriToPath2 (fs : Fs) (uri url dir junk : List UInt8) : Resolved :=
  if junk.length ≤ dir.length + 2 then .bad "Exceeded path size"
  else
    let path := cstr (pathArray (withSlash dir) uri url junk)
    if !mgPathIsSane path then .bad "Invalid path"
    else
      let path := trimSlashes path
      match if uri = bytes "/" then some true else (fs.st path).map (·.isDir) with
      | none => .path path none
      | some false => .path path (some false)
      | some true =>
          if uri ≠ [] && uri.getLast? ≠ some 47 then .moved
          else indexOf fs junk.length path

def mgCommalist (s : List UInt8) : Option (List UInt8 × List UInt8 × List UInt8) :=
  if s = [] then none
  else
    let kv := s.takeWhile (· ≠ 44)
    let k := kv.takeWhile (· ≠ 61)
    some (k, kv.drop (k.length + 1), s.drop (kv.length + 1))

/-- The loop of `uri_to_path`: the part of the URI that is taken off, and the directory that is
put in its place.  Every entry is longer than nothing. -/
def rootFrom (uri : List UInt8) :
    Nat → List UInt8 → List UInt8 × List UInt8 → List UInt8 × List UInt8
  | 0, _, found => found
  | turns + 1, s, found =>
      match mgCommalist s with
      | none => found
      | some (k, v, s) =>
          let (k, v, found) :=
            if v = [] then (bytes "/", k, (bytes "/", k)) else (k, v, found)
          if uri.length < k.length then rootFrom uri turns s found
          else if k ≠ uri.take k.length then rootFrom uri turns s found
          else rootFrom uri turns s (k, v)

def rootOf (rootDir uri : List UInt8) : List UInt8 × List UInt8 :=
  rootFrom uri rootDir.length rootDir ([], [])

def uriToPath (fs : Fs) (rootDir uri junk : List UInt8) : Resolved :=
  let root := rootOf (cstr rootDir) uri
  uriToPath2 fs uri root.1 root.2 junk

/-! ## The file -/

/-- `mg_split` with `-` for the two ends of a range, which are 0 at first: how many are given, and
which. -/
def getrange : List UInt8 → Nat × Nat × Nat
  | [] => (0, 0, 0)
  | c :: s =>
      if s.length < 6 then (0, 0, 0)
      else if (c :: s).take 6 ≠ bytes "bytes=" then getrange s
      else
        let v := s.drop 5
        let kv := v.takeWhile (· ≠ 45)
        let a := mgToSizeT (kv.takeWhile (· ≠ 61))
        let b := mgToSizeT (v.drop (kv.length + 1))
        (a.toList.length + b.toList.length, a.getD 0, b.getD 0)

structure Part where
  status : Nat
  start : Nat
  len : Nat
  deriving DecidableEq, Repr

def rangeOf (range : Option (List UInt8)) (size : Nat) : Part :=
  match range with
  | none => ⟨200, 0, size⟩
  | some rh =>
      let (n, r1, r2) := getrange rh
      if n = 0 then ⟨200, 0, size⟩
      else
        -- If range is specified like "400-", set second limit to content len
        let r2 := if n = 1 then (size + sizeMax) % 2 ^ 64 else r2
        if r2 < r1 || size ≤ r2 then ⟨416, 0, 0⟩ else ⟨206, r1, r2 - r1 + 1⟩

inductive Answer where
  | reply (status : Nat)
  | list (path : List UInt8)
  | head (path : List UInt8) (gzip : Bool) (part : Part)
  | file (path : List UInt8) (gzip : Bool) (part : Part)
  deriving DecidableEq, Repr

/-- The path of a compressed file, as far as the array reaches. -/
def gzPath (size : Nat) (path : List UInt8) : List UInt8 := (path ++ bytes ".gz").take (size - 1)

def openedPath (fs : Fs) (size : Nat) (hm : HttpMsg) (path : List UInt8) : List UInt8 × Bool :=
  let gzip := (mgHttpGetHeader hm.headers "Accept-Encoding").any fun ae =>
    bytes "gzip" <:+: ae
  if gzip && (fs.op (gzPath size path)).isSome then (gzPath size path, true) else (path, false)

def mgHttpEtag (size mtime : Nat) : String :=
  "\"" ++ toString mtime ++ "." ++ toString size ++ "\""

/-- `mg_http_serve_file`, without a page for status 404. -/
def mgHttpServeFile (fs : Fs) (size : Nat) (hm : HttpMsg) (path : List UInt8) : Answer :=
  let (path, gzip) := openedPath fs size hm path
  match fs.op path, fs.st path with
  | some _, some stat =>
      if (mgHttpGetHeader hm.headers "If-None-Match").any
          (sameText · (mgHttpEtag stat.size stat.mtime)) then
        .reply 304
      else
        let part := rangeOf (mgHttpGetHeader hm.headers "Range") stat.size
        if sameText hm.method "HEAD" then .head path gzip part else .file path gzip part
  | _, _ => .reply 404

/-- `mg_http_serve_dir` without patterns for SSI. -/
def serveDir (fs : Fs) (rootDir junk : List UInt8) (hm : HttpMsg) : Answer :=
  match uriToPath fs rootDir hm.uri junk with
  | .bad _ => .reply 400
  | .moved => .reply 301
  | .path path (some true) => .list path
  | .path path _ => mgHttpServeFile fs junk.length hm path

def Answer.served : Answer → Served
  | .reply status => .reply status
  | .list _ => .reply 200
  | .head _ _ part => .head part.status
  | .file _ _ part => .file part.status

/-! ## Listing a directory -/

def mgIsUrlSafe (c : UInt8) : Bool :=
  (48 ≤ c && c ≤ 57) || (97 ≤ c && c ≤ 122) || (65 ≤ c && c ≤ 90) ||
    c = 46 || c = 95 || c = 45 || c = 126

def mgHex (c : UInt8) : List UInt8 :=
  let hex := bytes "0123456789abcdef"
  [hex.getD (c >>> 4).toNat 0, hex.getD (c &&& 0xf).toNat 0]

/-- `mg_url_encode` from a place in a buffer of `len` bytes on; nothing when there is too little
room. -/
def mgUrlEncode (len : Nat) : Nat → List UInt8 → Option (List UInt8)
  | _, [] => some []
  | n, c :: s =>
      if len ≤ n + 4 then none
      else if mgIsUrlSafe c then (mgUrlEncode len (n + 1) s).map (c :: ·)
      else (mgUrlEncode len (n + 3) s).map (37 :: mgHex c ++ ·)

def entryLink (size : Nat) (name : List UInt8) (isDir : Bool) : List UInt8 :=
  (mgUrlEncode size 0 name).getD [] ++ if isDir then [47] else []

/-! ## Sending it -/

/-- A file that is being sent: what follows its position, how much of it is still to be sent, what
was queued, and whether `http_cb` is back in place. -/
structure Transfer where
  rest : List UInt8
  cl : Nat
  sent : List UInt8
  restored : Bool
  deriving DecidableEq, Repr

def staticCb (room : Nat) (t : Transfer) : Transfer :=
  -- Rate limit
  if room = 0 then t
  else
    let got := t.rest.take (min room t.cl)
    ⟨t.rest.drop got.length, t.cl - got.length, t.sent ++ got, got = []⟩

def staticCbs (t : Transfer) : List Nat → Transfer
  | [] => t
  | room :: rooms => if t.restored then t else staticCbs (staticCb room t) rooms

/-- The same calls on the server, as long as `static_cb` is the handler of the connection. -/
def sendFile (k : ConnPtr) (t : Transfer) : List Nat → Cpp Transfer
  | [] => pure t
  | room :: rooms => do
      let st ← get
      if (st.conn? k).any (·.pfn = .staticCb) then do
        pfnWrite k (staticCb room t).restored
        sendFile k (staticCb room t) rooms
      else pure t

def Part.transfer (part : Part) (file : List UInt8) : Transfer :=
  ⟨file.drop part.start, part.len, [], false⟩

end Mgws.Http
