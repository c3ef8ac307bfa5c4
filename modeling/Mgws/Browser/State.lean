import Mgws.Lib.Program
/-!
# The state of a page

The variables of the modules under `www/mgws`, and what the browser keeps on
their behalf: the awaited operations, the requests for media, the timers and the
sound sources.  A page starts when its socket is open.
-/

namespace Mgws.Browser

open Lib

inductive JsError where
  | typeError
  | invalidAccessError
  | rejected (reason : String)
  deriving DecidableEq, Repr

/-- The name of the error.  The words that an engine puts behind it are its own, the same for every
user's name, and are left out. -/
def JsError.toText : JsError → String
  | typeError => "TypeError"
  | invalidAccessError => "InvalidAccessError"
  | rejected reason => reason

/-- A value that names a session.  Messages carry the number, the `id` of a row
is its decimal text, and `==` does not tell the two apart. -/
inductive Id where
  | undefined
  | null
  | num (n : Nat)
  | text (n : Nat)
  deriving DecidableEq, Repr

def Id.number? : Id → Option Nat
  | num n | text n => some n
  | undefined | null => none

def Id.toString (id : Id) : Except JsError String :=
  match id.number? with
  | some n => .ok n.repr
  | none => .error .typeError

def Id.truthy : Id → Bool
  | num n => n ≠ 0
  | text _ => true
  | undefined | null => false

def isHighSurrogate (unit : UInt16) : Bool := 0xD800 ≤ unit && unit < 0xDC00

def isLowSurrogate (unit : UInt16) : Bool := 0xDC00 ≤ unit && unit < 0xE000

/-- The code points of a JavaScript string, from its 16-bit units.  A surrogate without its partner
is no character. -/
def codePoints : List UInt16 → List (Option Char)
  | high :: low :: units =>
      if isHighSurrogate high && isLowSurrogate low then
        let offset := (high.toNat - 0xD800) * 0x400 + (low.toNat - 0xDC00)
        some (Char.ofNat (0x10000 + offset)) :: codePoints units
      else codePoint high :: codePoints (low :: units)
  | [unit] => [codePoint unit]
  | [] => []
where
  codePoint (unit : UInt16) : Option Char :=
    if isHighSurrogate unit || isLowSurrogate unit then none else some (Char.ofNat unit.toNat)

structure IllFormed where
  units : List UInt16
  lone : none ∈ codePoints units
  deriving DecidableEq, Repr

inductive Name where
  | undefined
  | null
  | text (s : String)
  | illFormed (s : IllFormed)
  deriving DecidableEq, Repr

def Name.wellFormed : Name → Bool
  | illFormed _ => false
  | undefined | null | text _ => true

/-- The name as a string concatenation writes it.  A surrogate without its partner is shown as
the replacement character. -/
def Name.toText : Name → String
  | undefined => "undefined"
  | null => "null"
  | text s => s
  | illFormed s => String.ofList ((codePoints s.units).map (·.getD (Char.ofNat 0xFFFD)))

inductive CallState where
  | idle
  | identified
  | calling
  | ringing
  | connected
  deriving DecidableEq, Repr

def CallState.value : CallState → Nat
  | idle => 0
  | identified => 1
  | calling => 2
  | ringing => 3
  | connected => 4

structure Description where
  type : String
  sdp : String
  deriving DecidableEq, Repr

structure Entry where
  sessionId : Nat
  userName : String
  deriving DecidableEq, Repr

/-- The messages on the socket, in both directions.  A `targetId` is text, a
`session` is null when the sender had no local description. -/
inductive Message where
  | sessionID (id : Nat)
  | registerSession (sessionId : Nat) (appVersion : String) (userName : Name)
  | localIdEvent (sessionID : Nat) (userName : Name)
  | localIdChanged
  | sessionsChanged (sessions : List Entry)
  | call (userName : Name) (targetId : String) (sessionId : Nat) (session : Option Description)
  | answer (userName : Name) (targetId : String) (sessionId : Nat) (session : Option Description)
  | hangup (userName : Name) (targetId : String)
  | iceCandidate (userName : Name) (targetId : String) (candidate : String)
  | heartbeat (sessionId : Nat)
  | other (type : String)
  deriving DecidableEq, Repr

/-- An `RTCPeerConnection`.  `number` tells the objects apart, `senders` are the
streams whose tracks were added, `remoteDescriptions` what was handed to
`setRemoteDescription`, oldest first. -/
structure PeerConnection where
  number : Nat
  senders : List Nat
  localDescription : Option Description
  remoteDescriptions : List Description
  deriving DecidableEq, Repr

/-- A row of the table.  Its `id` is the decimal text of the number. -/
structure Row where
  id : Nat
  innerHTML : String
  deriving DecidableEq, Repr

inductive Tone where
  | remoteRing
  | telephoneRing
  deriving DecidableEq, Repr

structure Source where
  number : Nat
  tone : Tone
  stopped : Bool
  deriving DecidableEq, Repr

inductive AsyncFn where
  | call
  | answer
  deriving DecidableEq, Repr

/-- The operation an invocation awaits: `createOffer` or `createAnswer`, or
`setLocalDescription` on the connection with that number. -/
inductive Awaited where
  | creation
  | localDescription (pc : Nat) (description : Description)
  deriving DecidableEq, Repr

/-- An invocation of `Call` or `Answer` at one of its awaits.  `started` is
history: the `remote_id` that `Call` began with, or the `peer_remote_id` that
`Answer` began with. -/
structure Invocation where
  fn : AsyncFn
  started : Id
  awaits : Awaited
  deriving DecidableEq, Repr

def Message.type : Message → String
  | sessionID .. => "SessionID"
  | registerSession .. => "RegisterSession"
  | localIdEvent .. => "LocalIdEvent"
  | localIdChanged => "LocalIdChanged"
  | sessionsChanged .. => "SessionsChanged"
  | call .. => "Call"
  | answer .. => "Answer"
  | hangup .. => "Hangup"
  | iceCandidate .. => "ICECandidate"
  | heartbeat .. => "Heartbeat"
  | other type => type

/-- The state of a page.  `closed`, `sent` and `addressed` are history: the
numbers of the connections that were closed, what was handed to `ws.send`, and for
each Call and Answer among it, in order, the id its invocation began with. -/
structure Client where
  -- peer.js
  pc : Option PeerConnection
  peerRemoteId : Id
  peerRemoteUserName : Name
  callState : CallState
  -- ui.js
  userName : Name
  remoteId : Id
  remotes : List Entry
  rows : List Row
  selectedRow : Option Row
  controlsVisible : Bool
  callDisabled : Bool
  answerDisabled : Bool
  hangupDisabled : Bool
  output : String
  -- local.js
  localStream : Option Nat
  -- audio.js
  remoteRing : Option Nat
  telephoneRing : Option Nat
  -- pulse.js
  heartbeatsMissed : Nat
  heartbeatTimer : Option Nat
  -- websock.js
  sessionID : Nat
  socketClosed : Bool
  -- the browser
  storedName : Name
  connections : Nat
  streams : Nat
  mediaRequests : Nat
  sources : List Source
  nextSource : Nat
  timers : List Nat
  nextTimer : Nat
  suspended : List Invocation
  closed : List Nat
  sent : List Message
  addressed : List Id

abbrev Js := Program Client JsError Empty

def finish {α : Type} : Outcome Client JsError Empty α → Client
  | .ret _ c => c
  | .throw _ c => c

end Mgws.Browser
