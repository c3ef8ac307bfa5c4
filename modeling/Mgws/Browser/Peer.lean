import Mgws.Browser.Ui
/-!
# Calls

`local.js`, `peer.js` and the two functions of `ui.js` that end a call.  What
`Call` and `Answer` do after an await is a function of its own, and so is the
operation that they await.
-/

namespace Mgws.Browser

open Lib Program

namespace Client

def send (c : Client) (msg : Message) : Client := { c with sent := c.sent ++ [msg] }

/-! ## local.js -/

def sendLocalIdEvent (c : Client) : Client := c.send (.localIdEvent c.sessionID c.userName)

/-- A request for media; `onUserMedia` is what becomes of it. -/
def initLocalStream (c : Client) : Client := { c with mediaRequests := c.mediaRequests + 1 }

/-- `getUserMedia` settles.  A refusal is logged only. -/
def onUserMedia (c : Client) (granted : Bool) : Client :=
  let c := { c with mediaRequests := c.mediaRequests - 1 }
  if granted then { c with localStream := some c.streams, streams := c.streams + 1 } else c

/-! ## peer.js -/

def peerRegisterSession (c : Client) : Client :=
  c.send (.registerSession c.sessionID "0.1" c.storedName)

def resetCallState (c : Client) : Client := c.updateCallStateUI .idle

def setPeerRemoteId (c : Client) (id : Id) : Client := { c with peerRemoteId := id }

/-- Listeners that the buttons have already are not added again. -/
def makePeerConnection (c : Client) : Client :=
  let c := c.resetCallState
  { c with
    pc := some
      { number := c.connections, senders := [], localDescription := none,
        remoteDescriptions := [] }
    connections := c.connections + 1 }

def closePc (c : Client) (pc : PeerConnection) : Client :=
  { c with closed := c.closed ++ [pc.number], pc := none }

/-- What `EndCall` does once the local stream is stopped. -/
def replacePc (c : Client) : Client :=
  let c := match c.pc with
    | none => c
    | some pc => (((c.closePc pc).makePeerConnection).initLocalStream).resetCallState
  c.setCallState .idle

def announce (c : Client) (ringing calling connected : String) : Client :=
  let name := (c.getUserNameFromId c.peerRemoteId).toText
  match c.callState with
  | .ringing => c.print (ringing ++ name)
  | .calling => c.print (calling ++ name)
  | .connected => c.print (connected ++ name)
  | _ => c

def suspend (c : Client) (inv : Invocation) : Client :=
  { c with suspended := c.suspended ++ [inv] }

def updatePc (c : Client) (f : PeerConnection → PeerConnection) : Client :=
  { c with pc := c.pc.map f }

/-- `setLocalDescription` has succeeded on the connection with that number. -/
def describe (c : Client) (number : Nat) (description : Description) : Client :=
  c.updatePc fun pc =>
    if pc.number = number then { pc with localDescription := some description } else pc

/-- The event goes to the connection that is in use: one that was closed fires none. -/
def onConnectionStateChange (c : Client) (state : String) : Client :=
  if state = "connected" then
    (c.print (state ++ " to " ++ (c.getUserNameFromId c.peerRemoteId).toText)).setCallState
      .connected
  else c

end Client

/-- `localStream.getTracks()` throws on null. -/
def stopLocalStream : Js Unit := do
  let c ← get
  match c.localStream with
  | none => raise .typeError
  | some _ => pure ()

def endCall : Js Unit := do
  stopLocalStream
  modify (·.replacePc)

def getPc : Js PeerConnection := do
  let c ← get
  match c.pc with
  | none => raise .typeError
  | some pc => pure pc

/-- Add each track of the local stream to the connection.  A track that has been
added is refused. -/
def addTracks : Js Unit := do
  let c ← get
  match c.localStream with
  | none => raise .typeError
  | some stream =>
      let pc ← getPc
      if stream ∈ pc.senders then
        raise .invalidAccessError
      else
        modify (·.updatePc fun pc => { pc with senders := pc.senders ++ [stream] })

def signal (started : Id) (msg : Name → String → Nat → Option Description → Message) :
    Js Unit := do
  let c ← get
  let targetId ← ofExcept c.peerRemoteId.toString
  let pc ← getPc
  modify fun c =>
    { c.send (msg c.userName targetId c.sessionID pc.localDescription) with
      addressed := c.addressed ++ [started] }

def await (fn : AsyncFn) (started : Id) (awaits : PeerConnection → Awaited) : Js Unit := do
  let pc ← getPc
  modify (·.suspend { fn := fn, started := started, awaits := awaits pc })

def orFail (x : Js Unit) : Js Unit :=
  tryCatch x fun e => modify (·.print ("Failed to create offer: " ++ e.toText))

/-- `Call` up to its first await.  The test before the tracks are added compares
the type of the stream with null and never holds. -/
def call : Js Unit := do
  let c ← get
  let started := c.remoteId
  modify fun c => (c.setPeerRemoteId c.remoteId).setCallState .calling
  modify fun c => c.updateRemoteId c.remoteId
  modify fun c => { c with peerRemoteUserName := c.getUserNameFromId c.peerRemoteId }
  modify fun c => c.print ("calling " ++ c.peerRemoteUserName.toText ++ "...")
  tryCatch addTracks fun err => modify (·.print ("caught error: " ++ err.toText))
  orFail (await .call started fun _ => .creation)

def answer : Js Unit := do
  addTracks
  let c ← get
  await .answer c.peerRemoteId fun _ => .creation

/-- How a promise settles.  What `setLocalDescription` resolves to is not used. -/
inductive Settled where
  | resolved (sdp : String)
  | rejected (reason : String)
  deriving DecidableEq, Repr

def resumeCall (started : Id) : Awaited → Settled → Js Unit
  | _, .rejected reason => orFail (raise (.rejected reason))
  | .creation, .resolved sdp =>
      orFail (await .call started fun pc => .localDescription pc.number ⟨"offer", sdp⟩)
  | .localDescription number description, .resolved _ => do
      modify (·.describe number description)
      orFail (signal started .call)

def resumeAnswer (started : Id) : Awaited → Settled → Js Unit
  | _, .rejected reason => raise (.rejected reason)
  | .creation, .resolved sdp =>
      await .answer started fun pc => .localDescription pc.number ⟨"answer", sdp⟩
  | .localDescription number description, .resolved _ => do
      modify (·.describe number description)
      modify fun c => c.updateRemoteId c.peerRemoteId
      modify fun c => c.highlightOnById c.peerRemoteId
      modify fun c =>
        c.print ("answering " ++ (c.getUserNameFromId c.peerRemoteId).toText ++ "...")
      signal started .answer
      modify (·.disableAnswer true)

def resume (inv : Invocation) (settled : Settled) : Js Unit :=
  match inv.fn with
  | .call => resumeCall inv.started inv.awaits settled
  | .answer => resumeAnswer inv.started inv.awaits settled

def hangup : Js Unit := do
  modify (·.announce "declining call from " "cancelling call to " "ending call to ")
  endCall
  let c ← get
  let targetId ← ofExcept c.peerRemoteId.toString
  modify (·.send (.hangup c.userName targetId))

def onIceCandidateEvent : Option String → Js Unit
  | none => pure ()
  | some candidate => do
      let c ← get
      let targetId ← ofExcept c.peerRemoteId.toString
      modify (·.send (.iceCandidate c.userName targetId candidate))

/-- `pc.setRemoteDescription(new RTCSessionDescription(session))`.  The promise is
not awaited. -/
def setRemoteDescription (session : Option Description) : Js Unit := do
  let _ ← getPc
  match session with
  | none => raise .typeError
  | some description =>
      modify (·.updatePc fun pc =>
        { pc with remoteDescriptions := pc.remoteDescriptions ++ [description] })

def onCallMessage (userName : Name) (sessionId : Nat) (session : Option Description) :
    Js Unit := do
  modify fun c => (c.setPeerRemoteId (.num sessionId)).setCallState .ringing
  modify fun c => { c with peerRemoteUserName := userName }
  modify fun c => c.print ("call from " ++ c.peerRemoteUserName.toText)
  setRemoteDescription session

def onAnswerMessage (session : Option Description) : Js Unit := setRemoteDescription session

def onHangupMessage : Js Unit := do
  modify (·.announce "call cancelled by " "call declined by " "call ended by ")
  endCall

/-! ## ui.js -/

def detectVanishedSession (sessions : List Entry) : Js Unit := do
  let c ← get
  if CallState.identified.value ≤ c.callState.value then
    if !sessions.any fun session => c.remoteId.number? = some session.sessionId then
      modify fun c => c.print (" connection to " ++ c.peerRemoteUserName.toText ++ " vanished.")
      modify fun c => { c with remoteId := .null }
      endCall

def onSessionsChangedMessage (sessions : List Entry) : Js Unit := do
  detectVanishedSession sessions
  modify fun c => sessions.foldl Client.addRow c.clearRemotesTable

end Mgws.Browser
