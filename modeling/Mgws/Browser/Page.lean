import Mgws.Browser.Peer
import Mgws.Lib.Transition
/-!
# The page as a transition system

`pulse.js`, `websock.js` and `index.js`, and the events that the browser may
dispatch to the page, in any order.  An event that the state rules out does
nothing.
-/

namespace Mgws.Browser

open Lib Program

namespace Client

/-! ## pulse.js -/

def beginHeartbeat (c : Client) : Client :=
  { c with
    heartbeatsMissed := 0
    heartbeatTimer := some c.nextTimer
    timers := c.timers ++ [c.nextTimer]
    nextTimer := c.nextTimer + 1 }

def pulseDetected (c : Client) : Client := { c with heartbeatsMissed := 0 }

def clearHeartbeat (c : Client) : Client :=
  { c with timers := c.timers.filter fun timer => c.heartbeatTimer ≠ some timer }

def heartbeatMaxMissing : Nat := 5

def heartbeat (c : Client) : Client :=
  if c.socketClosed then
    let msgStr := "Signaling server connection lost, ID: " ++ c.sessionID.repr
    (((c.print msgStr).clearHeartbeat).clearRemotesTable).disableButtons
  else
    let c := { c with heartbeatsMissed := c.heartbeatsMissed + 1 }
    let c :=
      if heartbeatMaxMissing ≤ c.heartbeatsMissed then
        (((c.print "Signaling server vanished!").clearHeartbeat).clearRemotesTable).disableButtons
      else c
    c.send (.heartbeat c.sessionID)

/-! ## websock.js -/

def onSessionID (c : Client) (id : Nat) : Client :=
  ((({ c with sessionID := id }.peerRegisterSession).sendLocalIdEvent).beginHeartbeat)

def onClose (c : Client) (wasClean : Bool) : Client :=
  let c := { c with socketClosed := true }
  if wasClean then c else c.print "Unexpected loss of signaling server."

/-! ## index.js -/

def blank (storedName : Name) : Client where
  pc := none
  peerRemoteId := .undefined
  peerRemoteUserName := .undefined
  callState := .idle
  userName := .undefined
  remoteId := .undefined
  remotes := []
  rows := []
  selectedRow := none
  controlsVisible := true
  callDisabled := true
  answerDisabled := true
  hangupDisabled := true
  output := ""
  localStream := none
  remoteRing := none
  telephoneRing := none
  heartbeatsMissed := 0
  heartbeatTimer := none
  sessionID := 0
  socketClosed := false
  storedName := storedName
  connections := 0
  streams := 0
  mediaRequests := 0
  sources := []
  nextSource := 0
  timers := []
  nextTimer := 0
  suspended := []
  closed := []
  sent := []
  addressed := []

def main (c : Client) (host : String) : Client :=
  let c := c.print ("<b>Host:</b> " ++ host)
  let c := { c with userName := c.storedName }
  let c := c.print ("<b>User Name:</b> " ++ c.userName.toText)
  let c := (c.puts "<hr>").puts "."
  let c := c.initLocalStream.puts "."
  let c := (c.puts ".").puts "."
  let c := c.makePeerConnection.puts "."
  let c := c.print "<br>Initialization succeeded!"
  c.print "\nSelect a recipient above to enable calling.\n"

end Client

/-- `PeerMessageHandler`.  An ICE candidate goes to the connection and nowhere
else. -/
def peerMessageHandler : Message → Js Unit
  | .sessionsChanged sessions => onSessionsChangedMessage sessions
  | .call userName _ sessionId session => onCallMessage userName sessionId session
  | .answer _ _ _ session => onAnswerMessage session
  | .hangup .. => onHangupMessage
  | .localIdChanged => pure ()
  | .iceCandidate .. => pure ()
  | .heartbeat _ => modify (·.pulseDetected)
  | msg => modify (·.print ("msg.type: " ++ msg.type))

def onMessage : Message → Js Unit
  | .sessionID id => modify (·.onSessionID id)
  | msg => peerMessageHandler msg

/-- What the browser may dispatch.  Rows, suspended invocations, sources and timers
are named by their position. -/
inductive Event where
  | rowClick (i : Nat)
  | callClick
  | answerClick
  | hangupClick
  | controlsClick
  | message (msg : Message)
  | settle (i : Nat) (settled : Settled)
  | userMedia (granted : Bool)
  | connectionState (state : String)
  | iceCandidate (candidate : Option String)
  | iceCandidateError (text : String)
  | ended (i : Nat)
  | timer (i : Nat)
  | close (wasClean : Bool)

/-- A click reaches the listener of a button unless that is disabled, and then the
one of the wrapper around the controls. -/
def Client.click (c : Client) (disabled : Bool) (listener : Js Unit) : Client :=
  if disabled then c else (finish (listener.run c)).onControlsClick

def Client.after (c : Client) : Event → Client
  | .rowClick i =>
      match c.rows[i]? with
      | none => c
      | some tr => (c.onTableRowClickEvent tr).onControlsClick
  | .callClick => c.click c.callDisabled call
  | .answerClick => c.click c.answerDisabled answer
  | .hangupClick => c.click c.hangupDisabled hangup
  | .controlsClick => c.onControlsClick
  | .message msg => if c.socketClosed then c else finish ((onMessage msg).run c)
  | .settle i settled =>
      match c.suspended[i]? with
      | none => c
      | some inv =>
          finish ((resume inv settled).run { c with suspended := c.suspended.eraseIdx i })
  | .userMedia granted => if c.mediaRequests = 0 then c else c.onUserMedia granted
  | .connectionState state => c.onConnectionStateChange state
  | .iceCandidate candidate => finish ((onIceCandidateEvent candidate).run c)
  | .iceCandidateError text => c.print text
  | .ended i =>
      match c.sources[i]? with
      | none => c
      | some source => c.onEnded source
  | .timer i =>
      match c.timers[i]? with
      | none => c
      | some _ => c.heartbeat
  | .close wasClean => c.onClose wasClean

def step (c : Client) (e : Event) : Except Empty Client := .ok (c.after e)

def loaded (storedName : Name) (host : String) : Client := (Client.blank storedName).main host

def Reachable (c : Client) : Prop :=
  ∃ storedName host, Transition.Reachable step (loaded storedName host) c

end Mgws.Browser
