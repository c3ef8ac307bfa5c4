import Mgws.Browser.State
/-!
# Tones and user interface

`audio.js` and `ui.js`.  The class names of rows, the video elements and the
wrapper's style are left out: no code reads them back.
-/

namespace Mgws.Browser

def Entry.cell (session : Entry) : String :=
  "<td id=\"" ++ session.sessionId.repr ++ "\" class=\"\">" ++ session.userName ++ "</td>"

def Entry.row (session : Entry) : Row where
  id := session.sessionId
  innerHTML := session.cell

namespace Client

open Lib

/-! ## audio.js -/

def sound (c : Client) : Tone → Option Nat
  | .remoteRing => c.remoteRing
  | .telephoneRing => c.telephoneRing

def play (c : Client) (tone : Tone) : Client :=
  let c := match tone with
    | .remoteRing => { c with remoteRing := some c.nextSource }
    | .telephoneRing => { c with telephoneRing := some c.nextSource }
  { c with
    sources := c.sources ++ [{ number := c.nextSource, tone := tone, stopped := false }]
    nextSource := c.nextSource + 1 }

/-- Only the source started last is stopped. -/
def stop (c : Client) (tone : Tone) : Client :=
  match c.sound tone with
  | none => c
  | some number =>
      { c with
        sources := c.sources.map fun s =>
          if s.number = number then { s with stopped := true } else s }

def abortTone (c : Client) (tone : Tone) : Bool × Client :=
  if c.callState = .connected ∨ c.callState = .idle then (true, c.stop tone) else (false, c)

def onEnded (c : Client) (source : Source) : Client :=
  let c := { c with sources := c.sources.filter fun s => s.number ≠ source.number }
  let (aborted, c) := c.abortTone source.tone
  if aborted then c else c.play source.tone

/-! ## ui.js -/

def puts (c : Client) (what : String) : Client := { c with output := c.output ++ what }

def print (c : Client) (what : String) : Client := c.puts (what ++ "<br>")

def disableCall (c : Client) (disable : Bool) : Client := { c with callDisabled := disable }

def disableAnswer (c : Client) (disable : Bool) : Client := { c with answerDisabled := disable }

def disableHangup (c : Client) (disable : Bool) : Client := { c with hangupDisabled := disable }

def disableButtons (c : Client) : Client :=
  ((c.disableCall true).disableAnswer true).disableHangup true

def setControlsVisible (c : Client) (visible : Bool) : Client :=
  { c with controlsVisible := visible }

def toggleControlVisibility (c : Client) : Client := c.setControlsVisible !c.controlsVisible

def updateRemoteId (c : Client) (id : Id) : Client :=
  { c with remoteId := id }.disableCall false

def showIdentified (c : Client) : Client :=
  (((c.setControlsVisible true).disableCall false).disableAnswer true).disableHangup true

def updateCallStateUI (c : Client) : CallState → Client
  | .idle =>
      let c := ((c.setControlsVisible true).disableButtons.stop .remoteRing).stop .telephoneRing
      if c.remoteId.truthy then c.showIdentified else c
  | .identified => c.showIdentified
  | .calling =>
      (((c.disableCall true).disableAnswer true).disableHangup false).play .remoteRing
  | .ringing =>
      (((c.disableCall true).disableAnswer false).disableHangup false).play .telephoneRing
  | .connected =>
      ((((((c.setControlsVisible false).disableCall true).disableAnswer true).disableHangup
        false).stop .remoteRing).stop .telephoneRing)

/-- `SetCallState`, which `peer.js` exports. -/
def setCallState (c : Client) (state : CallState) : Client :=
  { c with callState := state }.updateCallStateUI state

/-- `HighlightOn` and `HighlightOff`, which differ in the class name they leave. -/
def highlight (c : Client) (row : Row) : Client := c.updateRemoteId (.text row.id)

def highlightOnById (c : Client) (id : Id) : Client :=
  c.rows.foldl (fun c row => if id.number? = some row.id then c.highlight row else c) c

/-- A click on the cell of a row, whose `parentNode` is the row.  The markup of a name may put other
elements into the cell; a click on one of those is not modelled. -/
def onTableRowClickEvent (c : Client) (tr : Row) : Client :=
  let c := match c.selectedRow with
    | none => c
    | some row => c.highlight row
  ({ c with selectedRow := some tr }.highlight tr).setCallState .identified

def clearRemotesTable (c : Client) : Client := { c with rows := [], remotes := [] }

/-- The body of the loop in `OnSessionsChangedMessage`. -/
def addRow (c : Client) (session : Entry) : Client :=
  if session.sessionId = c.sessionID then c
  else
    { c with
      remotes := c.remotes ++ [session]
      rows := c.rows ++ [session.row] }

def getUserNameFromId (c : Client) (id : Id) : Name :=
  match c.remotes.find? fun remote => id.number? = some remote.sessionId with
  | some remote => .text remote.userName
  | none => .null

def onControlsClick (c : Client) : Client :=
  if c.callState = .connected then c.toggleControlVisibility else c

end Client

end Mgws.Browser
