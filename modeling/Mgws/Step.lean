import Mgws.Mongoose
import Mgws.Lib.Transition
/-!
# The server as a transition system

One action is one thing `mg_mgr_poll` may do next: a timer callback, or a read,
a write or a close on one connection.  Any action may follow any other; one
that the state of its connection rules out does nothing.
-/

namespace Mgws

open Lib Program

inductive Action where
  /-- The listener is readable. -/
  | accept (tlsOk : Bool)
  | handshake (k : ConnPtr) (ok : Bool)
  /-- A read on a connection that is served by `http_cb`. -/
  | http (k : ConnPtr) (turns : List HttpTurn)
  /-- `static_cb` has sent the whole file. -/
  | fileDone (k : ConnPtr)
  /-- A read on a connection that is served by `mg_ws_cb`. -/
  | ws (k : ConnPtr) (frame : WsFrame)
  | tick
  | clock (now : Int)
  /-- The send buffer of a draining connection is empty. -/
  | drained (k : ConnPtr)
  /-- The socket of a connection fails or reaches its end. -/
  | error (k : ConnPtr)
  /-- An event without a branch anywhere, such as `MG_EV_POLL` or `MG_EV_ERROR`. -/
  | notify (k : ConnPtr)
  | close (k : ConnPtr) (turns : List HttpTurn)

def onConn (k : ConnPtr) (p : Connection → Bool) (x : Cpp Unit) : Cpp Unit := do
  let st ← get
  if (st.conn? k).any p then x else pure ()

/-- A connection that can have application data in its receive buffer. -/
def Connection.isOpen (c : Connection) : Bool := !c.isListening && !c.isTlsHs

def perform [Nlohmann] : Action → Cpp Unit
  | .accept tlsOk => do
      let st ← get
      if st.conns.any fun c => c.isListening && !c.isClosing then
        acceptConn tlsOk
  | .handshake k ok => onConn k (·.isTlsHs) (mgTlsHandshake k ok)
  | .http k turns => onConn k (fun c => c.isOpen && c.pfn = .httpCb) (httpCb k turns)
  | .fileDone k => onConn k (fun c => c.pfn = .staticCb) (restoreHttpCb k)
  | .ws k frame => onConn k (fun c => c.isOpen && c.pfn = .wsCb) (mgWsCb k frame)
  | .tick => do
      let st ← get
      SessionManager.timerEvent st.now
  | .clock now => modify fun st => if st.now ≤ now then { st with now := now } else st
  | .drained k => onConn k (·.isDraining) (setConn k fun c => { c with isClosing := true })
  | .error k => onConn k (fun _ => true) (setConn k fun c => { c with isClosing := true })
  | .notify k => mgNotify k
  | .close k turns => onConn k (·.isClosing) do
      let st ← get
      mgCloseConn k (if (st.conn? k).any (·.isOpen) then turns else [])

def step [Nlohmann] (st : Server) (a : Action) : Except Fault Server :=
  match (perform a).run st with
  | .ret _ st' => .ok st'
  | .throw e _ => .error (.uncaught e)
  | .fault f => .error f

/-- `mg_http_listen` has allocated the first connection. -/
def initial : Server where
  conns :=
    [{ ptr := 1, fnData := .manager, pfn := .httpCb, frag := [], send := [],
       isListening := true, isWebsocket := false, isTlsHs := false, isResp := false,
       isDraining := false, isClosing := false }]
  detached := none
  nextid := 1
  heap := fun _ => none
  nextSession := 0
  now := 0
  lastChange := none
  vanished := []

abbrev Reachable [Nlohmann] (st : Server) : Prop := Transition.Reachable step initial st

def Action.NoThrow : Action → Prop
  | http _ turns | close _ turns =>
      ∀ hasKey run, .message (.websock hasKey run) ∈ turns → run.made
  | _ => True

abbrev ReachableNoThrow [Nlohmann] (st : Server) : Prop :=
  Transition.ReachableBy step Action.NoThrow initial st

/-! ## Runs to look at -/

def connect (k : ConnPtr) (hms : List HttpMessage) : List Action :=
  [.accept true, .handshake k true, .http k (hms.map .message)]

def joining (k : ConnPtr) : List Action := connect k [.websock true .returns]

def bytes (text : String) : List UInt8 := text.toList.map fun c => UInt8.ofNat c.toNat

abbrev parserOf (text : String) (j : Json) : Nlohmann where
  parse data := if data = bytes text then some j else none

def renameText : String :=
  "\x7b\"type\":\"LocalIdEvent\",\"sessionID\":2,\"userName\":\"ann\"\x7d"

def renameMsg : Json :=
  .obj [("type", .str "LocalIdEvent"), ("sessionID", .int 2), ("userName", .str "ann")]

def textFrame (text : String) : WsFrame := ⟨129, bytes text⟩

end Mgws
