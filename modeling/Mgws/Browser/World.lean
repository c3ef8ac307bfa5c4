import Mathlib.Logic.Function.Basic
import Mathlib.Logic.Relation
import Mgws.Browser.Format
import Mgws.Browser.Link
import Mgws.Step
/-!
# The server and all its pages

Every websocket client runs the page.  The server takes the messages of each page in the order
in which the page sends them, one frame each, and the page reads what was queued for it in
order; how fast either goes is open, and so is whatever else the network does.
-/

namespace Mgws

open Lib

def HttpTurn.isPlain : HttpTurn → Bool
  | .message (.websock ..) => false
  | _ => true

def Action.isPlain : Action → Bool
  | .http _ turns | .close _ turns => turns.all HttpTurn.isPlain
  | .ws .. => false
  | _ => true

namespace Browser

/-- The server and the pages, by connection, with what has passed between them: the texts queued
for each client, how many of them it has read, and how many messages of the page the server has
taken. -/
structure World where
  server : Server
  page : ConnPtr → Option Client
  inbox : ConnPtr → List Json
  read : ConnPtr → Nat
  served : ConnPtr → Nat

namespace World

/-- The server goes on to `s`.  What a connection that is freed was sent is not lost. -/
def record (w : World) (s : Server) : World :=
  { w with server := s, inbox := fun k => (s.conn? k).elim (w.inbox k) (·.inbox) }

def setPage (w : World) (k : ConnPtr) (c : Client) : World :=
  { w with page := Function.update w.page k (some c) }

def start : World where
  server := initial
  page _ := none
  inbox _ := []
  read _ := 0
  served _ := 0

/-- One step.  A page runs from the time when its request for `/websock` is answered.  The browser
answers PINGs and closes the socket on its own, and reads nothing more once it is closed. -/
inductive Step [Nlohmann] (w : World) : World → Prop where
  | plain {a s} (ha : a.isPlain) (h : Mgws.step w.server a = .ok s) : Step w (w.record s)
  | join {k c s} (storedName : Name) (host : String) (hc : w.server.conn? k = some c)
      (hopen : c.isOpen) (hpfn : c.pfn = .httpCb) (hresp : c.isResp = false)
      (h : Mgws.step w.server (.http k [.message (.websock true .returns)]) = .ok s) :
      Step w ((w.record s).setPage k (loaded storedName host))
  | control {k frame s} (hop : 2 < frame.op.toNat)
      (h : Mgws.step w.server (.ws k frame) = .ok s) : Step w (w.record s)
  | serve {k c d msg data s} (hpage : w.page k = some c) (hmsg : c.sent[w.served k]? = some msg)
      (hd : w.server.conn? k = some d) (hdata : Nlohmann.parse data = msg.json?)
      (h : Mgws.step w.server (.ws k ⟨129, data⟩) = .ok s) :
      Step w { w.record s with served := Function.update w.served k (w.served k + 1) }
  | event {k c e} (hpage : w.page k = some c) (he : e.isMessage = false) :
      Step w (w.setPage k (c.after e))
  | deliver {k c j msg} (hpage : w.page k = some c) (hopen : c.socketClosed = false)
      (hj : (w.inbox k)[w.read k]? = some j) (hmsg : Message.ofJson? j = some msg) :
      Step w { w.setPage k (c.after (.message msg)) with
        read := Function.update w.read k (w.read k + 1) }

abbrev Reachable [Nlohmann] : World → Prop := Relation.ReflTransGen Step start

end World

/-! ## Runs to look at -/

abbrev parserOfMessages (texts : List (String × Message)) : Nlohmann where
  parse data := (texts.find? fun text => bytes text.1 = data).bind (·.2.json?)

namespace World

inductive Act where
  | plain (a : Action)
  | join (k : ConnPtr) (storedName : Name) (host : String)
  | control (k : ConnPtr) (frame : WsFrame)
  | serve (k : ConnPtr)
  | event (k : ConnPtr) (e : Event)
  | deliver (k : ConnPtr)

def next (texts : List (String × Message)) (w : World) : Act → Option World :=
  let _ := parserOfMessages texts
  fun
  | .plain a => do
      guard a.isPlain
      let s ← (Mgws.step w.server a).toOption
      pure (w.record s)
  | .join k storedName host => do
      let c ← w.server.conn? k
      guard (c.isOpen ∧ c.pfn = .httpCb ∧ c.isResp = false)
      let s ← (Mgws.step w.server (.http k [.message (.websock true .returns)])).toOption
      pure ((w.record s).setPage k (loaded storedName host))
  | .control k frame => do
      guard (2 < frame.op.toNat)
      let s ← (Mgws.step w.server (.ws k frame)).toOption
      pure (w.record s)
  | .serve k => do
      let c ← w.page k
      let msg ← c.sent[w.served k]?
      guard (w.server.conn? k).isSome
      let text ← texts.find? fun text => text.2 = msg
      guard (texts.find? (fun other => bytes other.1 = bytes text.1) = some text)
      let s ← (Mgws.step w.server (.ws k ⟨129, bytes text.1⟩)).toOption
      pure { w.record s with served := Function.update w.served k (w.served k + 1) }
  | .event k e => do
      let c ← w.page k
      guard (e.isMessage = false)
      pure (w.setPage k (c.after e))
  | .deliver k => do
      let c ← w.page k
      guard (c.socketClosed = false)
      let j ← (w.inbox k)[w.read k]?
      let msg ← Message.ofJson? j
      pure { w.setPage k (c.after (.message msg)) with
        read := Function.update w.read k (w.read k + 1) }

end World

def callTexts : List (String × Message) :=
  [("\x7b\"type\":\"RegisterSession\",\"sessionId\":2,\"appVersion\":\"0.1\"," ++
        "\"userName\":\"ann\"\x7d", .registerSession 2 "0.1" (.text "ann")),
    ("\x7b\"type\":\"LocalIdEvent\",\"sessionID\":2,\"userName\":\"ann\"\x7d",
      .localIdEvent 2 (.text "ann")),
    ("\x7b\"type\":\"RegisterSession\",\"sessionId\":3,\"appVersion\":\"0.1\"," ++
        "\"userName\":\"bob\"\x7d", .registerSession 3 "0.1" (.text "bob")),
    ("\x7b\"type\":\"LocalIdEvent\",\"sessionID\":3,\"userName\":\"bob\"\x7d",
      .localIdEvent 3 (.text "bob")),
    ("\x7b\"type\":\"Heartbeat\",\"sessionId\":2\x7d", .heartbeat 2),
    ("\x7b\"type\":\"Call\",\"userName\":\"ann\",\"targetId\":\"3\",\"sessionId\":2," ++
        "\"session\":\x7b\"type\":\"offer\",\"sdp\":\"v=0\"\x7d\x7d",
      .call (.text "ann") "3" 2 (some ⟨"offer", "v=0"⟩))]

/-- Both pages join and register, ann sends a Heartbeat and then calls bob, whose phone rings. -/
def callActs : List World.Act :=
  [.plain (.accept true), .plain (.handshake 2 true), .join 2 (.text "ann") "",
    .plain (.accept true), .plain (.handshake 3 true), .join 3 (.text "bob") "",
    .deliver 2, .deliver 3, .serve 2, .serve 2, .serve 3, .serve 3,
    .deliver 2, .deliver 2, .deliver 2, .event 2 (.userMedia true), .event 2 (.timer 0), .serve 2,
    .event 2 (.rowClick 0), .event 2 .callClick, .event 2 (.settle 0 (.resolved "v=0")),
    .event 2 (.settle 0 (.resolved "")), .serve 2,
    .deliver 3, .deliver 3, .deliver 3, .deliver 3]

end Browser

end Mgws
