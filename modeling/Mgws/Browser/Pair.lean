import Mathlib.Logic.Function.Basic
import Mgws.Browser.Page
/-!
# Two pages and the server between them

Both pages have joined and nobody else joins or leaves.  The server hands on what is
addressed to a session and returns heartbeats, without loss and in order; so do
`Peer::OnForwardMessage` and `Peer::OnHeartbeat` for sessions that are alive and messages that
the server can parse.
-/

namespace Mgws.Browser

open Lib

/-- The pages, and what the server has relayed to each of them and is not yet processed,
oldest first. -/
structure Pair where
  page : Bool → Client
  inbox : Bool → List Message

def Message.relayed (sender target : Nat) : Message → Bool
  | call _ targetId _ _ | answer _ targetId _ _ | hangup _ targetId
  | iceCandidate _ targetId _ => targetId = target.repr
  | heartbeat _ => sender = target
  | _ => false

/-- Messages come from the server, and the sockets stay open. -/
def Event.isLocal : Event → Bool
  | .message _ | .close _ => false
  | _ => true

/-- What can happen next: an event on one page other than a message, or the arrival of the
oldest message to a page. -/
inductive Act where
  | event (x : Bool) (e : Event)
  | deliver (x : Bool)

namespace Pair

def dispatch (s : Pair) (x : Bool) (e : Event) : Pair :=
  let c := s.page x
  let sent := (c.after e).sent.drop c.sent.length
  { page := Function.update s.page x (c.after e)
    inbox := fun y => s.inbox y ++ sent.filter (·.relayed c.sessionID (s.page y).sessionID) }

def after (s : Pair) : Act → Pair
  | .event x e => if e.isLocal then s.dispatch x e else s
  | .deliver x =>
      match s.inbox x with
      | [] => s
      | msg :: rest =>
          { s with inbox := Function.update s.inbox x rest }.dispatch x (.message msg)

def step (s : Pair) (a : Act) : Except Empty Pair := .ok (s.after a)

def joined (id : Bool → Nat) (storedName : Bool → Name) (host : Bool → String)
    (userName : Bool → String) : Pair where
  page x := ((loaded (storedName x) (host x)).after (.message (.sessionID (id x)))).after
    (.message (.sessionsChanged [⟨id false, userName false⟩, ⟨id true, userName true⟩]))
  inbox _ := []

def Quiet (s : Pair) : Prop := ∀ x, s.inbox x = [] ∧ (s.page x).suspended = []

end Pair

end Mgws.Browser
