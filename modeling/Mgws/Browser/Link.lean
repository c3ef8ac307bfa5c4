import Mgws.Browser.Page
/-!
# A page and its server

One page, the server, and a channel in either direction, which keeps what is in it in
order and loses nothing.  The server assigns the session once.  It returns each Heartbeat
when it gets to it, as `Peer::OnHeartbeat` does, and may send the page anything else at
any time.
-/

namespace Mgws.Browser

open Lib

def Message.isHeartbeat : Message → Bool
  | heartbeat _ => true
  | _ => false

def Message.isSessionID : Message → Bool
  | sessionID _ => true
  | _ => false

def Event.isMessage : Event → Bool
  | message _ => true
  | _ => false

/-- The page and what is in the channels, oldest first.  A message to the server goes with its
position in `page.sent`.  An echo goes with the position of the Heartbeat that it returns;
`echoed` is history, the positions whose echo has reached the page. -/
structure Link where
  page : Client
  toServer : List (Message × Nat)
  toClient : List (Message × Option Nat)
  echoed : List Nat

/-- The positions of the Heartbeats that a page has sent. -/
def Client.beats (c : Client) : List Nat :=
  (c.sent.zipIdx.filter fun sent => sent.1.isHeartbeat).map fun sent => sent.2

namespace Link

/-- What can happen next: an event on the page other than a message, the server takes a message
or sends one of its own, or a message reaches the page. -/
inductive Act where
  | event (e : Event)
  | serve
  | push (msg : Message)
  | deliver

def dispatch (s : Link) (e : Event) : Link :=
  { s with
    page := s.page.after e
    toServer := s.toServer ++ (s.page.after e).sent.zipIdx.drop s.page.sent.length }

/-- The state after an act.  One that the state rules out does nothing. -/
def after (s : Link) : Act → Link
  | .event e => if e.isMessage then s else s.dispatch e
  | .serve =>
      match s.toServer with
      | [] => s
      | (msg, n) :: rest =>
          { s with
            toServer := rest
            toClient := s.toClient ++ if msg.isHeartbeat then [(msg, some n)] else [] }
  | .push msg =>
      if msg.isSessionID then s else { s with toClient := s.toClient ++ [(msg, none)] }
  | .deliver =>
      match s.toClient with
      | [] => s
      | (msg, echo) :: rest =>
          -- Nothing reaches a page whose socket is closed.
          let arrived := if s.page.socketClosed then [] else echo.toList
          { s with toClient := rest, echoed := s.echoed ++ arrived }.dispatch (.message msg)

def step (s : Link) (a : Act) : Except Empty Link := .ok (s.after a)

def start (storedName : Name) (host : String) (id : Nat) : Link where
  page := loaded storedName host
  toServer := []
  toClient := [(.sessionID id, none)]
  echoed := []

/-- The page declares that the server has vanished: its timer ticks while the socket is open, and
the Heartbeat that is about to be sent is one too many. -/
def Declares (s : Link) : Act → Prop
  | .event (.timer i) => i < s.page.timers.length ∧ s.page.socketClosed = false ∧
      Client.heartbeatMaxMissing ≤ s.page.heartbeatsMissed + 1
  | _ => False

end Link

end Mgws.Browser
