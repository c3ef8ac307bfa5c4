import Mgws.Json
import Mgws.Lib.Program
/-!
# The memory of the server

Connections as mongoose keeps them, sessions as the factory allocates them, and
the two kinds of pointers between them: `fn_data` of a connection and
`m_connection` of a session.  A pointer is the number of an allocation, so it is
never reused; whether it may still be read is a matter of the state.
-/

namespace Mgws

open Lib

/-- An `mg_connection *`: the how-manieth `mg_alloc_conn` returned it. -/
abbrev ConnPtr := Nat

abbrev SessionPtr := Nat

inductive Context where
  | manager
  | session (p : SessionPtr)
  deriving DecidableEq, Repr

/-- `ctx->user_data`.  The context inside a session names that session, before
and after the session is deleted. -/
def Context.userData : Context → Option SessionPtr
  | manager => none
  | session p => some p

inductive Pfn where
  | httpCb
  | staticCb
  | wsCb
  deriving DecidableEq, Repr

/-- What was queued to a client.  A text frame stands for the dump of its
value. -/
inductive Frame where
  | text (msg : Json)
  | ping (data : List UInt8)
  | pong (data : List UInt8)
  | close (data : List UInt8)
  | http (status : Nat)

structure Connection where
  ptr : ConnPtr
  fnData : Context
  pfn : Pfn
  /-- The fragments of an unfinished message, as `mg_ws_cb` keeps them. -/
  frag : List UInt8
  /-- Everything ever queued, oldest first. -/
  send : List Frame
  isListening : Bool
  isWebsocket : Bool
  isTlsHs : Bool
  isResp : Bool
  isDraining : Bool
  isClosing : Bool

def Frame.text? : Frame → Option Json
  | text msg => some msg
  | _ => none

def Connection.inbox (c : Connection) : List Json := c.send.filterMap Frame.text?

def Connection.id (c : Connection) : Nat := c.ptr % 2 ^ 64

def sessionId (k : ConnPtr) : Nat := k % 2 ^ 64 % 2 ^ 32

def Connection.attached (c : Connection) : Option SessionPtr :=
  if c.isWebsocket then c.fnData.userData else none

inductive Handler where
  | registerSession
  | localIdEvent
  | forwardMessage
  | heartbeat
  deriving DecidableEq, Repr

/-- A `Peer`.  The last two fields are history: the PINGs queued and the timer
enumerations that reached the session, both since its last PONG. -/
structure Session where
  connection : ConnPtr
  userName : String
  lastPongTime : Int
  pmd : List (String × Option Handler)
  lastHeartbeat : Int
  pings : Nat
  ticks : Nat

inductive Change where
  | added
  | renamed
  | deleted
  deriving DecidableEq, Repr

/-- `conns` is the list of the event manager, newest connection first.  A
connection that `mg_close_conn` has unlinked but not yet freed is `detached`.
`lastChange` and `vanished` are history: the last change to the directory, and
each session that the timer marked with its `pings` at that moment. -/
structure Server where
  conns : List Connection
  detached : Option Connection
  nextid : Nat
  heap : SessionPtr → Option Session
  nextSession : SessionPtr
  now : Int
  lastChange : Option Change
  vanished : List (SessionPtr × Nat)

inductive Fault where
  | nullSession
  /-- `ctx->_mgws` of a context inside a deleted session. -/
  | deadContext (p : SessionPtr)
  | deadSession (p : SessionPtr)
  | freedConnection (p : SessionPtr)
  | doubleDelete (p : SessionPtr)
  | uncaught (e : Exn)
  deriving DecidableEq, Repr

abbrev Cpp := Program Server Exn Fault

namespace Server

def allocated (st : Server) : List Connection :=
  st.conns ++ st.detached.toList

def conn? (st : Server) (k : ConnPtr) : Option Connection :=
  st.allocated.find? fun c => c.ptr = k

def updateConn (st : Server) (k : ConnPtr) (f : Connection → Connection) : Server :=
  { st with
    conns := st.conns.map fun c => if c.ptr = k then f c else c
    detached := st.detached.map fun c => if c.ptr = k then f c else c }

def updateSession (st : Server) (p : SessionPtr) (f : Session → Session) : Server :=
  { st with heap := fun q => if q = p then (st.heap q).map f else st.heap q }

def queue (st : Server) (k : ConnPtr) (frame : Frame) : Server :=
  st.updateConn k fun c => { c with send := c.send ++ [frame] }

end Server

end Mgws
