import Mgws.State
/-!
# Sessions

The member functions of `Session`.  Each is called through a pointer, and
calling it through a pointer to a deleted session, or on a session whose
connection is freed, is a fault.  Logging is left out.
-/

namespace Mgws

open Lib Program

def deref (p : SessionPtr) : Cpp (Session × Connection) := do
  let st ← get
  match st.heap p with
  | none => abort (.deadSession p)
  | some s =>
      match st.conn? s.connection with
      | none => abort (.freedConnection p)
      | some c => pure (s, c)

def mgWsSend (k : ConnPtr) (frame : Frame) : Cpp Unit :=
  modify (·.queue k frame)

namespace Session

/-- Five seconds: ten poll intervals of 500 ms. -/
def maxHeartbeatSkips : Int := 500 * 10

def heartbeatPayload : List UInt8 := [72, 69, 65, 82, 84, 66, 69, 65, 84, 0]

/-- The low 32 bits of the connection's id. -/
def getId (p : SessionPtr) : Cpp Nat := do
  let (_, c) ← deref p
  pure (c.id % 2 ^ 32)

def getUserName (p : SessionPtr) : Cpp String := do
  let (s, _) ← deref p
  pure s.userName

def setUserName (p : SessionPtr) (name : String) : Cpp Unit := do
  let _ ← deref p
  modify fun st =>
    { st.updateSession p fun s => { s with userName := name } with
      lastChange := some .renamed }

def send (p : SessionPtr) (msg : Json) : Cpp Unit := do
  let (s, _) ← deref p
  mgWsSend s.connection (.text msg)

def onTimerEvent (p : SessionPtr) (ms : Int) : Cpp Unit := do
  let (s, _) ← deref p
  if maxHeartbeatSkips < ms - s.lastPongTime then
    modify fun st =>
      { (st.updateConn s.connection fun c => { c with isClosing := true }).updateSession p
          fun s => { s with ticks := s.ticks + 1 } with
        vanished := st.vanished ++ [(p, s.pings)] }
  else
    mgWsSend s.connection (.ping heartbeatPayload)
    modify (·.updateSession p fun s => { s with pings := s.pings + 1, ticks := s.ticks + 1 })

/-- Only a PONG, opcode 10, has an effect. -/
def onControlMessage (p : SessionPtr) (flags : UInt8) : Cpp Unit := do
  let _ ← deref p
  if flags &&& 0xF = 10 then
    modify fun st =>
      st.updateSession p fun s => { s with lastPongTime := st.now, pings := 0, ticks := 0 }

end Session

end Mgws
