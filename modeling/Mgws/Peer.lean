import Mgws.SessionManager
/-!
# Peers

The sessions of the signalling server.  A JSON message is dispatched by its
`type` member to a handler; a handler receives the message by reference, so a
member it reads is inserted when it is missing.
-/

namespace Mgws.Peer

open Lib Program

def dispatch : List (String × Option Handler) :=
  [("RegisterSession", some .registerSession),
   ("LocalIdEvent", some .localIdEvent),
   ("ICECandidate", some .forwardMessage),
   ("Call", some .forwardMessage),
   ("Answer", some .forwardMessage),
   ("Hangup", some .forwardMessage),
   ("Heartbeat", some .heartbeat)]

def create (k : ConnPtr) (now : Int) : Session where
  connection := k
  userName := ""
  lastPongTime := now
  pmd := dispatch
  lastHeartbeat := now
  pings := 0
  ticks := 0

def onRegisterSession (j : Json) : Cpp Unit := do
  let (_, j) ← ofExcept (j.subscript "sessionId")
  let (_, j) ← ofExcept (j.subscript "appVersion")
  let _ ← ofExcept (j.subscript "userName")

def onLocalIdEvent (p : SessionPtr) (j : Json) : Cpp Unit :=
  tryCatch (do
    let (sessionId, j) ← ofExcept (j.subscript "sessionID")
    let (userName, _) ← ofExcept (j.subscript "userName")
    let id ← Session.getId p
    if !sessionId.eqNat id then
      pure ()
    else
      let userName ← ofExcept userName.getString
      SessionManager.updateSession id userName
      Session.send p (.obj [("type", .str "LocalIdChanged")])
      SessionManager.updateSessionsList)
    fun _ => pure ()

/-- The message goes out as it is when the target is found.  What follows in
the source only logs. -/
def onForwardMessage (j : Json) : Cpp Unit :=
  tryCatch (do
    let (_, j) ← ofExcept (j.subscript "type")
    let (target, j) ← ofExcept (j.subscript "targetId")
    let targetId ← ofExcept target.getString
    match ← SessionManager.getSessionByIdString targetId with
    | some session => Session.send session j
    | none => pure ())
    fun _ => pure ()

def onHeartbeat (p : SessionPtr) (j : Json) : Cpp Unit := do
  let (_, j) ← ofExcept (j.subscript "sessionId")
  Session.send p j
  modify fun st => st.updateSession p fun s => { s with lastHeartbeat := st.now }

/-- `m_pmd[key]`: a missing key is inserted with an empty function. -/
def lookupHandler (p : SessionPtr) (key : String) : Cpp (Option Handler) := do
  let (s, _) ← deref p
  match s.pmd.lookup key with
  | some handler => pure handler
  | none => do
      modify (·.updateSession p fun s => { s with pmd := s.pmd ++ [(key, none)] })
      pure none

def call (p : SessionPtr) (j : Json) : Option Handler → Cpp Unit
  | some .registerSession => onRegisterSession j
  | some .localIdEvent => onLocalIdEvent p j
  | some .forwardMessage => onForwardMessage j
  | some .heartbeat => onHeartbeat p j
  | none => raise .badFunctionCall

/-- The handler of the catch block reads `j["type"]` again, so on an array or a
scalar the exception leaves this function. -/
def handleMessage (p : SessionPtr) (j : Json) : Cpp Unit :=
  tryCatch (do
    let (type, j) ← ofExcept (j.subscript "type")
    let key ← ofExcept type.getString
    let handler ← lookupHandler p key
    call p j handler)
    fun _ => do
      let _ ← ofExcept (j.subscript "type")

/-- `data` is missing when its length is one that no string can have. -/
def onMessage [Nlohmann] (p : SessionPtr) (data : Option (List UInt8)) : Cpp Unit := do
  let _ ← deref p
  tryCatch (do
    let text ← ofExcept (data.elim (.error .lengthError) .ok)
    let j ← ofExcept ((Nlohmann.parse text).elim (.error .parseError) .ok)
    handleMessage p j)
    fun _ => pure ()

end Mgws.Peer
