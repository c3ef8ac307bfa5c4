import Mgws.Session
/-!
# The session manager

Enumeration, lookup and broadcast over the connection list of mongoose.
-/

namespace Mgws.SessionManager

open Lib Program

/-- The loop of `Iterate` from one connection on.  It returns, rather than
continues, at a connection that is not a websocket and at one whose context
carries no session. -/
def iterateFrom {β : Type} (fn : β → SessionPtr → Cpp β) : List Connection → β → Cpp β
  | [], acc => pure acc
  | c :: cs, acc =>
      if !c.isWebsocket then
        pure acc
      else
        match c.fnData.userData with
        | none => pure acc
        | some session => do
            let acc ← fn acc session
            iterateFrom fn cs acc

/-- `Iterate(fn)`.  What the callback captures by reference is the value `acc`.
No callback changes the list, the websocket flag or `fn_data`, so the loop may
read them once at its start. -/
def iterate {β : Type} (fn : β → SessionPtr → Cpp β) (acc : β) : Cpp β := do
  let st ← get
  iterateFrom fn st.conns acc

/-- `GetSessionById(SessionID_t)`: the last session enumerated with that id. -/
def getSessionById (sessId : Nat) : Cpp (Option SessionPtr) :=
  iterate (fun session sess => do
    let id ← Session.getId sess
    pure (if id = sessId then some sess else session)) none

/-- `GetSessionById(const std::string&)`: the text is read as an `int` and then
converted to 32 unsigned bits. -/
def getSessionByIdString (sessId : String) : Cpp (Option SessionPtr) := do
  let i ← ofExcept ((stoi sessId).mapError .stoi)
  getSessionById (i % 2 ^ 32).toNat

/-- `UpdateSession`, without a check of the pointer it found. -/
def updateSession (id : Nat) (userName : String) : Cpp Unit := do
  match ← getSessionByIdString id.repr with
  | none => abort .nullSession
  | some session => Session.setUserName session userName

def entry (id : Nat) (userName : String) : Json :=
  .obj [("sessionId", .int id), ("userName", .str userName)]

def list (msg : Json) (session : SessionPtr) : Cpp Json := do
  let id ← Session.getId session
  let userName ← Session.getUserName session
  ofExcept (msg.pushTo "sessions" (entry id userName))

def updateSessionsList : Cpp Unit := do
  let msg ← iterate list (.obj [("type", .str "SessionsChanged")])
  iterate (fun _ session => Session.send session msg) ()

def timerEvent (ms : Int) : Cpp Unit :=
  iterate (fun _ session => Session.onTimerEvent session ms) ()

end Mgws.SessionManager
