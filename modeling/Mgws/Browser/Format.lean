import Mgws.Browser.State
import Mgws.Json
/-!
# The messages as JSON

What `JSON.stringify` makes of the messages of a page, and the server of its own.  The
members are in the order in which the code writes them.  Conversely, what the page finds
under the members that it reads of a message.
-/

namespace Mgws.Browser

/-- The member `userName`.  One that is undefined is left out; one that is not well formed is no
value of the server's, and `Message.json?` lets none get there. -/
def Name.member : Name → List (String × Json)
  | undefined | illFormed _ => []
  | null => [("userName", .null)]
  | text s => [("userName", .str s)]

def Description.toJson (d : Description) : Json :=
  .obj [("type", .str d.type), ("sdp", .str d.sdp)]

def sessionJson : Option Description → Json
  | none => .null
  | some d => d.toJson

def Entry.toJson (entry : Entry) : Json :=
  .obj [("sessionId", .int entry.sessionId), ("userName", .str entry.userName)]

/-- Of a candidate, its text is kept. -/
def Message.toJson : Message → Json
  | .sessionID id => .obj [("type", .str "SessionID"), ("id", .int id)]
  | registerSession sessionId appVersion userName =>
      .obj ([("type", .str "RegisterSession"), ("sessionId", .int sessionId),
        ("appVersion", .str appVersion)] ++ userName.member)
  | localIdEvent id userName =>
      .obj ([("type", .str "LocalIdEvent"), ("sessionID", .int id)] ++ userName.member)
  | localIdChanged => .obj [("type", .str "LocalIdChanged")]
  | sessionsChanged sessions =>
      .obj [("type", .str "SessionsChanged"), ("sessions", .arr (sessions.map Entry.toJson))]
  | call userName targetId sessionId session =>
      .obj (("type", .str "Call") :: userName.member ++ [("targetId", .str targetId),
        ("sessionId", .int sessionId), ("session", sessionJson session)])
  | answer userName targetId sessionId session =>
      .obj (("type", .str "Answer") :: userName.member ++ [("targetId", .str targetId),
        ("sessionId", .int sessionId), ("session", sessionJson session)])
  | hangup userName targetId =>
      .obj (("type", .str "Hangup") :: userName.member ++ [("targetId", .str targetId)])
  | iceCandidate userName targetId candidate =>
      .obj (("type", .str "ICECandidate") :: userName.member ++ [("targetId", .str targetId),
        ("candidate", .obj [("candidate", .str candidate)])])
  | heartbeat sessionId => .obj [("type", .str "Heartbeat"), ("sessionId", .int sessionId)]
  | other type => .obj [("type", .str type)]

def Message.userName? : Message → Option Name
  | registerSession _ _ userName | localIdEvent _ userName | call userName .. | answer userName ..
  | hangup userName _ | iceCandidate userName .. => some userName
  | _ => none

def Message.wellFormed (msg : Message) : Bool := msg.userName?.all Name.wellFormed

/-- What `nlohmann::json` makes of the text that `JSON.stringify` writes: a surrogate without its
partner is written as an escape, which the parser refuses. -/
def Message.json? (msg : Message) : Option Json :=
  if msg.wellFormed then some msg.toJson else none

/-! ## Reading -/

def str? (j : Json) (key : String) : Option String :=
  match j.find? key with
  | some (.str s) => some s
  | _ => none

def id? (j : Json) (key : String) : Option Nat :=
  match j.find? key with
  | some (.int (.ofNat n)) => some n
  | _ => none

def Name.ofJson? (j : Json) : Option Name :=
  match j.find? "userName" with
  | none => some undefined
  | some .null => some null
  | some (.str s) => some (text s)
  | _ => none

def Description.ofJson? (j : Json) : Option Description := do
  some ⟨← str? j "type", ← str? j "sdp"⟩

def session? (j : Json) : Option (Option Description) :=
  match j.find? "session" with
  | some .null => some none
  | some d => (Description.ofJson? d).map some
  | none => none

def Entry.ofJson? (j : Json) : Option Entry := do
  some ⟨← id? j "sessionId", ← str? j "userName"⟩

def sessions? (j : Json) : Option (List Entry) :=
  match j.find? "sessions" with
  | some (.arr entries) => entries.mapM Entry.ofJson?
  | _ => none

/-- The message as the page reads it; none when a member that it reads has another type. -/
def Message.ofJson? (j : Json) : Option Message := do
  match ← str? j "type" with
  | "SessionID" => some (.sessionID (← id? j "id"))
  | "RegisterSession" =>
      some (.registerSession (← id? j "sessionId") (← str? j "appVersion") (← Name.ofJson? j))
  | "LocalIdEvent" => some (.localIdEvent (← id? j "sessionID") (← Name.ofJson? j))
  | "LocalIdChanged" => some .localIdChanged
  | "SessionsChanged" => some (.sessionsChanged (← sessions? j))
  | "Call" =>
      some (.call (← Name.ofJson? j) (← str? j "targetId") (← id? j "sessionId") (← session? j))
  | "Answer" =>
      some (.answer (← Name.ofJson? j) (← str? j "targetId") (← id? j "sessionId") (← session? j))
  | "Hangup" => some (.hangup (← Name.ofJson? j) (← str? j "targetId"))
  | "ICECandidate" =>
      let candidate ← j.find? "candidate"
      some (.iceCandidate (← Name.ofJson? j) (← str? j "targetId") (← str? candidate "candidate"))
  | "Heartbeat" => some (.heartbeat (← id? j "sessionId"))
  | type => some (.other type)

end Mgws.Browser
