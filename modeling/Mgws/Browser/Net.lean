import Mathlib.Logic.Function.Basic
import Mathlib.Logic.Relation
import Mgws.Browser.Link
import Mgws.State
/-!
# Pages that send each other messages

What the server is for: a page has a session, says things that other pages or it itself should
hear, and hears them in the order in which they were passed on.  There is no server here and no
text, only the pages and the letters to each of them.
-/

namespace Mgws.Browser

/-- A message to a page.  One that comes from a page goes with that page and the position of the
message among those that the page has sent. -/
structure Letter where
  msg : Message
  origin : Option (ConnPtr × Nat)

def Letter.from? (i : ConnPtr) (l : Letter) : Option Nat :=
  l.origin.bind fun origin => if origin.1 = i then some origin.2 else none

/-- What the server says of its own: a directory of pages, or that a name is taken over. -/
inductive News (page : ConnPtr → Option Client) : Message → Prop
  | directory {sessions} (h : ∀ entry ∈ sessions, ∃ j, (page j).isSome ∧
      entry.sessionId = sessionId j) : News page (.sessionsChanged sessions)
  | confirmed : News page .localIdChanged

/-- The page at `i` sends the message for the page at `k`: a Heartbeat for itself, and any other
message for the session that it names.  Nobody is told of a name that is not well formed. -/
def Message.GoesTo (i k : ConnPtr) : Message → Prop
  | heartbeat _ => i = k
  | call userName targetId _ _ | answer userName targetId _ _ | hangup userName targetId
  | iceCandidate userName targetId _ =>
      userName.wellFormed ∧ targetId = (sessionId k).repr
  | _ => False

/-- The pages by connection, with the letters to each, how many of them it has read, and how many
of its own messages were passed on. -/
structure Net where
  page : ConnPtr → Option Client
  mail : ConnPtr → List Letter
  read : ConnPtr → Nat
  served : ConnPtr → Nat

namespace Net

def start : Net where
  page _ := none
  mail _ := []
  read _ := 0
  served _ := 0

def setPage (n : Net) (k : ConnPtr) (c : Client) : Net :=
  { n with page := Function.update n.page k (some c) }

def post (n : Net) (letters : ConnPtr → List Letter) : Net :=
  { n with mail := fun k => n.mail k ++ letters k }

def pass (n : Net) (k : ConnPtr) (msg : Message) (dest : Option ConnPtr) : Net :=
  { n.post fun k' => if dest = some k' then [⟨msg, some (k, n.served k)⟩] else [] with
    served := Function.update n.served k (n.served k + 1) }

/-- What can happen: a page joins and is greeted with its id, the pages are told news, the next
message of a page is passed on to one page at most, a page acts, or a page reads a letter.  Only a
Heartbeat is never dropped. -/
inductive Step (n : Net) : Net → Prop where
  | join {k} (storedName : Name) (host : String) (hnew : n.page k = none) :
      Step n { n.setPage k (loaded storedName host) with
        mail := Function.update n.mail k [⟨.sessionID (sessionId k), none⟩] }
  | news {msgs : ConnPtr → List Message}
      (h : ∀ k, ∀ msg ∈ msgs k, (n.page k).isSome ∧ News n.page msg) :
      Step n (n.post fun k => (msgs k).map (⟨·, none⟩))
  | serve {k c msg dest} (hpage : n.page k = some c) (hmsg : c.sent[n.served k]? = some msg)
      (hecho : msg.isHeartbeat → dest = some k)
      (hdest : ∀ k', dest = some k' → (n.page k').isSome ∧ msg.GoesTo k k') :
      Step n (n.pass k msg dest)
  | event {k c e} (hpage : n.page k = some c) (he : e.isMessage = false) :
      Step n (n.setPage k (c.after e))
  | deliver {k c l} (hpage : n.page k = some c) (hopen : c.socketClosed = false)
      (hl : (n.mail k)[n.read k]? = some l) :
      Step n { n.setPage k (c.after (.message l.msg)) with
        read := Function.update n.read k (n.read k + 1) }

abbrev Reachable : Net → Prop := Relation.ReflTransGen Step start

end Net

end Mgws.Browser
