import Mgws.Browser.Format
import Mgws.Proofs.Lookup
import Mgws.Proofs.Sent
/-!
# What the server makes of the messages of a page

A message of a page goes to the handler that is registered for its type.  The handlers
for names and for signalling hide what goes wrong in them behind a `try`; what is said
here is about the code inside.
-/

namespace Mgws

open Lib Program

/-! ## The handlers without their catch -/

namespace Peer

def tryLocalIdEvent (p : SessionPtr) (j : Json) : Cpp Unit := do
  let (sessionId, j) ← ofExcept (j.subscript "sessionID")
  let (userName, _) ← ofExcept (j.subscript "userName")
  let id ← Session.getId p
  if !sessionId.eqNat id then
    pure ()
  else
    let userName ← ofExcept userName.getString
    SessionManager.updateSession id userName
    Session.send p (.obj [("type", .str "LocalIdChanged")])
    SessionManager.updateSessionsList

def tryForwardMessage (j : Json) : Cpp Unit := do
  let (_, j) ← ofExcept (j.subscript "type")
  let (target, j) ← ofExcept (j.subscript "targetId")
  let targetId ← ofExcept target.getString
  match ← SessionManager.getSessionByIdString targetId with
  | some session => Session.send session j
  | none => pure ()

/-- What a handler does, without the catch around it. -/
def body (p : SessionPtr) (j : Json) : Handler → Cpp Unit
  | .registerSession => onRegisterSession j
  | .localIdEvent => tryLocalIdEvent p j
  | .forwardMessage => tryForwardMessage j
  | .heartbeat => onHeartbeat p j

theorem onLocalIdEvent_eq_try (p : SessionPtr) (j : Json) :
    onLocalIdEvent p j = tryCatch (tryLocalIdEvent p j) fun _ => pure () := rfl

theorem onForwardMessage_eq_try (j : Json) :
    onForwardMessage j = tryCatch (tryForwardMessage j) fun _ => pure () := rfl

theorem call_of_body {p : SessionPtr} {j : Json} {handler : Handler} {st s : Server}
    (h : (body p j handler).run st = .ret () s) : (call p j (some handler)).run st = .ret () s := by
  cases handler with
  | registerSession | heartbeat => exact h
  | localIdEvent =>
      show (onLocalIdEvent p j).run st = _
      rw [onLocalIdEvent_eq_try]
      exact tryCatch_of_ret h
  | forwardMessage =>
      show (onForwardMessage j).run st = _
      rw [onForwardMessage_eq_try]
      exact tryCatch_of_ret h

end Peer

section

variable {st : Server} {p : SessionPtr} {j v : Json}

theorem not_returns_of_throw {x : Cpp Unit} {e : Exn} {s : Server} (h : x.run st = .throw e s) :
    ¬∃ s', x.run st = .ret () s' := by
  rintro ⟨s', hs'⟩
  rw [h] at hs'
  cases hs'

theorem not_returns_of_fault {x : Cpp Unit} {f : Fault} (h : x.run st = .fault f) :
    ¬∃ s', x.run st = .ret () s' := by
  rintro ⟨s', hs'⟩
  rw [h] at hs'
  cases hs'

/-- Forwarding succeeds when `std::stoi` reads the target and the enumeration is safe. -/
theorem tryForwardMessage_returns_iff (htype : j.find? "type" = some v) {n : Nat}
    (htarget : j.find? "targetId" = some (.str n.repr)) :
    (∃ s, (Peer.tryForwardMessage j).run st = .ret () s) ↔
      n < 2 ^ 31 ∧ ∀ q ∈ st.reached, st.Valid q := by
  have hread : (Peer.tryForwardMessage j).run st = (do
      match ← SessionManager.getSessionByIdString n.repr with
      | some session => Session.send session j
      | none => pure () : Cpp Unit).run st := by
    simp only [Peer.tryForwardMessage, run_bind, Json.subscript_of_find? htype,
      Json.subscript_of_find? htarget, Json.getString, ofExcept_ok, run_pure]
  rw [hread]
  by_cases hn : n < 2 ^ 31
  · have hi : stoi n.repr = .ok (n : Int) := by rw [stoi_repr, if_pos hn]
    rcases st.reached_valid_or with hall | ⟨q, hq, hinvalid⟩
    · refine iff_of_true ?_ ⟨hn, hall⟩
      rw [bind_of_ret (getSessionByIdString_run hall hi)]
      cases hlookup : st.lookup (toSessionId n) with
      | none => exact ⟨st, rfl⟩
      | some q => exact ⟨_, send_run (hall q (lookup_mem hlookup).1) j⟩
    · obtain ⟨f, hf⟩ := getSessionByIdString_fault hq hinvalid hi
      exact iff_of_false (not_returns_of_fault (bind_of_fault hf)) fun h => hinvalid (h.2 q hq)
  · have hi : stoi n.repr = .error .outOfRange := by rw [stoi_repr, if_neg hn]
    exact iff_of_false (not_returns_of_throw (bind_of_throw (getSessionByIdString_throw hi)))
      fun h => hn h.1

theorem tryLocalIdEvent_run (hp : st.Valid p) {id : Nat} {name : Json}
    (hid : j.find? "sessionID" = some (.int id)) {j' : Json}
    (hname : j.subscript "userName" = .ok (name, j')) :
    (Peer.tryLocalIdEvent p j).run st = (if !(Json.int id).eqNat (st.idOf p) then pure () else do
      let userName ← ofExcept name.getString
      SessionManager.updateSession (st.idOf p) userName
      Session.send p localIdChanged
      SessionManager.updateSessionsList : Cpp Unit).run st := by
  simp only [Peer.tryLocalIdEvent, run_bind, Json.subscript_of_find? hid, hname, ofExcept_ok,
    run_pure, getId_run hp]
  rfl

theorem eqNat_int_iff {id n : Nat} : (Json.int id).eqNat n ↔ id = n := by
  rw [Json.eqNat, decide_eq_true_iff]
  exact Int.natCast_inj

/-- Renaming succeeds when `std::stoi` reads the id, the enumeration is safe and it finds a
session. -/
theorem changeName_returns_iff (hp : st.Valid p) (id : Nat) (name : String) :
    (∃ s, (do
      SessionManager.updateSession id name
      Session.send p localIdChanged
      SessionManager.updateSessionsList : Cpp Unit).run st = .ret () s) ↔
      id < 2 ^ 31 ∧ (∀ q ∈ st.reached, st.Valid q) ∧ (st.lookup id).isSome := by
  by_cases hid : id < 2 ^ 31
  swap
  · have hthrow := updateSession_throw st name (Nat.le_of_not_lt hid)
    exact iff_of_false (not_returns_of_throw (bind_of_throw hthrow)) fun h => hid h.1
  rcases st.reached_valid_or with hall | ⟨q, hq, hinvalid⟩
  swap
  · obtain ⟨f, hf⟩ := updateSession_fault name hid hq hinvalid
    exact iff_of_false (not_returns_of_fault (bind_of_fault hf)) fun h => hinvalid (h.2.1 q hq)
  cases hlookup : st.lookup id with
  | none =>
      have hmissing := updateSession_missing name hall hid hlookup
      exact iff_of_false (not_returns_of_fault (bind_of_fault hmissing))
        fun h => Bool.false_ne_true h.2.2
  | some q => exact iff_of_true ⟨_, changeName_run name hp hall hid hlookup⟩ ⟨hid, hall, rfl⟩

/-- A session that announces its own name is named when the name is a text and renaming
succeeds. -/
theorem tryLocalIdEvent_returns_iff (hp : st.Valid p) {id : Nat} {name j' : Json}
    (hid : j.find? "sessionID" = some (.int id))
    (hname : j.subscript "userName" = .ok (name, j')) :
    (∃ s, (Peer.tryLocalIdEvent p j).run st = .ret () s) ↔
      (id = st.idOf p → (∃ text, name = .str text) ∧ id < 2 ^ 31 ∧
        (∀ q ∈ st.reached, st.Valid q) ∧ (st.lookup id).isSome) := by
  rw [tryLocalIdEvent_run hp hid hname]
  by_cases hown : id = st.idOf p
  swap
  · have hother : (Json.int id).eqNat (st.idOf p) = false :=
      Bool.eq_false_iff.mpr fun heq => hown (eqNat_int_iff.mp heq)
    rw [hother]
    exact iff_of_true ⟨st, rfl⟩ fun heq => absurd heq hown
  rw [eqNat_int_iff.mpr hown]
  subst hown
  simp only [Bool.not_true, Bool.false_eq_true, if_false, true_imp_iff]
  cases hget : name.getString with
  | error e =>
      refine iff_of_false (not_returns_of_throw (bind_of_throw rfl)) ?_
      rintro ⟨⟨text, rfl⟩, -⟩
      cases hget
  | ok text =>
      have htext : ∃ text, name = .str text := ⟨text, Json.getString_eq_ok_iff.mp hget⟩
      exact (changeName_returns_iff hp _ text).trans (and_iff_right htext).symm

end

end Mgws

namespace Mgws.Browser

open Lib Program

/-! ## What a page sends -/

/-- The messages that a page sends.  The target is the text of a number. -/
def Message.IsSent : Message → Prop
  | registerSession .. | localIdEvent .. | heartbeat _ => True
  | call _ targetId _ _ | answer _ targetId _ _ | hangup _ targetId | iceCandidate _ targetId _ =>
      ∃ n : Nat, targetId = n.repr
  | _ => False

theorem isSent_of_says {c : Client} {e : Event} {msg : Message} (h : Says c e msg) :
    msg.IsSent := by
  cases h with
  | registers | identifies | beats => trivial
  | @signals _ _ inv n _ hinv hpeer => cases inv.fn <;> exact ⟨n, rfl⟩
  | @hangsUp n hpeer => exact ⟨n, rfl⟩
  | @offers _ n hpeer => exact ⟨n, rfl⟩

theorem reachable_isSent {c : Client} (h : Reachable c) : ∀ msg ∈ c.sent, msg.IsSent := by
  obtain ⟨storedName, host, hreach⟩ := h
  refine hreach.invariant (I := fun c => ∀ msg ∈ c.sent, msg.IsSent) ?_ ?_
  · intro msg hmsg
    cases hmsg
  · intro c c' e _ hc _ hstep msg hmsg
    cases hstep
    obtain ⟨msgs, hsent, hsaid⟩ := after_says c e
    rw [hsent] at hmsg
    rcases List.mem_append.mp hmsg with hold | hnew
    · exact hc msg hold
    · exact isSent_of_says (hsaid msg hnew)

/-! ## Its members -/

theorem find?_type (msg : Message) : msg.toJson.find? "type" = some (.str msg.type) := by
  cases msg <;> rfl

theorem subscript_userName (id : Nat) (name : Name) : ∃ v j,
    (Message.localIdEvent id name).toJson.subscript "userName" = .ok (v, j) ∧
      ((∃ text, v = .str text) ↔ ∃ text, name = .text text) := by
  cases name with
  | undefined | null | illFormed =>
      refine ⟨.null, _, rfl, ?_⟩
      constructor <;> rintro ⟨text, ⟨⟩⟩
  | text s => exact ⟨.str s, _, rfl, fun _ => ⟨s, rfl⟩, fun _ => ⟨s, rfl⟩⟩

def Message.target? : Message → Option String
  | call _ targetId _ _ | answer _ targetId _ _ | hangup _ targetId | iceCandidate _ targetId _ =>
      some targetId
  | _ => none

theorem find?_targetId {msg : Message} {targetId : String} (h : msg.target? = some targetId) :
    msg.toJson.find? "targetId" = some (.str targetId) := by
  cases msg with
  | call userName | answer userName | hangup userName | iceCandidate userName =>
      cases h
      cases userName <;> rfl
  | _ => cases h

/-! ## What the server sends on -/

section

variable {st : Server} {p : SessionPtr} {msg : Message}

theorem onHeartbeat_toJson (hp : st.Valid p) (sessionId : Nat) :
    (Peer.onHeartbeat p (Message.heartbeat sessionId).toJson).run st = .ret ()
      ((st.tell p (Message.heartbeat sessionId).toJson).updateSession p fun s =>
        { s with lastHeartbeat := st.now }) := by
  obtain ⟨s, c, hs, -⟩ := deref_valid hp
  have hread : (Message.heartbeat sessionId).toJson.subscript "sessionId" =
      .ok (.int sessionId, (Message.heartbeat sessionId).toJson) := rfl
  rw [Peer.onHeartbeat, hread, ofExcept_ok, bind_of_ret (run_pure _ _), bind_of_ret (send_run hp _),
    run_modify, Server.tell, hs]
  rfl

/-- A signalling message goes as it was sent to the session that it names, if there is one. -/
theorem forward_toJson {n : Nat} (hn : n < 2 ^ 31) (htarget : msg.target? = some n.repr) :
    st.forward msg.toJson = (st.lookup n).elim st fun q => st.tell q msg.toJson := by
  have htarget' : msg.toJson.forwardTarget = some n :=
    forwardTarget_eq_some_iff.mpr
      ⟨n.repr, n, find?_targetId htarget, by rw [stoi_repr, if_pos hn], toSessionId_natCast hn⟩
  rw [Server.forward, htarget', Option.bind_some]

end

/-! ## What the server makes of it -/

section

variable [Nlohmann] {st : Server} {p : SessionPtr} {msg : Message}

/-- The text of the message is parsed, it goes to the handler that is registered for its type, and
the code of the handler returns. -/
structure Handles (st : Server) (p : SessionPtr) (msg : Message) (j : Json) (handler : Handler)
    (s : Server) : Prop where
  parsed : msg.json? = some j
  registered : Peer.dispatch.lookup msg.type = some (some handler)
  dispatched : st.handlerOf p msg.type = some handler
  returns : (Peer.body p j handler).run st = .ret () s
  message : ∀ data, data.bind Nlohmann.parse = msg.json? →
    (Peer.onMessage p data).run st = .ret () s

def Understands (st : Server) (p : SessionPtr) (msg : Message) : Prop :=
  ∃ j handler s, Handles st p msg j handler s

/-- A name is well formed, one to be called by is a text, and the ids that `std::stoi` reads are
small.  Where a session is looked up the enumeration is safe, and the one that is to be renamed is
found. -/
def Suits (st : Server) (p : SessionPtr) (msg : Message) : Prop :=
  msg.wellFormed ∧ match msg with
    | .localIdEvent id name => id = st.idOf p →
        (∃ text, name = .text text) ∧ id < 2 ^ 31 ∧ (∀ q ∈ st.reached, st.Valid q) ∧
          (st.lookup id).isSome
    | .call _ targetId _ _ | .answer _ targetId _ _ | .hangup _ targetId
    | .iceCandidate _ targetId _ =>
        (∃ n < 2 ^ 31, targetId = Nat.repr n) ∧ ∀ q ∈ st.reached, st.Valid q
    | _ => True

omit [Nlohmann] in
theorem json?_of_wellFormed (h : msg.wellFormed) : msg.json? = some msg.toJson := if_pos h

theorem wellFormed_of_understands (h : Understands st p msg) : msg.wellFormed := by
  obtain ⟨j, handler, s, hhandles⟩ := h
  have hparsed := hhandles.parsed
  rw [Message.json?] at hparsed
  split at hparsed
  · next hwell => exact hwell
  · cases hparsed

/-- The code of the handler decides. -/
theorem understands_iff_returns (handler : Handler) (hwf : st.Wf) (hp : st.Valid p)
    (hwell : msg.wellFormed) (hlookup : Peer.dispatch.lookup msg.type = some (some handler)) :
    Understands st p msg ↔ ∃ s, (Peer.body p msg.toJson handler).run st = .ret () s := by
  have hjson := json?_of_wellFormed hwell
  constructor
  · rintro ⟨j, handler', s, h⟩
    obtain rfl : msg.toJson = j := Option.some.inj (hjson.symm.trans h.parsed)
    obtain rfl : handler = handler' := by
      have hregistered := h.registered
      rw [hlookup] at hregistered
      cases hregistered
      rfl
    exact ⟨s, h.returns⟩
  · rintro ⟨s, hs⟩
    have hdispatched : st.handlerOf p msg.type = some handler := by
      rw [handlerOf_eq hwf.tables hp, hlookup]
      rfl
    refine ⟨msg.toJson, handler, s, hjson, hlookup, hdispatched, hs, fun data hdata => ?_⟩
    refine onMessage_of_ret hp ⟨hdata.trans hjson, find?_type msg⟩ ?_
    rw [hdispatched, enter_of_handlerOf hdispatched]
    exact Peer.call_of_body hs

theorem understands_forwarded (hwf : st.Wf) (hp : st.Valid p) (hwell : msg.wellFormed) {n : Nat}
    (htarget : msg.target? = some n.repr) :
    Understands st p msg ↔
      (∃ m < 2 ^ 31, n.repr = Nat.repr m) ∧ ∀ q ∈ st.reached, st.Valid q := by
  have hlookup : Peer.dispatch.lookup msg.type = some (some .forwardMessage) := by
    cases msg <;> first | rfl | cases htarget
  rw [understands_iff_returns _ hwf hp hwell hlookup]
  refine (tryForwardMessage_returns_iff (find?_type msg) (find?_targetId htarget)).trans ?_
  refine and_congr_left' ⟨fun hn => ⟨n, hn, rfl⟩, ?_⟩
  rintro ⟨m, hm, hrepr⟩
  rwa [repr_injective hrepr]

end

/-- A message of a page is understood exactly when it suits. -/
theorem understands_iff [Nlohmann] (st : Server) (p : SessionPtr) (c : Client) (msg : Message)
    (h : Mgws.Reachable st) (hp : st.Valid p) (hc : Reachable c) (hmsg : msg ∈ c.sent) :
    Understands st p msg ↔ Suits st p msg := by
  obtain ⟨hwf, -⟩ := reachable_wf h
  have hsent := reachable_isSent hc msg hmsg
  by_cases hwell : msg.wellFormed = true
  swap
  · exact iff_of_false (fun hu => hwell (wellFormed_of_understands hu)) fun hs => hwell hs.1
  refine Iff.trans ?_ (and_iff_right hwell).symm
  cases msg with
  | registerSession sessionId appVersion userName =>
      rw [understands_iff_returns .registerSession hwf hp hwell rfl]
      exact iff_of_true ⟨st, onRegisterSession_run (find?_type _)⟩ trivial
  | localIdEvent id name =>
      obtain ⟨v, j, hsubscript, htext⟩ := subscript_userName id name
      rw [understands_iff_returns .localIdEvent hwf hp hwell rfl]
      exact (tryLocalIdEvent_returns_iff hp rfl hsubscript).trans
        (imp_congr_right fun _ => and_congr_left' htext)
  | heartbeat sessionId =>
      rw [understands_iff_returns .heartbeat hwf hp hwell rfl]
      exact iff_of_true ⟨_, onHeartbeat_toJson hp sessionId⟩ trivial
  | call userName targetId | answer userName targetId | hangup userName targetId
  | iceCandidate userName targetId =>
      obtain ⟨n, rfl⟩ := hsent
      exact understands_forwarded hwf hp hwell rfl
  | _ => exact hsent.elim

theorem understands_ann :
    letI := parserOf renameText renameMsg
    ∃ st, Transition.run Mgws.step initial (joining 2) = .ok st ∧
      Understands st 0 (.localIdEvent 2 (.text "ann")) := by
  let _ := parserOf renameText renameMsg
  have hjoined : ∃ st s, Transition.run Mgws.step initial (joining 2) = .ok st ∧
      st.reached = [0] ∧ st.heap 0 = some s ∧ (st.conn? s.connection).isSome ∧
      (st.lookup 2).isSome :=
    ⟨_, _, rfl, rfl, rfl, rfl, rfl⟩
  obtain ⟨st, s, hrun, hreached, hheap, hconn, hlookup⟩ := hjoined
  have hp : st.Valid 0 := ⟨s, hheap, hconn⟩
  have hc : Reachable ((loaded (.text "ann") "").after (.message (.sessionID 2))) :=
    ⟨.text "ann", "", .step .init trivial rfl⟩
  refine ⟨st, hrun, (understands_iff st 0 _ _ (Transition.reachable_of_run _ hrun) hp hc
    (.tail _ (.head _))).mpr ⟨rfl, fun _ => ⟨⟨"ann", rfl⟩, by decide, ?_, hlookup⟩⟩⟩
  intro q hq
  rw [hreached, List.mem_singleton] at hq
  rw [hq]
  exact hp

/-- A page that no name is stored for asks to be called null, which no string can be. -/
theorem not_understands_of_null :
    ¬∀ [Nlohmann] (st : Server) (p : SessionPtr) (c : Client) (msg : Message),
      Mgws.Reachable st → st.Valid p → Reachable c → msg ∈ c.sent → Understands st p msg := by
  intro hall
  let _ := parserOf renameText renameMsg
  have hjoined : ∃ st s, Transition.run Mgws.step initial (joining 2) = .ok st ∧
      st.heap 0 = some s ∧ (st.conn? s.connection).isSome ∧
      (Peer.body 0 (Message.localIdEvent 2 .null).toJson .localIdEvent).run st =
        .throw (.typeError 302) st :=
    ⟨_, _, rfl, rfl, rfl, rfl⟩
  obtain ⟨st, s, hrun, hheap, hconn, hthrow⟩ := hjoined
  have hreach : Mgws.Reachable st := Transition.reachable_of_run _ hrun
  have hp : st.Valid 0 := ⟨s, hheap, hconn⟩
  have hc : Reachable ((loaded .null "").after (.message (.sessionID 2))) :=
    ⟨.null, "", .step .init trivial rfl⟩
  have hunderstands := hall st 0 _ (.localIdEvent 2 .null) hreach hp hc (.tail _ (.head _))
  obtain ⟨s, hs⟩ := (understands_iff_returns _ (reachable_wf hreach).1 hp rfl rfl).mp hunderstands
  rw [hthrow] at hs
  cases hs

end Mgws.Browser
