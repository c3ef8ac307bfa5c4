import Mgws.Lib.Ignores
import Mgws.Proofs.Actions
/-!
# What the handlers do not look at

No handler of the server reads or writes the fragments that a connection keeps, nor the fields
that decide which protocol handler serves it.
-/

namespace Mgws

open Lib Program

/-- The fields of a connection that only mongoose uses. -/
structure Hidden where
  frag : List UInt8
  pfn : Pfn
  isListening : Bool
  isTlsHs : Bool

def Connection.hidden (c : Connection) : Hidden := ⟨c.frag, c.pfn, c.isListening, c.isTlsHs⟩

def Connection.hide (v : Hidden) (c : Connection) : Connection :=
  { c with frag := v.frag, pfn := v.pfn, isListening := v.isListening, isTlsHs := v.isTlsHs }

namespace Server

variable {st : Server} {k : ConnPtr} {v : Hidden}

def hide (st : Server) (k : ConnPtr) (v : Hidden) : Server := st.updateConn k (Connection.hide v)

theorem conn?_hide (j : ConnPtr) :
    (st.hide k v).conn? j = (st.conn? j).map fun c => if c.ptr = k then c.hide v else c :=
  conn?_updateConn fun _ => rfl

theorem updateConn_comm {j : ConnPtr} {f g : Connection → Connection}
    (hf : ∀ c, (f c).ptr = c.ptr) (hg : ∀ c, (g c).ptr = c.ptr) (hfg : ∀ c, f (g c) = g (f c)) :
    (st.updateConn k g).updateConn j f = (st.updateConn j f).updateConn k g := by
  have hcomm : ∀ c : Connection,
      (fun c : Connection => if c.ptr = j then f c else c) (if c.ptr = k then g c else c) =
      (fun c : Connection => if c.ptr = k then g c else c) (if c.ptr = j then f c else c) := by
    intro c
    have hF : (if c.ptr = j then f c else c).ptr = c.ptr := by
      split
      · exact hf c
      · rfl
    have hG : (if c.ptr = k then g c else c).ptr = c.ptr := by
      split
      · exact hg c
      · rfl
    dsimp only
    rw [hF, hG]
    by_cases hj : c.ptr = j
    · by_cases hk : c.ptr = k
      · simp only [if_pos hj, if_pos hk, hfg]
      · simp only [if_pos hj, if_neg hk]
    · by_cases hk : c.ptr = k
      · simp only [if_neg hj, if_pos hk]
      · simp only [if_neg hj, if_neg hk]
  simp only [updateConn, List.map_map, Option.map_map]
  congr 1
  · exact List.map_congr_left fun c _ => hcomm c
  · cases st.detached with
    | none => rfl
    | some c => exact congrArg some (hcomm c)

end Server

variable {k : ConnPtr} {v : Hidden} {α β : Type}

/-- The program does not use what is hidden of the connection at `k`. -/
abbrev Blind (k : ConnPtr) (v : Hidden) (x : Cpp α) : Prop := Ignores (fun st => st.hide k v) x

/-! ## Sessions -/

theorem setConn_blind {j : ConnPtr} {f : Connection → Connection} (hptr : ∀ c, (f c).ptr = c.ptr)
    (hf : ∀ c, f (c.hide v) = (f c).hide v) : Blind k v (setConn j f) :=
  Ignores.modify fun _ => Server.updateConn_comm hptr (fun _ => rfl) hf

theorem mgWsSend_blind (j : ConnPtr) (frame : Frame) : Blind k v (mgWsSend j frame) :=
  Ignores.modify fun _ => Server.updateConn_comm (fun _ => rfl) (fun _ => rfl) fun _ => rfl

/-- What follows an access to a session uses nothing that is hidden. -/
theorem deref_blind {p : SessionPtr} {f : Session × Connection → Cpp β}
    (h : ∀ s c, f (s, Connection.hide v c) = f (s, c)) (hf : ∀ x, Blind k v (f x)) :
    Blind k v (deref p >>= f) := by
  intro st
  cases hs : st.heap p with
  | none =>
      have hrun : (deref p).run st = .fault (.deadSession p) := by
        rw [deref, bind_of_ret (run_get _), hs]
        rfl
      have hrun' : (deref p).run (st.hide k v) = .fault (.deadSession p) := by
        have hs' : (st.hide k v).heap p = none := hs
        rw [deref, bind_of_ret (run_get _), hs']
        rfl
      rw [bind_of_fault hrun, bind_of_fault hrun']
      rfl
  | some s =>
      have hs' : (st.hide k v).heap p = some s := hs
      cases hc : st.conn? s.connection with
      | none =>
          have hrun : (deref p).run st = .fault (.freedConnection p) := by
            simp only [deref, bind_of_ret (run_get _), hs, hc]
            rfl
          have hc' : (st.hide k v).conn? s.connection = none := by
            rw [Server.conn?_hide, hc]
            rfl
          have hrun' : (deref p).run (st.hide k v) = .fault (.freedConnection p) := by
            simp only [deref, bind_of_ret (run_get _), hs', hc']
            rfl
          rw [bind_of_fault hrun, bind_of_fault hrun']
          rfl
      | some c =>
          have hc' : (st.hide k v).conn? s.connection =
              some (if c.ptr = k then c.hide v else c) := by
            rw [Server.conn?_hide, hc]
            rfl
          have hsame : f (s, if c.ptr = k then c.hide v else c) = f (s, c) := by
            split
            · exact h s c
            · rfl
          rw [bind_of_ret (deref_of_valid hs hc), bind_of_ret (deref_of_valid hs' hc'), hsame]
          exact hf (s, c) st

theorem updateSession_blind (p : SessionPtr) (f : Session → Session) :
    Blind k v (modify (·.updateSession p f) : Cpp Unit) :=
  Ignores.modify fun _ => rfl

theorem getId_blind (p : SessionPtr) : Blind k v (Session.getId p) :=
  deref_blind (fun _ _ => rfl) fun _ => .pure _

theorem getUserName_blind (p : SessionPtr) : Blind k v (Session.getUserName p) :=
  deref_blind (fun _ _ => rfl) fun _ => .pure _

theorem setUserName_blind (p : SessionPtr) (name : String) :
    Blind k v (Session.setUserName p name) :=
  deref_blind (fun _ _ => rfl) fun _ => .modify fun _ => rfl

theorem send_blind (p : SessionPtr) (msg : Json) : Blind k v (Session.send p msg) :=
  deref_blind (fun _ _ => rfl) fun _ => mgWsSend_blind _ _

theorem onControlMessage_blind (p : SessionPtr) (flags : UInt8) :
    Blind k v (Session.onControlMessage p flags) := by
  refine deref_blind (fun _ _ => rfl) fun _ => ?_
  split
  · exact .modify fun _ => rfl
  · exact .pure _

/-! ## The session manager -/

section

variable {fn : β → SessionPtr → Cpp β}

theorem iterateFrom_hide (cs : List Connection) (acc : β) :
    SessionManager.iterateFrom fn (cs.map fun c => if c.ptr = k then c.hide v else c) acc =
      SessionManager.iterateFrom fn cs acc := by
  induction cs generalizing acc with
  | nil => rfl
  | cons c cs ih =>
      have hws : (if c.ptr = k then c.hide v else c).isWebsocket = c.isWebsocket := by
        split <;> rfl
      have hctx : (if c.ptr = k then c.hide v else c).fnData = c.fnData := by
        split <;> rfl
      rw [List.map_cons, SessionManager.iterateFrom, SessionManager.iterateFrom, hws, hctx]
      simp only [ih]

theorem iterateFrom_blind (hfn : ∀ acc p, Blind k v (fn acc p)) (cs : List Connection) (acc : β) :
    Blind k v (SessionManager.iterateFrom fn cs acc) := by
  induction cs generalizing acc with
  | nil => exact .pure _
  | cons c cs ih =>
      rw [SessionManager.iterateFrom]
      split
      · exact .pure _
      · split
        · exact .pure _
        · exact (hfn _ _).bind fun acc => ih acc

theorem iterate_blind (hfn : ∀ acc p, Blind k v (fn acc p)) (acc : β) :
    Blind k v (SessionManager.iterate fn acc) :=
  .get (fun _ => iterateFrom_hide _ _) fun _ => iterateFrom_blind hfn _ _

end

theorem getSessionByIdString_blind (text : String) :
    Blind k v (SessionManager.getSessionByIdString text) :=
  (Ignores.ofExcept _).bind fun _ =>
    iterate_blind (fun _ p => (getId_blind p).bind fun _ => .pure _) _

theorem updateSessionsList_blind : Blind k v SessionManager.updateSessionsList := by
  have hlist : ∀ msg p, Blind k v (SessionManager.list msg p) := fun msg p =>
    (getId_blind p).bind fun _ => (getUserName_blind p).bind fun _ => .ofExcept _
  exact (iterate_blind hlist _).bind fun msg => iterate_blind (fun _ p => send_blind p msg) _

theorem updateSession_name_blind (id : Nat) (name : String) :
    Blind k v (SessionManager.updateSession id name) := by
  refine (getSessionByIdString_blind _).bind fun found => ?_
  cases found with
  | none => exact .abort _
  | some p => exact setUserName_blind p name

/-! ## Messages -/

theorem onRegisterSession_blind (j : Json) : Blind k v (Peer.onRegisterSession j) :=
  (Ignores.ofExcept _).bind fun _ => (Ignores.ofExcept _).bind fun _ =>
    (Ignores.ofExcept _).bind fun _ => .pure _

theorem onLocalIdEvent_blind (p : SessionPtr) (j : Json) :
    Blind k v (Peer.onLocalIdEvent p j) := by
  refine .tryCatch ?_ fun _ => .pure _
  refine (Ignores.ofExcept _).bind fun _ => (Ignores.ofExcept _).bind fun _ =>
    (getId_blind p).bind fun id => ?_
  split
  · exact .pure _
  · exact (Ignores.ofExcept _).bind fun name => (updateSession_name_blind id name).bind fun _ =>
      (send_blind p _).bind fun _ => updateSessionsList_blind

theorem onForwardMessage_blind (j : Json) : Blind k v (Peer.onForwardMessage j) := by
  refine .tryCatch ?_ fun _ => .pure _
  refine (Ignores.ofExcept _).bind fun _ => (Ignores.ofExcept _).bind fun _ =>
    (Ignores.ofExcept _).bind fun targetId => (getSessionByIdString_blind targetId).bind
      fun found => ?_
  cases found with
  | none => exact .pure _
  | some q => exact send_blind q _

theorem onHeartbeat_blind (p : SessionPtr) (j : Json) : Blind k v (Peer.onHeartbeat p j) :=
  (Ignores.ofExcept _).bind fun _ => (send_blind p _).bind fun _ => .modify fun _ => rfl

theorem lookupHandler_blind (p : SessionPtr) (key : String) :
    Blind k v (Peer.lookupHandler p key) := by
  refine deref_blind (fun _ _ => rfl) fun _ => ?_
  dsimp only
  split
  · exact .pure _
  · exact (updateSession_blind _ _).bind fun _ => .pure _

theorem call_blind (p : SessionPtr) (j : Json) (handler : Option Handler) :
    Blind k v (Peer.call p j handler) := by
  cases handler with
  | none => exact .raise _
  | some handler =>
      cases handler with
      | registerSession => exact onRegisterSession_blind j
      | localIdEvent => exact onLocalIdEvent_blind p j
      | forwardMessage => exact onForwardMessage_blind j
      | heartbeat => exact onHeartbeat_blind p j

theorem onMessage_blind [Nlohmann] (p : SessionPtr) (data : Option (List UInt8)) :
    Blind k v (Peer.onMessage p data) := by
  have hmessage : ∀ j, Blind k v (Peer.handleMessage p j) := by
    intro j
    refine .tryCatch ?_ fun _ => (Ignores.ofExcept _).bind fun _ => .pure _
    exact (Ignores.ofExcept _).bind fun _ => (Ignores.ofExcept _).bind fun key =>
      (lookupHandler_blind p key).bind fun handler => call_blind p _ handler
  refine deref_blind (fun _ _ => rfl) fun _ => .tryCatch ?_ fun _ => .pure _
  exact (Ignores.ofExcept _).bind fun _ => (Ignores.ofExcept _).bind fun j => hmessage j

/-! ## Frames -/

theorem fnData_hide (c : Connection) :
    (if c.ptr = k then c.hide v else c).fnData = c.fnData := by
  split <;> rfl

theorem readMgws_blind (ctx : Context) : Blind k v (readMgws ctx) := by
  cases ctx with
  | manager => exact .pure _
  | session p =>
      refine .get (fun _ => rfl) fun st => ?_
      split
      · exact .pure _
      · exact .abort _

theorem mgNotify_blind (j : ConnPtr) : Blind k v (mgNotify j) := by
  refine .get (fun st => ?_) fun st => ?_
  · rw [Server.conn?_hide]
    cases st.conn? j with
    | none => rfl
    | some c => simp only [Option.map_some, fnData_hide]
  · cases st.conn? j with
    | none => exact .pure _
    | some c => exact readMgws_blind c.fnData

/-- Behind `mg_call` stands a handler that gets the context only. -/
theorem mgCall_blind [Nlohmann] {j : ConnPtr} {ev : Event}
    (h : ∀ ctx, Blind k v (SessionManager.fn j ctx ev)) : Blind k v (mgCall j ev) := by
  refine .get (fun st => ?_) fun st => ?_
  · rw [Server.conn?_hide]
    cases st.conn? j with
    | none => rfl
    | some c => simp only [Option.map_some, fnData_hide]
  · cases st.conn? j with
    | none => exact .pure _
    | some c => exact (readMgws_blind c.fnData).bind fun _ => h c.fnData

theorem wsMsg_blind [Nlohmann] (j : ConnPtr) (data : Option (List UInt8)) :
    Blind k v (mgCall j (.wsMsg data)) := by
  refine mgCall_blind fun ctx => ?_
  cases ctx with
  | manager => exact .pure _
  | session p => exact onMessage_blind p data

theorem wsCtl_blind [Nlohmann] (j : ConnPtr) (flags : UInt8) :
    Blind k v (mgCall j (.wsCtl flags)) := by
  refine mgCall_blind fun ctx => ?_
  cases ctx with
  | manager => exact .pure _
  | session p => exact onControlMessage_blind p flags

theorem wsOp_blind [Nlohmann] (j : ConnPtr) (frame : WsFrame) : Blind k v (wsOp j frame) := by
  unfold wsOp
  split
  · exact wsCtl_blind j _
  · exact (mgWsSend_blind j _).bind fun _ => wsCtl_blind j _
  · exact wsCtl_blind j _
  · split
    · exact wsMsg_blind j _
    · exact .pure _
  · split
    · exact wsMsg_blind j _
    · exact .pure _
  · exact (wsCtl_blind j _).bind fun _ => (mgWsSend_blind j _).bind fun _ =>
      setConn_blind (fun _ => rfl) fun _ => rfl
  · have hclose : Blind k v (setConn j fun c => { c with isClosing := true }) :=
      setConn_blind (fun _ => rfl) fun _ => rfl
    exact hclose.bind fun _ => mgNotify_blind j

end Mgws
