import Mgws.Proofs.Actions
import Mgws.Proofs.Rejection
/-!
# The dispatch table of a peer

A lookup in the table inserts a key that is missing.  Nothing else writes to the
table, so it stays as the constructor filled it as long as no peer receives a message
of a type that is not registered.
-/

namespace Mgws

open Lib Program

def TablesIntact (st : Server) : Prop :=
  ∀ p s, st.heap p = some s → ∀ key, s.pmd.lookup key = Peer.dispatch.lookup key

/-- Every message that the action delivers to a peer and that has a type has a registered
one. -/
def KnownType [Nlohmann] (st : Server) (a : Action) : Prop :=
  ∀ k j c p key, delivered st a = some (k, j) → st.conn? k = some c → c.fnData = .session p →
    j.find? "type" = some (.str key) → key ∈ Peer.dispatch.map (·.1)

theorem mem_dispatch_iff {key : String} :
    key ∈ Peer.dispatch.map (·.1) ↔ (Peer.dispatch.lookup key).isSome := by
  rw [List.lookup_isSome_iff, List.mem_map]
  exact exists_congr fun entry => and_congr_right fun _ => by rw [beq_iff_eq, eq_comm]

theorem tablesIntact_initial : TablesIntact initial := by
  intro p s hs
  cases hs

section

variable {st s : Server} {k : ConnPtr} {p : SessionPtr}

/-! ## Writes that leave the tables alone -/

theorem TablesIntact.congr (h : TablesIntact st) (hheap : s.heap = st.heap) :
    TablesIntact s := by
  intro p x hx
  exact h p x (hheap ▸ hx)

theorem TablesIntact.updateSession (h : TablesIntact st) {f : Session → Session}
    (hf : ∀ s, (f s).pmd = s.pmd) : TablesIntact (st.updateSession p f) := by
  intro q s hs key
  by_cases hq : q = p
  · subst hq
    rw [Server.heap_updateSession_self] at hs
    obtain ⟨s', hs', rfl⟩ := Option.map_eq_some_iff.mp hs
    rw [hf, h q s' hs' key]
  · rw [Server.heap_updateSession_ne hq] at hs
    exact h q s hs key

theorem preserves_modify {f : Server → Server} (hf : ∀ st, (f st).heap = st.heap) :
    Preserves TablesIntact (modify f : Cpp Unit) :=
  .modify fun st hst => hst.congr (hf st)

/-! ## Sessions -/

theorem preserves_deref (p : SessionPtr) : Preserves TablesIntact (deref p) := by
  refine Preserves.read.bind fun st => ?_
  cases st.heap p with
  | none => exact .abort _
  | some s =>
      cases hc : st.conn? s.connection with
      | none => simpa only [hc] using .abort _
      | some c => simpa only [hc] using .pure _

theorem preserves_mgWsSend (k : ConnPtr) (frame : Frame) :
    Preserves TablesIntact (mgWsSend k frame) :=
  preserves_modify fun _ => rfl

theorem preserves_getId (p : SessionPtr) : Preserves TablesIntact (Session.getId p) :=
  (preserves_deref p).bind fun _ => .pure _

theorem preserves_setUserName (p : SessionPtr) (name : String) :
    Preserves TablesIntact (Session.setUserName p name) := by
  refine (preserves_deref p).bind fun _ => .modify fun st hst => ?_
  have hnamed : TablesIntact (st.updateSession p fun s => { s with userName := name }) :=
    hst.updateSession fun _ => rfl
  exact hnamed.congr rfl

theorem preserves_send (p : SessionPtr) (msg : Json) :
    Preserves TablesIntact (Session.send p msg) :=
  (preserves_deref p).bind fun _ => preserves_mgWsSend _ _

theorem preserves_onTimerEvent (p : SessionPtr) (ms : Int) :
    Preserves TablesIntact (Session.onTimerEvent p ms) := by
  refine (preserves_deref p).bind fun r => ?_
  simp only
  split
  · refine .modify fun st hst => ?_
    have hticked := (hst.congr (s := st.updateConn r.1.connection
      fun c => { c with isClosing := true }) rfl).updateSession (p := p)
        (f := fun s => { s with ticks := s.ticks + 1 }) fun _ => rfl
    exact hticked.congr rfl
  · exact (preserves_mgWsSend _ _).bind fun _ =>
      .modify fun st hst => hst.updateSession fun _ => rfl

theorem preserves_onControlMessage (p : SessionPtr) (flags : UInt8) :
    Preserves TablesIntact (Session.onControlMessage p flags) := by
  refine (preserves_deref p).bind fun _ => ?_
  split
  · exact .modify fun st hst => hst.updateSession fun _ => rfl
  · exact .pure _

/-! ## The session manager -/

theorem preserves_iterate {β : Type} {fn : β → SessionPtr → Cpp β}
    (hfn : ∀ b p, Preserves TablesIntact (fn b p)) (acc : β) :
    Preserves TablesIntact (SessionManager.iterate fn acc) := by
  have hfold : ∀ (ps : List SessionPtr) (acc : β), Preserves TablesIntact (ps.foldlM fn acc) := by
    intro ps
    induction ps with
    | nil => exact fun _ => .pure _
    | cons p ps ih =>
        intro acc
        rw [List.foldlM_cons]
        exact (hfn acc p).bind ih
  refine Preserves.read.bind fun st => ?_
  rw [iterateFrom_eq]
  exact hfold _ acc

theorem preserves_getSessionById (sessId : Nat) :
    Preserves TablesIntact (SessionManager.getSessionById sessId) :=
  preserves_iterate (fun _ p => (preserves_getId p).bind fun _ => .pure _) none

theorem preserves_getSessionByIdString (sessId : String) :
    Preserves TablesIntact (SessionManager.getSessionByIdString sessId) :=
  (Preserves.ofExcept _).bind fun _ => preserves_getSessionById _

theorem preserves_updateSession (id : Nat) (userName : String) :
    Preserves TablesIntact (SessionManager.updateSession id userName) := by
  refine (preserves_getSessionByIdString _).bind fun session => ?_
  cases session with
  | none => exact .abort _
  | some session => exact preserves_setUserName session userName

theorem preserves_list (msg : Json) (session : SessionPtr) :
    Preserves TablesIntact (SessionManager.list msg session) := by
  have hname : Preserves TablesIntact (Session.getUserName session) :=
    (preserves_deref session).bind fun _ => .pure _
  exact (preserves_getId session).bind fun _ => hname.bind fun _ => .ofExcept _

theorem preserves_updateSessionsList : Preserves TablesIntact SessionManager.updateSessionsList :=
  (preserves_iterate preserves_list _).bind fun msg =>
    preserves_iterate (fun _ p => preserves_send p msg) ()

/-! ## Peers -/

theorem preserves_onRegisterSession (j : Json) :
    Preserves TablesIntact (Peer.onRegisterSession j) :=
  (Preserves.ofExcept _).bind fun _ => (Preserves.ofExcept _).bind fun _ =>
    (Preserves.ofExcept _).bind fun _ => .pure _

theorem preserves_onLocalIdEvent (p : SessionPtr) (j : Json) :
    Preserves TablesIntact (Peer.onLocalIdEvent p j) := by
  refine Preserves.tryCatch ?_ fun _ => .pure _
  refine (Preserves.ofExcept _).bind fun _ => (Preserves.ofExcept _).bind fun _ =>
    (preserves_getId p).bind fun id => ?_
  split
  · exact .pure _
  · exact (Preserves.ofExcept _).bind fun _ => (preserves_updateSession _ _).bind fun _ =>
      (preserves_send _ _).bind fun _ => preserves_updateSessionsList

theorem preserves_onForwardMessage (j : Json) :
    Preserves TablesIntact (Peer.onForwardMessage j) := by
  refine Preserves.tryCatch ?_ fun _ => .pure _
  refine (Preserves.ofExcept _).bind fun _ => (Preserves.ofExcept _).bind fun _ =>
    (Preserves.ofExcept _).bind fun _ => (preserves_getSessionByIdString _).bind fun session => ?_
  cases session with
  | none => exact .pure _
  | some session => exact preserves_send session _

theorem preserves_onHeartbeat (p : SessionPtr) (j : Json) :
    Preserves TablesIntact (Peer.onHeartbeat p j) :=
  (Preserves.ofExcept _).bind fun _ => (preserves_send _ _).bind fun _ =>
    .modify fun _ hst => hst.updateSession fun _ => rfl

theorem preserves_call (p : SessionPtr) (j : Json) (handler : Option Handler) :
    Preserves TablesIntact (Peer.call p j handler) := by
  cases handler with
  | none => exact .raise _
  | some handler =>
      cases handler with
      | registerSession => exact preserves_onRegisterSession j
      | localIdEvent => exact preserves_onLocalIdEvent p j
      | forwardMessage => exact preserves_onForwardMessage j
      | heartbeat => exact preserves_onHeartbeat p j

theorem TablesIntact.enter (h : TablesIntact st) {key : String}
    (hkey : key ∈ Peer.dispatch.map (·.1)) : st.enter p key = st := by
  rw [Server.enter]
  cases hs : st.heap p with
  | none => rfl
  | some s => rw [Option.elim, h p s hs, if_pos (mem_dispatch_iff.mp hkey)]

/-! ## Connections -/

theorem preserves_setConn (k : ConnPtr) (f : Connection → Connection) :
    Preserves TablesIntact (setConn k f) :=
  preserves_modify fun _ => rfl

theorem preserves_mgError (k : ConnPtr) : Preserves TablesIntact (mgError k) :=
  (preserves_setConn k _).bind fun _ => preserves_mgNotify k

theorem preserves_mgHttpReply (k : ConnPtr) (status : Nat) :
    Preserves TablesIntact (mgHttpReply k status) :=
  (preserves_mgWsSend _ _).bind fun _ => preserves_setConn _ _

theorem preserves_mgHttpServeDir (k : ConnPtr) (served : Served) :
    Preserves TablesIntact (mgHttpServeDir k served) := by
  cases served with
  | reply status => exact preserves_mgHttpReply k status
  | head status => exact (preserves_mgHttpReply k status).bind fun _ => preserves_setConn _ _
  | file status => exact (preserves_mgWsSend _ _).bind fun _ => preserves_setConn _ _

theorem preserves_mgWsUpgrade (k : ConnPtr) (hasKey : Bool) :
    Preserves TablesIntact (mgWsUpgrade k hasKey) := by
  refine (preserves_setConn _ _).bind fun _ => ?_
  cases hasKey with
  | true => exact (preserves_mgWsSend _ _).bind fun _ => preserves_setConn _ _
  | false => exact (preserves_mgHttpReply _ _).bind fun _ => preserves_setConn _ _

theorem preserves_factory (k : ConnPtr) (run : FactoryRun) :
    Preserves TablesIntact (SessionManager.factory k run) := by
  cases run with
  | returns | throwsAfter =>
      refine Preserves.read.bind fun t => ?_
      refine (Preserves.modify fun st hst q s hs key => ?_).bind fun _ => .pure _
      simp only at hs
      split at hs
      · cases hs
        rfl
      · exact hst q s hs key
  | throwsEarly => exact .raise _
  | throwsLate =>
      refine Preserves.bind ?_ fun _ => .raise _
      exact preserves_modify fun _ => rfl

theorem preserves_addSession (k : ConnPtr) (run : FactoryRun) :
    Preserves TablesIntact (SessionManager.addSession k run) := by
  refine Preserves.tryCatch ?_ fun _ => .pure _
  exact (preserves_factory k run).bind fun _ => (preserves_getId _).bind fun _ =>
    (Preserves.ofExcept _).bind fun _ => (preserves_send _ _).bind fun _ => .pure _

theorem preserves_deleteSession (session : SessionPtr) :
    Preserves TablesIntact (SessionManager.deleteSession session) := by
  have hdelete : Preserves TablesIntact (SessionManager.delete session) := by
    refine Preserves.read.bind fun t => ?_
    cases t.heap session with
    | none => exact .abort _
    | some s =>
        refine .modify fun st hst q s hs key => ?_
        simp only at hs
        split at hs
        · cases hs
        · exact hst q s hs key
  exact (preserves_getId session).bind fun _ => hdelete.bind fun _ =>
    preserves_updateSessionsList

theorem preserves_onConn (k : ConnPtr) (test : Connection → Bool) {x : Cpp Unit}
    (hx : Preserves TablesIntact x) : Preserves TablesIntact (onConn k test x) := by
  refine Preserves.read.bind fun st => ?_
  split
  · exact hx
  · exact .pure _

theorem message_eq_none {frame : WsFrame} {frag : List UInt8}
    (h : frame.final = false ∨ 2 < frame.op.toNat) : frame.message frag = none := by
  rcases h with hfinal | hop
  · rw [WsFrame.message, hfinal, if_neg Bool.false_ne_true]
  · unfold WsFrame.message
    split
    · split
      · next heq => omega
      · next heq => omega
      · next heq => omega
      · rfl
    · rfl

section

variable [Nlohmann]

/-! ## Actions -/

/-- A message of a registered type, or of none. -/
theorem preserves_onMessage {data : Option (List UInt8)}
    (hdata : ∀ j key, Delivers data j key → key ∈ Peer.dispatch.map (·.1)) :
    Preserves TablesIntact (Peer.onMessage p data) := by
  intro st hst
  by_cases hp : st.Valid p
  swap
  · obtain ⟨f, hf⟩ := bind_deref_fault hp _
    rw [Peer.onMessage, hf]
    trivial
  by_cases hdelivers : ∃ j key, Delivers data j key
  · obtain ⟨j, key, hdelivers⟩ := hdelivers
    rw [onMessage_eq hp hdelivers, hst.enter (hdata j key hdelivers)]
    exact (((preserves_call p j _).tryCatch fun _ => .pure _).tryCatch fun _ => .pure _) st hst
  · push Not at hdelivers
    rw [onMessage_ignored hp hdelivers]
    exact hst

theorem preserves_fn (k : ConnPtr) (ctx : Context) {ev : Event}
    (hev : ∀ data, ev ≠ .wsMsg data) : Preserves TablesIntact (SessionManager.fn k ctx ev) := by
  cases ev with
  | accept tlsOk =>
      cases tlsOk with
      | true => exact preserves_setConn _ _
      | false => exact preserves_mgError k
  | httpMsg hm =>
      cases hm with
      | websock hasKey run =>
          exact (preserves_mgWsUpgrade k hasKey).bind fun _ =>
            (preserves_addSession k run).bind fun _ => .pure _
      | other served => exact preserves_mgHttpServeDir k served
  | wsMsg data => exact absurd rfl (hev data)
  | wsCtl flags =>
      cases ctx with
      | manager => exact .pure _
      | session p => exact preserves_onControlMessage p flags
  | close =>
      cases ctx with
      | manager => exact .pure _
      | session p => exact preserves_deleteSession p

theorem preserves_mgCall (k : ConnPtr) {ev : Event} (hev : ∀ data, ev ≠ .wsMsg data) :
    Preserves TablesIntact (mgCall k ev) :=
  preserves_mgCall_of_fn fun ctx => preserves_fn k ctx hev

theorem preserves_httpCb (k : ConnPtr) (turns : List HttpTurn) :
    Preserves TablesIntact (httpCb k turns) := by
  induction turns with
  | nil => exact .pure _
  | cons turn turns ih =>
      refine Preserves.read.bind fun st => ?_
      split
      · exact .pure _
      · cases turn with
        | malformed => exact preserves_mgError k
        | message hm =>
            refine (preserves_setConn _ _).bind fun _ => (preserves_mgCall k ?_).bind fun _ => ih
            intro data hdata
            cases hdata

theorem preserves_mgCloseConn (k : ConnPtr) (turns : List HttpTurn) :
    Preserves TablesIntact (mgCloseConn k turns) := by
  have hpfn : Preserves TablesIntact (pfnClose k turns) := by
    refine Preserves.read.bind fun st => ?_
    split
    · exact preserves_httpCb k turns
    · exact preserves_setConn _ _
    · exact .pure _
  have hclose : Preserves TablesIntact (mgCall k .close) := by
    refine preserves_mgCall k fun data hdata => ?_
    cases hdata
  refine Preserves.bind ?_ fun _ => hclose.bind fun _ => hpfn.bind fun _ => ?_
  · exact preserves_modify fun _ => rfl
  · exact preserves_modify fun _ => rfl

theorem preserves_acceptConn (tlsOk : Bool) : Preserves TablesIntact (acceptConn tlsOk) := by
  refine Preserves.read.bind fun _ => Preserves.bind ?_ fun _ => preserves_mgCall _ ?_
  · exact preserves_modify fun _ => rfl
  · intro data hdata
    cases hdata

theorem preserves_perform {a : Action} (ha : ∀ k frame, a ≠ .ws k frame) :
    Preserves TablesIntact (perform a) := by
  cases a with
  | accept tlsOk =>
      refine Preserves.read.bind fun st => ?_
      split
      · exact preserves_acceptConn tlsOk
      · exact .pure _
  | handshake k ok =>
      refine preserves_onConn k _ ?_
      cases ok with
      | true => exact (preserves_setConn _ _).bind fun _ => preserves_mgNotify k
      | false => exact preserves_mgError k
  | http k turns => exact preserves_onConn k _ (preserves_httpCb k turns)
  | fileDone k => exact preserves_onConn k _ (preserves_setConn _ _)
  | ws k frame => exact absurd rfl (ha k frame)
  | tick =>
      exact Preserves.read.bind fun st =>
        preserves_iterate (fun _ p => preserves_onTimerEvent p st.now) ()
  | clock now => exact preserves_modify fun st => by split <;> rfl
  | drained k => exact preserves_onConn k _ (preserves_setConn _ _)
  | error k => exact preserves_onConn k _ (preserves_setConn _ _)
  | notify k => exact preserves_mgNotify k
  | close k turns =>
      exact preserves_onConn k _ (Preserves.read.bind fun _ => preserves_mgCloseConn k _)

/-! ## Frames -/

theorem preserves_mgWsCb (k : ConnPtr) {frame : WsFrame}
    (h : frame.final = false ∨ 2 < frame.op.toNat) : Preserves TablesIntact (mgWsCb k frame) := by
  have hctl : Preserves TablesIntact (mgCall k (.wsCtl frame.flags)) := by
    refine preserves_mgCall k fun data hdata => ?_
    cases hdata
  have hop : Preserves TablesIntact (wsOp k frame) := by
    unfold wsOp
    split
    · exact hctl
    · exact (preserves_mgWsSend _ _).bind fun _ => hctl
    · exact hctl
    · next hop =>
        rw [if_neg (by rcases h with h | h; simp [h]; omega)]
        exact .pure _
    · next hop =>
        rw [if_neg (by rcases h with h | h; simp [h]; omega)]
        exact .pure _
    · exact hctl.bind fun _ => (preserves_mgWsSend _ _).bind fun _ => preserves_setConn _ _
    · exact preserves_mgError k
  have hkeep : Preserves TablesIntact (keepFragment k frame) := by
    unfold keepFragment
    split
    · exact preserves_setConn _ _
    · exact .pure _
  have hend : Preserves TablesIntact (endFragments k frame) := by
    have hlast : (frame.final && frame.op = 0) = false := by
      rcases h with h | h
      · simp [h]
      · have hne : frame.op ≠ 0 := by
          rintro heq
          rw [heq] at h
          exact absurd h (by decide)
        simp [hne]
    unfold endFragments
    rw [hlast]
    exact .pure _
  exact hop.bind fun _ => hkeep.bind fun _ => hend

/-- A frame that completes a message hands it to the connection's context, and does nothing
else to the heap. -/
theorem mgWsCb_message {frame : WsFrame} {c : Connection} (hc : st.conn? k = some c)
    (hfinal : frame.final = true) (hop : frame.op.toNat ≤ 2)
    (hrun : (mgWsCb k frame).run st = .ret () s) :
    ∃ u t, u.heap = st.heap ∧ u.wiring = st.wiring ∧ s.heap = t.heap ∧
      (SessionManager.fn k c.fnData (.wsMsg (frame.message c.frag))).run u = .ret () t := by
  by_cases hzero : frame.op = 0
  · have hopRun : (wsOp k frame).run st = .ret () st := by
      rcases wsOp_continuation st k hzero with hret | ⟨_, _, f, -, -, -, hfault⟩
      · exact hret
      · rw [mgWsCb, bind_of_fault hfault] at hrun
        cases hrun
    let u := st.updateConn k fun c => { c with frag := c.frag ++ [] ++ frame.data }
    have hkeep : (keepFragment k frame).run st = .ret () u := by
      simp [keepFragment, hzero, setConn, u]
    have hu : u.conn? k = some { c with frag := c.frag ++ [] ++ frame.data } := by
      rw [Server.conn?_updateConn, hc, Option.map_some, if_pos (Server.ptr_of_conn? hc)]
      exact fun _ => rfl
    have hmessage : frame.message c.frag = fragMessage (c.frag ++ [] ++ frame.data) := by
      simp [WsFrame.message, hfinal, hzero]
    have hend : (endFragments k frame).run u = (do
        mgCall k (.wsMsg (frame.message c.frag))
        setConn k fun c => { c with frag := [] } : Cpp Unit).run u := by
      rw [endFragments, if_pos (by simp [hfinal, hzero]), bind_of_ret (run_get u), hu, hmessage]
      rfl
    rw [mgWsCb, bind_of_ret hopRun, bind_of_ret hkeep, hend] at hrun
    obtain ⟨_, t, hcall, hset⟩ := ret_of_bind hrun
    cases hset
    have hfn := fn_of_mgCall hu hcall
    exact ⟨u, t, rfl, Server.wiring_updateConn fun _ => rfl, rfl, hfn⟩
  · have hop' : frame.op.toNat = 1 ∨ frame.op.toNat = 2 := by
      have hpos : frame.op.toNat ≠ 0 := fun h => hzero (UInt8.toNat_inj.mp h)
      omega
    have hmessage : frame.message c.frag = some frame.data := by
      rcases hop' with h | h <;> simp [WsFrame.message, hfinal, h]
    have hopRun : wsOp k frame = mgCall k (.wsMsg (frame.message c.frag)) := by
      rcases hop' with h | h <;> simp [wsOp, hfinal, h, hmessage]
    have hrest : mgWsCb k frame = wsOp k frame := by
      have hkeep : keepFragment k frame = Pure.pure () := by
        simp [keepFragment, hfinal, hzero]
      rw [mgWsCb, hkeep, endFragments_of_ne hzero]
      exact bind_pure _
    rw [hrest, hopRun] at hrun
    exact ⟨st, s, rfl, rfl, rfl, fn_of_mgCall hc hrun⟩

/-! ## One step -/

theorem run_of_step {a : Action} (hstep : step st a = .ok s) :
    (perform a).run st = .ret () s := by
  rw [step] at hstep
  cases hrun : (perform a).run st <;> rw [hrun] at hstep <;> cases hstep
  rfl

theorem step_ws {frame : WsFrame} (hstep : step st (.ws k frame) = .ok s) :
    (∃ c, st.conn? k = some c ∧ (c.isOpen && c.pfn = .wsCb) = true ∧
      (mgWsCb k frame).run st = .ret () s) ∨
    s = st ∧ ∀ c, st.conn? k = some c → (c.isOpen && c.pfn = .wsCb) = false := by
  have hrun := run_of_step hstep
  rw [perform, onConn, bind_of_ret (run_get st)] at hrun
  cases hc : st.conn? k with
  | none =>
      rw [hc] at hrun
      cases hrun
      exact .inr ⟨rfl, fun c hc => by cases hc⟩
  | some c =>
      rw [hc, Option.any_some] at hrun
      split at hrun
      · next hopen => exact .inl ⟨c, rfl, hopen, hrun⟩
      · next hclosed =>
          cases hrun
          refine .inr ⟨rfl, fun d hd => ?_⟩
          cases hd
          exact Bool.eq_false_iff.mpr hclosed

theorem delivered_ws {frame : WsFrame} {c : Connection} {j : Json} (hc : st.conn? k = some c)
    (hopen : (c.isOpen && c.pfn = .wsCb) = true)
    (hj : (frame.message c.frag).bind Nlohmann.parse = some j) :
    delivered st (.ws k frame) = some (k, j) := by
  rw [delivered, hc, Option.bind_some, if_pos hopen, hj]
  rfl

/-- Only a message of a type that is not registered changes a table. -/
theorem TablesIntact.step (h : TablesIntact st) {a : Action} (hknown : KnownType st a)
    (hstep : Mgws.step st a = .ok s) : TablesIntact s := by
  by_cases hws : ∀ k frame, a ≠ .ws k frame
  · have hkeeps := preserves_perform hws st h
    rwa [run_of_step hstep] at hkeeps
  · push Not at hws
    obtain ⟨k, frame, rfl⟩ := hws
    rcases step_ws hstep with ⟨c, hc, hopen, hrun⟩ | ⟨rfl, -⟩
    swap
    · exact h
    by_cases hmessage : frame.final = false ∨ 2 < frame.op.toNat
    · have hkeeps := preserves_mgWsCb k hmessage st h
      rwa [hrun] at hkeeps
    · simp only [not_or, Bool.not_eq_false, Nat.not_lt] at hmessage
      obtain ⟨u, t, hheap, -, hs, hfn⟩ := mgWsCb_message hc hmessage.1 hmessage.2 hrun
      refine TablesIntact.congr ?_ hs
      have hu : TablesIntact u := h.congr hheap
      cases hctx : c.fnData with
      | manager =>
          rw [hctx] at hfn
          cases hfn
          exact hu
      | session p =>
          rw [hctx] at hfn
          have hkeeps : Preserves TablesIntact (Peer.onMessage p (frame.message c.frag)) :=
            preserves_onMessage fun j key hj =>
              hknown k j c p key (delivered_ws hc hopen hj.parse) hc hctx hj.type
          have hkept := hkeeps u hu
          rw [show (Peer.onMessage p (frame.message c.frag)).run u = .ret () t from hfn] at hkept
          exact hkept

/-- A message of a type that is not registered leaves an entry for it. -/
theorem not_intact_of_unknown (h : TablesIntact st) {data : Option (List UInt8)} {j : Json}
    {key : String} (hdelivers : Delivers data j key) (hkey : key ∉ Peer.dispatch.map (·.1))
    (hrun : (Peer.onMessage p data).run st = .ret () s) : ¬TablesIntact s := by
  have hnone : Peer.dispatch.lookup key = none := by
    rw [mem_dispatch_iff, Option.not_isSome_iff_eq_none] at hkey
    exact hkey
  by_cases hp : st.Valid p
  swap
  · obtain ⟨f, hf⟩ := bind_deref_fault hp _
    rw [Peer.onMessage, hf] at hrun
    cases hrun
  obtain ⟨x, hx, hconn⟩ := hp
  have hmissing : x.pmd.lookup key = none := (h p x hx key).trans hnone
  have hhandler : st.handlerOf p key = none := by
    rw [Server.handlerOf, hx, Option.bind_some, hmissing]
    rfl
  rw [onMessage_unknown ⟨x, hx, hconn⟩ hdelivers hhandler] at hrun
  have hentered : (st.enter p key).heap p = some { x with pmd := x.pmd ++ [(key, none)] } := by
    rw [Server.enter, hx, Option.elim, hmissing, Option.isSome_none, if_neg Bool.false_ne_true,
      Server.heap_updateSession_self, hx]
    rfl
  cases hrun
  intro hintact
  have hentry := hintact p _ hentered key
  rw [List.lookup_append, hmissing, hnone] at hentry
  simp at hentry

theorem knownType_of_intact (h : TablesIntact st) {a : Action}
    (hstep : Mgws.step st a = .ok s) (hs : TablesIntact s) : KnownType st a := by
  intro k j c p key hdelivered hc hctx htype
  by_contra hkey
  cases a with
  | ws k' frame =>
      obtain rfl : k = k' := eq_of_delivered hdelivered
      rw [delivered, hc, Option.bind_some] at hdelivered
      split at hdelivered
      swap
      · cases hdelivered
      next hopen =>
      obtain ⟨j', hj, hpair⟩ := Option.map_eq_some_iff.mp hdelivered
      cases hpair
      rcases step_ws hstep with ⟨d, hd, -, hrun⟩ | ⟨-, hclosed⟩
      swap
      · rw [hclosed c hc] at hopen
        cases hopen
      rw [hc] at hd
      cases hd
      by_cases hmessage : frame.final = false ∨ 2 < frame.op.toNat
      · rw [message_eq_none hmessage] at hj
        cases hj
      simp only [not_or, Bool.not_eq_false, Nat.not_lt] at hmessage
      obtain ⟨u, t, hheap, -, hst, hfn⟩ := mgWsCb_message hc hmessage.1 hmessage.2 hrun
      rw [hctx] at hfn
      exact not_intact_of_unknown (h.congr hheap) ⟨hj, htype⟩ hkey hfn (hs.congr hst.symm)
  | _ => cases hdelivered

/-- The tables stay as they were filled exactly as long as every message with a type that
reaches a peer has a registered one. -/
theorem always_intact_iff (acts : List Action) :
    Transition.Always step TablesIntact initial acts ↔
      Transition.Meets step KnownType initial acts := by
  constructor
  · exact Transition.Meets.of_always (A := fun _ => True) .init (fun _ _ => trivial)
      fun _ _ _ _ hintact _ hstep hs => knownType_of_intact hintact hstep hs
  · exact Transition.Always.of_meets (A := fun _ => True) .init (fun _ _ => trivial)
      tablesIntact_initial fun _ _ _ _ hintact _ hknown hstep => hintact.step hknown hstep

end

end

theorem not_intact_of_wink :
    letI := parserOf winkText (.obj [("type", .str "Wink")])
    ¬∀ acts : List Action, Transition.Always step TablesIntact initial acts := by
  let _ := parserOf winkText (.obj [("type", .str "Wink")])
  have hrun : ∃ st s, Transition.run step initial (joining 2 ++ [.ws 2 (textFrame winkText)]) =
      .ok st ∧ st.heap 0 = some s ∧ (s.pmd.lookup "Wink").isSome :=
    ⟨_, _, rfl, rfl, rfl⟩
  obtain ⟨st, s, hrun, hheap, hwink⟩ := hrun
  intro hall
  have hintact : TablesIntact st := (hall _).last hrun
  rw [hintact 0 s hheap] at hwink
  exact absurd hwink (by decide)

end Mgws
