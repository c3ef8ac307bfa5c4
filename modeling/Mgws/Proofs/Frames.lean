import Mgws.Proofs.Wellformed
/-!
# A websocket frame is a sequence of effects

From a well-formed server, the functions that handle a frame return after a
sequence of effects.  They can only fail to return by dereferencing the null
pointer of a failed lookup, or when some connection of the list holds a
dangling pointer.
-/

namespace Mgws

open Lib Program

def Excused (m : Option (ConnPtr × Json)) (R : Server → ConnPtr → Bool → FactoryRun → Prop)
    (st : Server) (f : Fault) : Prop :=
  f = .nullSession ∨ ∃ s, Effects m R st s ∧ s.Dangling

/-- From every state that effects lead to from `st`, `x` returns after further
effects, or faults for a reason. -/
abbrev Runs {α : Type} (m : Option (ConnPtr × Json))
    (R : Server → ConnPtr → Bool → FactoryRun → Prop) (st : Server) (x : Cpp α) : Prop :=
  Triple (Inners m R st) x (fun _ => Inners m R st) (fun _ => False) (Excused m R st)

section

variable {m : Option (ConnPtr × Json)} {R : Server → ConnPtr → Bool → FactoryRun → Prop}
  {st s : Server} {k : ConnPtr} {p : SessionPtr}

theorem Inners.wf (h : Inners m R st s) (hwf : st.Wf) : s.Wf :=
  hwf.effects h.effects

theorem Inners.wiring_eq (h : Inners m NoJoin st s) : s.wiring = st.wiring := by
  refine h.invariant (I := fun t => t.wiring = st.wiring) rfl fun t u hinner ht => ?_
  rcases hinner.wiring with hw | ⟨k, hasKey, run, -, hfalse, -⟩
  · exact hw.trans ht
  · exact hfalse.elim

theorem Inner.detached_none (h : Inner m R st s) (hdetached : st.detached = none) :
    s.detached = none := by
  have hst : st.wiring.detached = none := by simp [Server.wiring, hdetached]
  have hs : s.wiring.detached = none := by
    rcases h.wiring with hw | ⟨k, hasKey, run, -, -, hw⟩
    · rw [hw, hst]
    · rw [hw]
      cases run <;>
        simp [Wiring.join, Wiring.upgrade, Wiring.attach, Wiring.updateWire, hst]
  simpa [Server.wiring] using hs

theorem Inners.detached_none (h : Inners m R st s) (hdetached : st.detached = none) :
    s.detached = none :=
  h.invariant hdetached fun _ _ hinner ht => hinner.detached_none ht

/-! ## Single writes -/

theorem mgWsSend_runs {frame : Frame} (hframe : ¬frame.IsDirectory) :
    Runs m R st (mgWsSend k frame) :=
  Triple.modify fun _ hs => hs.tail (.queue hframe)

theorem setConn_runs {f : Connection → Connection} (hf : ∀ c : Connection, c.SameAs (f c)) :
    Runs m R st (setConn k f) :=
  Triple.modify fun _ hs => hs.tail (.conn hf)

theorem Server.Stale.dangling (h : st.Stale k p) (hdetached : st.detached = none) :
    st.Dangling := by
  obtain ⟨c, hc, hctx, hp⟩ := h
  refine ⟨c, mem_conns_of_conn? hdetached hc, p, hctx, ?_⟩
  rintro ⟨s, hs, -⟩
  rw [hp] at hs
  cases hs

theorem mgNotify_runs (hdetached : st.detached = none) : Runs m R st (mgNotify k) := by
  intro s hs
  rcases mgNotify_cases s k with hrun | ⟨p, hstale, hrun⟩
  · rw [hrun]
    exact hs
  · rw [hrun]
    exact .inr ⟨s, hs.effects, hstale.dangling (hs.detached_none hdetached)⟩

theorem mgError_runs (hdetached : st.detached = none) : Runs m R st (mgError k) :=
  (setConn_runs (f := fun c => { c with isClosing := true }) fun _ => ⟨rfl, rfl⟩).bind fun _ =>
    mgNotify_runs hdetached

/-! ## A message to a session -/

theorem not_isDirectory {j : Json} {key : String} (htype : j.find? "type" = some (.str key))
    (hkey : key ≠ "SessionsChanged") : ¬(Frame.text j).IsDirectory := by
  rintro ⟨j', hj, hdir⟩
  cases hj
  rw [htype] at hdir
  exact hkey (by simpa using hdir)

theorem tell_inners {msg : Json} (hmsg : ¬(Frame.text msg).IsDirectory) :
    Inners m R st (st.tell p msg) := by
  rw [Server.tell]
  cases st.heap p with
  | none => exact .refl
  | some s => exact .single (.queue hmsg)

theorem enter_inners (key : String) : Inners m R st (st.enter p key) := by
  rw [Server.enter]
  cases st.heap p with
  | none => exact .refl
  | some s =>
      simp only [Option.elim]
      split
      · exact .refl
      · refine .single (.session fun s => ⟨rfl, rfl, rfl, rfl, rfl, fun key' => ?_⟩)
        rw [List.lookup_append]
        cases s.pmd.lookup key' with
        | some handler => rfl
        | none =>
            rw [Option.none_or, List.lookup_cons]
            split <;> rfl

theorem dispatch_cases {key : String} {handler : Handler}
    (h : (Peer.dispatch.lookup key).join = some handler) : (key, some handler) ∈ Peer.dispatch := by
  obtain ⟨pre, post, hsplit, -⟩ := List.lookup_eq_some_iff.mp (Option.join_eq_some_iff.mp h)
  rw [hsplit]
  simp

theorem handlerOf_mem (htables : st.Tables) {key : String} {handler : Handler}
    (h : st.handlerOf p key = some handler) : (key, some handler) ∈ Peer.dispatch := by
  obtain ⟨s, hs, hjoin⟩ := Option.bind_eq_some_iff.mp h
  exact dispatch_cases (htables p s hs key ▸ hjoin)

theorem handlerOf_eq (htables : st.Tables) (hp : st.Valid p) (key : String) :
    st.handlerOf p key = (Peer.dispatch.lookup key).join := by
  obtain ⟨s, hs, -⟩ := hp
  rw [Server.handlerOf, hs, Option.bind_some, htables p s hs key]

theorem enter_of_handlerOf {key : String} {handler : Handler}
    (h : st.handlerOf p key = some handler) : st.enter p key = st := by
  obtain ⟨s, hs, hjoin⟩ := Option.bind_eq_some_iff.mp h
  rw [Server.enter, hs, Option.elim, if_pos]
  rw [Option.join_eq_some_iff.mp hjoin]
  rfl

def Ends {α : Type} (m : Option (ConnPtr × Json))
    (R : Server → ConnPtr → Bool → FactoryRun → Prop) (st : Server) :
    Outcome Server Exn Fault α → Prop
  | .ret _ s => Inners m R st s
  | .throw _ _ => False
  | .fault f => Excused m R st f

theorem Excused.of_inners {f : Fault} (h : Excused m R s f) (hs : Inners m R st s) :
    Excused m R st f := by
  rcases h with hnull | ⟨t, ht, hdangling⟩
  · exact .inl hnull
  · exact .inr ⟨t, hs.effects.trans ht, hdangling⟩

theorem Excused.of_dangling {f : Fault} (hs : Inners m R st s) (h : s.Dangling) :
    Excused m R st f :=
  .inr ⟨s, hs.effects, h⟩

theorem Ends.of_inners {α : Type} {out : Outcome Server Exn Fault α} (h : Ends m R s out)
    (hs : Inners m R st s) : Ends m R st out := by
  cases out with
  | ret a t => exact hs.trans h
  | throw e t => exact h
  | fault f => exact Excused.of_inners h hs

theorem Ends.mono {α : Type} {out : Outcome Server Exn Fault α} (h : Ends m NoJoin st out) :
    Ends m R st out := by
  cases out with
  | ret a t => exact Inners.mono h
  | throw e t => exact h
  | fault f =>
      rcases h with hnull | ⟨s, hs, hdangling⟩
      · exact .inl hnull
      · exact .inr ⟨s, hs.mono, hdangling⟩

theorem Runs.of_ends {α : Type} {x : Cpp α}
    (h : ∀ s, Inners m R st s → Ends m R s (x.run s)) : Runs m R st x := by
  intro s hs
  have hends := (h s hs).of_inners hs
  cases hrun : x.run s with
  | ret a t => rw [hrun] at hends; exact hends
  | throw e t => rw [hrun] at hends; exact hends
  | fault f => rw [hrun] at hends; exact hends

theorem Runs.ends {α : Type} {x : Cpp α} (h : Runs m R st x) : Ends m R st (x.run st) := by
  have hst := h st .refl
  cases hrun : x.run st with
  | ret a t => rw [hrun] at hst; exact hst
  | throw e t => rw [hrun] at hst; exact hst
  | fault f => rw [hrun] at hst; exact hst

theorem dangling_of_reached (hp : p ∈ st.reached) (h : ¬st.Valid p) : st.Dangling := by
  obtain ⟨c, hc, hattached⟩ := mem_walk hp
  exact ⟨c, hc, p, Connection.fnData_of_attached hattached, h⟩

theorem onForwardMessage_ends {j : Json} {key : String}
    (htype : j.find? "type" = some (.str key)) (hkey : key ≠ "SessionsChanged") :
    Ends m R st ((Peer.onForwardMessage j).run st) := by
  by_cases hall : j.forwardTarget.isSome → ∀ q ∈ st.reached, st.Valid q
  · rw [onForwardMessage_run htype hall, Server.forward]
    cases j.forwardTarget.bind st.lookup with
    | none => exact .refl
    | some q => exact tell_inners (not_isDirectory htype hkey)
  · push Not at hall
    obtain ⟨hsome, q, hq, hinvalid⟩ := hall
    obtain ⟨f, hf⟩ := onForwardMessage_fault htype hsome hq hinvalid
    rw [hf]
    exact .of_dangling .refl (dangling_of_reached hq hinvalid)

theorem onHeartbeat_ends (hp : st.Valid p) {j : Json} {key : String}
    (htype : j.find? "type" = some (.str key)) (hkey : key ≠ "SessionsChanged") :
    Ends m R st ((Peer.onHeartbeat p j).run st) := by
  obtain ⟨j', htype', hrun⟩ := onHeartbeat_run hp htype
  rw [hrun]
  refine (tell_inners (not_isDirectory htype' hkey)).tail (.session fun s => ?_)
  exact ⟨rfl, rfl, rfl, rfl, rfl, fun _ => rfl⟩

theorem onLocalIdEvent_ends (hp : st.Valid p) {j : Json} {c : Connection} (hc : c ∈ st.conns)
    (hctx : c.fnData = .session p) (hm : m = some (c.ptr, j))
    (htype : j.find? "type" = some (.str "LocalIdEvent")) :
    Ends m R st ((Peer.onLocalIdEvent p j).run st) := by
  by_cases hid : st.idOf p < 2 ^ 31
  · cases hname : j.newName (st.idOf p) with
    | none =>
        rw [onLocalIdEvent_ignored hp htype (.inl hname)]
        exact .refl
    | some name =>
        rcases st.reached_valid_or with hall | ⟨q, hq, hinvalid⟩
        · cases hq : st.lookup (st.idOf p) with
          | none =>
              rw [onLocalIdEvent_missing hp htype hname hall hid hq]
              exact .inl rfl
          | some q =>
              rw [onLocalIdEvent_found hp htype hname hall hid hq]
              obtain ⟨hreads, huser⟩ := newName_eq_some_iff.mp hname
              obtain ⟨hmem, hsame⟩ := lookup_mem hq
              exact .single (.rename hm hc rfl hctx hp hall hid ⟨htype, hreads, huser⟩ hmem hsame)
        · obtain ⟨f, hf⟩ := onLocalIdEvent_fault hp htype hname hid hq hinvalid
          rw [hf]
          exact .of_dangling .refl (dangling_of_reached hq hinvalid)
  · rw [onLocalIdEvent_ignored hp htype (.inr (by omega))]
    exact .refl

theorem conns_enter (key : String) : (st.enter p key).conns = st.conns := by
  rw [Server.enter]
  cases st.heap p with
  | none => rfl
  | some s =>
      simp only [Option.elim]
      split <;> rfl

theorem onControlMessage_ends {c : Connection} (hc : c ∈ st.conns)
    (hctx : c.fnData = .session p) (flags : UInt8) :
    Ends m R st ((Session.onControlMessage p flags).run st) := by
  by_cases hp : st.Valid p
  · obtain ⟨s, c', -, -, hrun⟩ := deref_valid hp
    rw [Session.onControlMessage, bind_of_ret hrun]
    split
    · exact .single .pong
    · exact .refl
  · obtain ⟨f, hf⟩ := bind_deref_fault hp _
    rw [Session.onControlMessage, hf]
    exact .of_dangling .refl ⟨c, hc, p, hctx, hp⟩

theorem keepFragment_runs {frame : WsFrame} : Runs m R st (keepFragment k frame) := by
  unfold keepFragment
  split
  · exact setConn_runs fun _ => ⟨rfl, rfl⟩
  · exact Triple.pure fun _ hs => hs

section

variable [Nlohmann]

/-- A message delivered to the session that the connection `c` holds. -/
theorem onMessage_ends (hwf : st.Wf) {c : Connection} (hc : c ∈ st.conns)
    (hctx : c.fnData = .session p) {data : Option (List UInt8)}
    (hm : ∀ j, data.bind Nlohmann.parse = some j → m = some (c.ptr, j)) :
    Ends m R st ((Peer.onMessage p data).run st) := by
  by_cases hp : st.Valid p
  swap
  · obtain ⟨f, hf⟩ := bind_deref_fault hp _
    rw [Peer.onMessage, hf]
    exact .of_dangling .refl ⟨c, hc, p, hctx, hp⟩
  by_cases hdelivers : ∃ j key, Delivers data j key
  swap
  · push Not at hdelivers
    rw [onMessage_ignored hp hdelivers]
    exact .refl
  obtain ⟨j, key, hdelivers⟩ := hdelivers
  have htype := hdelivers.type
  have hp' : (st.enter p key).Valid p := (Server.valid_congr (wiring_enter key)).mpr hp
  have hc' : c ∈ (st.enter p key).conns := by rwa [conns_enter]
  have hcall : Ends m R (st.enter p key)
      ((Peer.call p j (st.handlerOf p key)).run (st.enter p key)) ∨
      st.handlerOf p key = none := by
    cases hhandler : st.handlerOf p key with
    | none => exact .inr rfl
    | some handler =>
        left
        have hmem := handlerOf_mem hwf.tables hhandler
        simp only [Peer.dispatch, List.mem_cons, Prod.mk.injEq, Option.some.injEq,
          List.not_mem_nil, or_false] at hmem
        rcases hmem with ⟨rfl, rfl⟩ | ⟨rfl, rfl⟩ | ⟨rfl, rfl⟩ | ⟨rfl, rfl⟩ | ⟨rfl, rfl⟩ |
          ⟨rfl, rfl⟩ | ⟨rfl, rfl⟩
        · rw [Peer.call, onRegisterSession_run htype]
          exact .refl
        · exact onLocalIdEvent_ends hp' hc' hctx (hm j hdelivers.parse) htype
        · exact onForwardMessage_ends htype (by decide)
        · exact onForwardMessage_ends htype (by decide)
        · exact onForwardMessage_ends htype (by decide)
        · exact onForwardMessage_ends htype (by decide)
        · exact onHeartbeat_ends hp' htype (by decide)
  rcases hcall with hcall | hnone
  · cases hrun : (Peer.call p j (st.handlerOf p key)).run (st.enter p key) with
    | ret _ t =>
        rw [hrun] at hcall
        rw [onMessage_of_ret hp hdelivers hrun]
        exact (enter_inners key).trans hcall
    | throw e t =>
        rw [hrun] at hcall
        exact hcall.elim
    | fault f =>
        rw [hrun] at hcall
        rw [onMessage_of_fault hp hdelivers hrun]
        exact hcall.of_inners (enter_inners key)
  · rw [onMessage_unknown hp hdelivers hnone]
    exact enter_inners key

/-! ## A frame on a connection -/

/-- An event that comes with a stale context is not passed on. -/
theorem mgCall_ends (hdetached : st.detached = none) (ev : Event)
    (h : ∀ c, st.conn? k = some c → st.Live c.fnData →
      Ends m R st ((SessionManager.fn k c.fnData ev).run st)) :
    Ends m R st ((mgCall k ev).run st) := by
  cases hc : st.conn? k with
  | none =>
      rw [mgCall_of_none hc]
      exact .refl
  | some c =>
      rcases Server.live_or_stale hc with hlive | ⟨p, hstale⟩
      · rw [mgCall_live hc hlive]
        exact h c hc hlive
      · rw [mgCall_stale hstale]
        exact .of_dangling .refl (hstale.dangling hdetached)

theorem mgCall_wsMsg_ends (hwf : st.Wf) (hdetached : st.detached = none)
    {data : Option (List UInt8)}
    (hm : ∀ j, data.bind Nlohmann.parse = some j → m = some (k, j)) :
    Ends m R st ((mgCall k (.wsMsg data)).run st) := by
  refine mgCall_ends hdetached _ fun c hc _ => ?_
  cases hctx : c.fnData with
  | manager => exact .refl
  | session p =>
      refine onMessage_ends hwf (Server.mem_conns_of_conn? hdetached hc) hctx fun j hj => ?_
      rw [Server.ptr_of_conn? hc]
      exact hm j hj

theorem mgCall_wsCtl_ends (hdetached : st.detached = none) (flags : UInt8) :
    Ends m R st ((mgCall k (.wsCtl flags)).run st) := by
  refine mgCall_ends hdetached _ fun c hc _ => ?_
  cases hctx : c.fnData with
  | manager => exact .refl
  | session p => exact onControlMessage_ends (Server.mem_conns_of_conn? hdetached hc) hctx flags

/-- The message that a frame completes behind the fragments kept so far. -/
def WsFrame.message (frame : WsFrame) (frag : List UInt8) : Option (List UInt8) :=
  if frame.final then
    match frame.op.toNat with
    | 0 => fragMessage (frag ++ frame.data)
    | 1 | 2 => some frame.data
    | _ => none
  else none

/-- The effects of a frame that is no continuation. -/
theorem wsOp_runs (hwf : st.Wf) (hdetached : st.detached = none) {frame : WsFrame}
    {frag : List UInt8}
    (hm : ∀ j, (frame.message frag).bind Nlohmann.parse = some j → m = some (k, j)) :
    Runs m NoJoin st (wsOp k frame) := by
  have hctl : Runs m NoJoin st (mgCall k (.wsCtl frame.flags)) :=
    .of_ends fun s hs => mgCall_wsCtl_ends (hs.detached_none hdetached) _
  have hmsg : frame.message frag = some frame.data →
      Runs m NoJoin st (mgCall k (.wsMsg (some frame.data))) := by
    intro hdata
    rw [hdata] at hm
    exact .of_ends fun s hs => mgCall_wsMsg_ends (hs.wf hwf) (hs.detached_none hdetached) hm
  unfold wsOp
  split
  · exact hctl
  · exact (mgWsSend_runs (Frame.not_isDirectory rfl)).bind fun _ => hctl
  · exact hctl
  · next hop =>
      split
      · next hfinal => exact hmsg (by simp [WsFrame.message, hfinal, hop])
      · exact Triple.pure fun _ hs => hs
  · next hop =>
      split
      · next hfinal => exact hmsg (by simp [WsFrame.message, hfinal, hop])
      · exact Triple.pure fun _ hs => hs
  · refine hctl.bind fun _ => ?_
    refine (mgWsSend_runs (Frame.not_isDirectory rfl)).bind fun _ => ?_
    exact setConn_runs fun _ => ⟨rfl, rfl⟩
  · exact mgError_runs hdetached

variable (st k) in
/-- A continuation frame only reaches the control handler, which ignores it. -/
theorem wsOp_continuation {frame : WsFrame} (hop : frame.op = 0) :
    (wsOp k frame).run st = .ret () st ∨
      ∃ c p f, st.conn? k = some c ∧ c.fnData = .session p ∧ ¬st.Valid p ∧
        (wsOp k frame).run st = .fault f := by
  have hrun : (wsOp k frame).run st = (mgCall k (.wsCtl frame.flags)).run st := by
    simp [wsOp, hop]
  rw [hrun]
  cases hc : st.conn? k with
  | none => exact .inl (mgCall_of_none hc _)
  | some c =>
      rcases Server.live_or_stale hc with hlive | ⟨p, hstale⟩
      swap
      · obtain ⟨d, hd, hctx, hp⟩ := hstale
        cases hc.symm.trans hd
        refine .inr ⟨c, p, _, rfl, hctx, ?_, mgCall_stale ⟨c, hc, hctx, hp⟩ _⟩
        rintro ⟨s, hs, -⟩
        cases hp.symm.trans hs
      rw [mgCall_live hc hlive]
      cases hctx : c.fnData with
      | manager => exact .inl rfl
      | session p =>
          by_cases hp : st.Valid p
          · left
            obtain ⟨s, c', -, -, hderef⟩ := deref_valid hp
            have hflags : ¬frame.flags &&& 0xF = 10 := by
              intro hten
              rw [WsFrame.op] at hop
              exact absurd (hop.symm.trans hten) (by decide)
            show (Session.onControlMessage p frame.flags).run st = _
            rw [Session.onControlMessage, bind_of_ret hderef, if_neg hflags]
            rfl
          · right
            obtain ⟨f, hf⟩ := bind_deref_fault hp _
            exact ⟨c, p, f, rfl, hctx, hp, hf⟩

theorem endFragments_of_ne {frame : WsFrame} (hop : frame.op ≠ 0) :
    endFragments k frame = Pure.pure () := by
  simp [endFragments, hop]

theorem endFragments_ends (hwf : st.Wf) (hdetached : st.detached = none) {frame : WsFrame}
    {c : Connection} (hc : st.conn? k = some c)
    (hm : frame.op = 0 → frame.final = true →
      ∀ j, (fragMessage c.frag).bind Nlohmann.parse = some j → m = some (k, j)) :
    Ends m NoJoin st ((endFragments k frame).run st) := by
  unfold endFragments
  split
  · next hlast =>
      have hfinal : frame.final = true ∧ frame.op = 0 := by simpa using hlast
      have hmsg : Runs m NoJoin st (mgCall k (.wsMsg (fragMessage c.frag))) :=
        .of_ends fun s hs => mgCall_wsMsg_ends (hs.wf hwf) (hs.detached_none hdetached)
          (hm hfinal.2 hfinal.1)
      have hrest := hmsg.bind fun _ =>
        setConn_runs (k := k) (f := fun c => { c with frag := [] })
          fun _ => ⟨rfl, rfl⟩
      rw [bind_of_ret (run_get st), hc]
      exact Runs.ends hrest
  · exact .refl

theorem mgWsCb_ends (hwf : st.Wf) (hdetached : st.detached = none) {frame : WsFrame}
    {c : Connection} (hc : st.conn? k = some c)
    (hm : ∀ j, (frame.message c.frag).bind Nlohmann.parse = some j → m = some (k, j)) :
    Ends m NoJoin st ((mgWsCb k frame).run st) := by
  by_cases hop : frame.op = 0
  · rcases wsOp_continuation st k hop with hrun | ⟨c', p, f, hc', hctx, hp, hrun⟩
    · have hsame : ∀ c : Connection, c.SameAs { c with frag := c.frag ++ [] ++ frame.data } :=
        fun _ => ⟨rfl, rfl⟩
      have hkeep : (keepFragment k frame).run st =
          .ret () (st.updateConn k fun c => { c with frag := c.frag ++ [] ++ frame.data }) := by
        simp [keepFragment, hop, setConn]
      have hinner : Inners m NoJoin st
          (st.updateConn k fun c => { c with frag := c.frag ++ [] ++ frame.data }) :=
        .single (.conn hsame)
      rw [mgWsCb, bind_of_ret hrun, bind_of_ret hkeep]
      refine Ends.of_inners ?_ hinner
      refine endFragments_ends (hinner.wf hwf) (hinner.detached_none hdetached)
        (c := { c with frag := c.frag ++ [] ++ frame.data }) ?_ fun _ hfinal j hj => hm j ?_
      · rw [Server.conn?_updateConn, hc, Option.map_some, if_pos (Server.ptr_of_conn? hc)]
        exact fun _ => rfl
      · simpa [WsFrame.message, hop, hfinal] using hj
    · rw [mgWsCb, bind_of_fault hrun]
      exact .of_dangling .refl ⟨c', Server.mem_conns_of_conn? hdetached hc', p, hctx, hp⟩
  · have hrest : Runs m NoJoin st (do keepFragment k frame; endFragments k frame) := by
      rw [endFragments_of_ne hop]
      exact keepFragment_runs.bind fun _ => Triple.pure fun _ hs => hs
    exact Runs.ends ((wsOp_runs hwf hdetached hm).bind fun _ => hrest)

end

end

end Mgws
