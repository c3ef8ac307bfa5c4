import Mgws.Proofs.Format
import Mgws.Proofs.Growth
import Mgws.Proofs.Reads
/-!
# What the server says to a message of a page

A Heartbeat is returned, a signalling message goes to the session that it names, a new name is
confirmed and told to everybody, and nothing else is said.
-/

namespace Mgws

/-- `j` was queued for the client at `dest`, if any, and nothing else for anybody. -/
def Server.Sends (st s : Server) (dest : Option ConnPtr) (j : Json) : Prop :=
  st.Grows s fun k => if dest = some k then [j] else []

namespace Browser

open Lib Program

/-- What the server says of its own when a message arrives from the session at `k`. -/
inductive Notice (st : Server) (k : ConnPtr) : ConnPtr → Json → Prop
  | confirms : Notice st k k Message.localIdChanged.toJson
  | lists {k' j} (h : st.Lists k' j) : Notice st k k' j

section

variable {st s : Server} {k : ConnPtr} {p : SessionPtr} {c : Connection} {msg : Message}

theorem sends_none (st : Server) (j : Json) : st.Sends st none j :=
  (Server.Mute.refl st).congr fun _ => (if_neg nofun).symm

/-- A signalling message goes to one session at most. -/
theorem forward_sends (hwf : st.Wf) (hall : ∀ q ∈ st.reached, st.Valid q) {n : Nat}
    (htarget : msg.target? = some n.repr) :
    ∃ dest, st.Sends (st.forward msg.toJson) dest msg.toJson ∧
      ∀ k', dest = some k' → st.Hears k' ∧ sessionId k' = n := by
  have hnowhere : ∀ k', none = some k' → st.Hears k' ∧ sessionId k' = n := by
    intro k' hk'
    cases hk'
  by_cases hn : n < 2 ^ 31
  swap
  · have hfar : msg.toJson.forwardTarget = none := by
      rw [forwardTarget_repr (find?_targetId htarget), if_neg hn]
    rw [Server.forward, hfar]
    exact ⟨none, sends_none st _, hnowhere⟩
  rw [forward_toJson hn htarget]
  cases hlookup : st.lookup n with
  | none => exact ⟨none, sends_none st _, hnowhere⟩
  | some q =>
      obtain ⟨hq, hid⟩ := lookup_mem hlookup
      obtain ⟨d, hd, hattached⟩ := mem_walk hq
      have hctx := Connection.fnData_of_attached hattached
      rw [idOf_eq hwf hd hctx (hall q hq)] at hid
      obtain ⟨x, hx, -⟩ := hall q hq
      refine ⟨some d.ptr, ?_, fun k' hk' => ?_⟩
      · have hgrows := Server.grows_tell hx msg.toJson
        rw [hwf.connection_eq hd hctx hx] at hgrows
        exact hgrows.congr fun k' => by simp only [Option.some.injEq]
      · cases hk'
        exact ⟨hears_of_mem hd hattached, hid⟩

theorem changeName_adds (hwf : st.Wf) (hall : ∀ q ∈ st.reached, st.Valid q) (hc : c ∈ st.conns)
    (hk : c.ptr = k) (hctx : c.fnData = .session p) (hp : st.Valid p) (q : SessionPtr)
    (name : String) : st.Adds (st.changeName p q name) (Notice st k) := by
  obtain ⟨x, hx, -⟩ := hp
  obtain ⟨t, ht⟩ : ∃ t, t = st.rename q name := ⟨_, rfl⟩
  have hrename : st.Mute t := ht ▸ (Server.Mute.refl st).of_conns rfl rfl
  obtain ⟨y, hy, hyc⟩ : ∃ y, t.heap p = some y ∧ y.connection = k := by
    have howner : t.wiring.owner p = st.wiring.owner p :=
      congrArg (·.owner p) (ht ▸ wiring_rename name)
    rw [Server.owner_of_heap hx, hwf.connection_eq hc hctx hx, hk] at howner
    exact Option.map_eq_some_iff.mp howner
  have htell : t.Adds (t.tell p localIdChanged) (Notice st k) := by
    refine ⟨_, Server.grows_tell hy localIdChanged, fun k' j hj => ?_⟩
    split at hj
    · next hptr =>
        obtain rfl : k = k' := hyc.symm.trans hptr
        rw [List.mem_singleton.mp hj]
        exact .confirms
    · cases hj
  have hwiring : (t.tell p localIdChanged).wiring = st.wiring := ht ▸ wiring_renamed st p q name
  have hlists : (t.tell p localIdChanged).Adds (st.changeName p q name) (Notice st k) := by
    rw [Server.changeName, ← ht]
    refine ⟨_, Server.grows_tells _ _ _, fun k' j hj => .lists ?_⟩
    have hwf' : (t.tell p localIdChanged).Wf := ht ▸ hwf.renamed p q name
    have hall' : ∀ r ∈ (t.tell p localIdChanged).reached, (t.tell p localIdChanged).Valid r :=
      ht ▸ valid_renamed p q name hall
    refine (lists_of_hits hwf' hall' hj).of_subset fun w hw => ?_
    rwa [hwiring] at hw
  exact hrename.adds.trans (htell.trans hlists)

theorem localIdEvent_adds (hwf : st.Wf) (hall : ∀ q ∈ st.reached, st.Valid q) (hc : c ∈ st.conns)
    (hk : c.ptr = k) (hctx : c.fnData = .session p) (hp : st.Valid p) {j : Json}
    (htype : j.find? "type" = some (.str "LocalIdEvent")) :
    (∃ s, (Peer.onLocalIdEvent p j).run st = .ret () s ∧ st.Adds s (Notice st k)) ∨
      ∃ f, (Peer.onLocalIdEvent p j).run st = .fault f := by
  have hsame : st.Adds st (Notice st k) := (Server.Mute.refl st).adds
  cases hname : j.newName (st.idOf p) with
  | none => exact .inl ⟨st, onLocalIdEvent_ignored hp htype (.inl hname), hsame⟩
  | some name =>
      by_cases hid : st.idOf p < 2 ^ 31
      swap
      · exact .inl ⟨st, onLocalIdEvent_ignored hp htype (.inr (Nat.le_of_not_lt hid)), hsame⟩
      cases hlookup : st.lookup (st.idOf p) with
      | none => exact .inr ⟨_, onLocalIdEvent_missing hp htype hname hall hid hlookup⟩
      | some q =>
          exact .inl ⟨_, onLocalIdEvent_found hp htype hname hall hid hlookup,
            changeName_adds hwf hall hc hk hctx hp q name⟩

end

inductive Served (st : Server) (k : ConnPtr) (msg : Message) (s : Server) : Prop where
  | echo (hbeat : msg.isHeartbeat) (h : st.Sends s (some k) msg.toJson)
  | relay {n dest} (hwell : msg.wellFormed) (htarget : msg.target? = some n.repr)
      (h : st.Sends s dest msg.toJson)
      (hdest : ∀ k', dest = some k' → st.Hears k' ∧ sessionId k' = n)
  | notice (hbeat : msg.isHeartbeat = false)
      (htarget : msg.target? = none ∨ msg.wellFormed = false) (h : st.Adds s (Notice st k))

section

variable [Nlohmann] {st s : Server} {k : ConnPtr} {p : SessionPtr} {c : Connection}
  {msg : Message} {data : List UInt8}

theorem step_text (hc : st.conn? k = some c) (hopen : c.isOpen = true) (hpfn : c.pfn = .wsCb)
    (hctx : c.fnData = .session p) (h : Mgws.step st (.ws k ⟨129, data⟩) = .ok s) :
    (Peer.onMessage p (some data)).run st = .ret () s := by
  have hfinal : (⟨129, data⟩ : WsFrame).final = true := by
    show ((129 : UInt8) &&& 128 != 0) = true
    decide
  have hop : (⟨129, data⟩ : WsFrame).op = 1 := by
    show (129 : UInt8) &&& 15 = 1
    decide
  have hne : (⟨129, data⟩ : WsFrame).op ≠ 0 := by
    rw [hop]
    decide
  have hmsg : wsOp k ⟨129, data⟩ = mgCall k (.wsMsg (some data)) := by
    simp [wsOp, hop, hfinal]
  have hrun := run_of_step h
  rw [perform, onConn_run hc (by simp [hopen, hpfn]), mgWsCb_whole hfinal hne, hmsg] at hrun
  have hfn := fn_of_mgCall hc hrun
  rwa [hctx] at hfn

/-- A message of a page goes to the handler for its type. -/
theorem onMessage_handler (handler : Handler) (hwf : st.Wf) (hp : st.Valid p)
    (hlookup : Peer.dispatch.lookup msg.type = some (some handler))
    (hdata : Nlohmann.parse data = some msg.toJson)
    (hrun : (Peer.onMessage p (some data)).run st = .ret () s) :
    (∀ t, (Peer.call p msg.toJson (some handler)).run st = .ret () t → s = t) ∧
      ∀ f, (Peer.call p msg.toJson (some handler)).run st ≠ .fault f := by
  have hhandler : st.handlerOf p msg.type = some handler := by
    rw [handlerOf_eq hwf.tables hp, hlookup]
    rfl
  have hdelivers : Delivers (some data) msg.toJson msg.type := ⟨hdata, find?_type msg⟩
  constructor
  · intro t hcall
    rw [onMessage_of_ret hp hdelivers (by rwa [hhandler, enter_of_handlerOf hhandler])] at hrun
    cases hrun
    rfl
  · intro f hcall
    rw [onMessage_of_fault hp hdelivers (by rwa [hhandler, enter_of_handlerOf hhandler])] at hrun
    cases hrun

theorem served (hwf : st.Wf) (hdetached : st.detached = none) (hsound : st.wiring.Sound)
    (hc : st.conn? k = some c) (hopen : c.isOpen = true) (hpfn : c.pfn = .wsCb)
    (hattached : c.attached.isSome) (hsent : msg.IsSent)
    (hdata : Nlohmann.parse data = msg.json?)
    (h : Mgws.step st (.ws k ⟨129, data⟩) = .ok s) : Served st k msg s := by
  obtain ⟨p, hattached⟩ := Option.isSome_iff_exists.mp hattached
  have hctx := Connection.fnData_of_attached hattached
  have hmem := Server.mem_conns_of_conn? hdetached hc
  have hk := Server.ptr_of_conn? hc
  have hp : st.Valid p := valid_of_sound hsound hmem hctx
  have hall : ∀ q ∈ st.reached, st.Valid q := fun q hq => valid_of_reached hsound hq
  have hrun := step_text hc hopen hpfn hctx h
  by_cases hwell : msg.wellFormed = true
  swap
  · have hnever : ∀ j key, ¬Delivers (some data) j key := by
      intro j key hdelivers
      have hnone : msg.json? = none := if_neg hwell
      cases (hdata.trans hnone).symm.trans hdelivers.parse
    cases (onMessage_ignored hp hnever).symm.trans hrun
    have hbeat : msg.isHeartbeat = false := by
      cases msg with
      | heartbeat => exact absurd rfl hwell
      | _ => rfl
    exact .notice hbeat (.inr (Bool.not_eq_true _ ▸ hwell)) (Server.Mute.refl st).adds
  rw [json?_of_wellFormed hwell] at hdata
  have hrelay : ∀ n : Nat, msg.target? = some n.repr →
      Peer.dispatch.lookup msg.type = some (some .forwardMessage) → Served st k msg s := by
    intro n htarget hlookup
    obtain ⟨hret, -⟩ := onMessage_handler .forwardMessage hwf hp hlookup hdata hrun
    obtain rfl := hret _ (onForwardMessage_run (find?_type _) fun _ => hall)
    obtain ⟨dest, hsends, hdest⟩ := forward_sends hwf hall htarget
    exact .relay hwell htarget hsends hdest
  cases msg with
  | registerSession sessionId appVersion userName =>
      obtain ⟨hret, -⟩ := onMessage_handler .registerSession hwf hp rfl hdata hrun
      obtain rfl := hret st (onRegisterSession_run (find?_type _))
      exact .notice rfl (.inl rfl) (Server.Mute.refl s).adds
  | localIdEvent id userName =>
      obtain ⟨hret, hfault⟩ := onMessage_handler .localIdEvent hwf hp rfl hdata hrun
      have htype := find?_type (.localIdEvent id userName)
      rcases localIdEvent_adds hwf hall hmem hk hctx hp htype with ⟨t, ht, hadds⟩ | ⟨f, hf⟩
      · obtain rfl := hret t ht
        exact .notice rfl (.inl rfl) hadds
      · exact absurd hf (hfault f)
  | heartbeat id =>
      obtain ⟨hret, -⟩ := onMessage_handler .heartbeat hwf hp rfl hdata hrun
      refine .echo rfl ?_
      rw [hret _ (onHeartbeat_toJson hp id)]
      obtain ⟨x, hx, -⟩ := hp
      have hgrows := Server.grows_tell hx (Message.heartbeat id).toJson
      rw [hwf.connection_eq hmem hctx hx, hk] at hgrows
      exact hgrows.updateSession.congr fun k' => by simp only [Option.some.injEq]
  | call userName targetId | answer userName targetId | hangup userName targetId
  | iceCandidate userName targetId =>
      obtain ⟨n, rfl⟩ := hsent
      exact hrelay n rfl rfl
  | _ => exact hsent.elim

end

end Browser

end Mgws
