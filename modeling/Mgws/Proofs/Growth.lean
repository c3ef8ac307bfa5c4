import Mgws.Browser.World
import Mgws.Proofs.Broadcast
import Mgws.Proofs.Identity
import Mgws.Proofs.Relay
import Mgws.Proofs.Table
/-!
# What an action says to each connection

The texts queued for a connection only grow.  A request or a control frame adds none to any
connection, the end of a session and a new name add the directory, and a message of a peer
adds what its handler answers or hands on.
-/

namespace Mgws

open Lib Program

/-- `d` is `c` later on, when the texts `new` were queued.  A websocket that is past its
handshake stays one. -/
structure Connection.Grows (c d : Connection) (new : List Json) : Prop where
  wire : d.wire = c.wire
  inbox : d.inbox = c.inbox ++ new
  served : c.isOpen = true → c.pfn = .wsCb → d.isOpen = true ∧ d.pfn = .wsCb

/-- The connections of `s` are connections of `st`, and `new` was queued for them. -/
def Server.Grows (st s : Server) (new : ConnPtr → List Json) : Prop :=
  ∀ k d, s.conn? k = some d → ∃ c, st.conn? k = some c ∧ c.Grows d (new k)

def Server.Adds (st s : Server) (P : ConnPtr → Json → Prop) : Prop :=
  ∃ all, st.Grows s all ∧ ∀ k, ∀ j ∈ all k, P k j

abbrev Server.Mute (st s : Server) : Prop := st.Grows s fun _ => []

section

variable {st s t : Server} {k k' : ConnPtr} {p q : SessionPtr} {c d e : Connection}
  {new new' : List Json} {all all' : ConnPtr → List Json}

theorem Connection.Grows.refl (c : Connection) : c.Grows c [] :=
  ⟨rfl, (List.append_nil _).symm, fun hopen hpfn => ⟨hopen, hpfn⟩⟩

theorem Connection.Grows.trans (h : c.Grows d new) (h' : d.Grows e new') :
    c.Grows e (new ++ new') := by
  refine ⟨h'.wire.trans h.wire, ?_, fun hopen hpfn => ?_⟩
  · rw [h'.inbox, h.inbox, List.append_assoc]
  · obtain ⟨hopen', hpfn'⟩ := h.served hopen hpfn
    exact h'.served hopen' hpfn'

theorem Server.Mute.refl (st : Server) : st.Mute st := fun _ d hd => ⟨d, hd, .refl d⟩

theorem Server.Grows.trans (h : st.Grows t all) (h' : t.Grows s all') :
    st.Grows s fun k => all k ++ all' k := by
  intro k d hd
  obtain ⟨e, he, hgrows'⟩ := h' k d hd
  obtain ⟨c, hc, hgrows⟩ := h k e he
  exact ⟨c, hc, hgrows.trans hgrows'⟩

theorem Server.Grows.congr (h : st.Grows s all) (heq : ∀ k, all k = all' k) :
    st.Grows s all' := by
  obtain rfl : all = all' := funext heq
  exact h

theorem Server.Mute.adds {P : ConnPtr → Json → Prop} (h : st.Mute s) : st.Adds s P :=
  ⟨_, h, fun _ _ hj => absurd hj List.not_mem_nil⟩

theorem Server.Adds.mono {P Q : ConnPtr → Json → Prop} (h : st.Adds s P)
    (hPQ : ∀ k j, P k j → Q k j) : st.Adds s Q := by
  obtain ⟨all, hgrows, hall⟩ := h
  exact ⟨all, hgrows, fun k j hj => hPQ k j (hall k j hj)⟩

theorem Server.Adds.trans {P : ConnPtr → Json → Prop} (h : st.Adds t P) (h' : t.Adds s P) :
    st.Adds s P := by
  obtain ⟨all, hgrows, hall⟩ := h
  obtain ⟨all', hgrows', hall'⟩ := h'
  refine ⟨_, hgrows.trans hgrows', fun k j hj => ?_⟩
  rcases List.mem_append.mp hj with hj | hj
  · exact hall k j hj
  · exact hall' k j hj

/-! ## Writes -/

theorem Server.Grows.updateConn (h : st.Grows s all) {f : Connection → Connection}
    (hf : ∀ c, (f c).wire = c.wire) (hinbox : ∀ c, (f c).inbox = c.inbox)
    (hserved : ∀ c d, st.conn? k = some c → c.isOpen = true → c.pfn = .wsCb →
      d.isOpen = true → d.pfn = .wsCb → (f d).isOpen = true ∧ (f d).pfn = .wsCb) :
    st.Grows (s.updateConn k f) all := by
  intro k' d hd
  have hptr : ∀ c, (f c).ptr = c.ptr := fun c => congrArg Wire.ptr (hf c)
  rw [Server.conn?_updateConn hptr] at hd
  obtain ⟨d', hd', rfl⟩ := Option.map_eq_some_iff.mp hd
  obtain ⟨c, hc, hgrows⟩ := h k' d' hd'
  refine ⟨c, hc, ?_⟩
  split
  · next hk =>
      obtain rfl : k' = k := (Server.ptr_of_conn? hd').symm.trans hk
      refine ⟨(hf d').trans hgrows.wire, (hinbox d').trans hgrows.inbox, fun hopen hpfn => ?_⟩
      obtain ⟨hopen', hpfn'⟩ := hgrows.served hopen hpfn
      exact hserved c d' hc hopen hpfn hopen' hpfn'
  · exact hgrows

theorem inbox_queue (c : Connection) {frame : Frame} (hframe : frame.text? = none) :
    { c with send := c.send ++ [frame] }.inbox = c.inbox := by
  rw [Connection.inbox, List.filterMap_append]
  simp [Connection.inbox, hframe]

theorem Server.Grows.queue (h : st.Grows s all) {frame : Frame} (hframe : frame.text? = none) :
    st.Grows (s.queue k frame) all :=
  h.updateConn (fun _ => rfl) (fun c => inbox_queue c hframe) fun _ _ _ _ _ hopen hpfn =>
    ⟨hopen, hpfn⟩

theorem Server.Grows.of_conns (h : st.Grows s all) (hconns : t.conns = s.conns)
    (hdetached : t.detached = s.detached) : st.Grows t all := by
  intro k d hd
  rw [Server.conn?, Server.allocated, hconns, hdetached] at hd
  exact h k d hd

theorem inbox_receive (c : Connection) (n : Nat) (msg : Json) :
    (c.receive n msg).inbox = c.inbox ++ List.replicate n msg := by
  rw [Connection.inbox, Connection.receive, List.filterMap_append, List.filterMap_replicate_of_some]
  · rfl
  · rfl

variable (st) in
/-- The same text to a number of sessions. -/
theorem Server.grows_tells (ps : List SessionPtr) (msg : Json) :
    st.Grows (st.tells ps msg) fun k => List.replicate (st.hits ps k) msg := by
  intro k d hd
  rw [conn?_tells] at hd
  obtain ⟨c, hc, rfl⟩ := Option.map_eq_some_iff.mp hd
  rw [Server.ptr_of_conn? hc]
  exact ⟨c, hc, rfl, inbox_receive c _ msg, fun hopen hpfn => ⟨hopen, hpfn⟩⟩

theorem hits_singleton {x : Session} (hx : st.heap p = some x) (k : ConnPtr) :
    st.hits [p] k = if x.connection = k then 1 else 0 := by
  have howner := Server.owner_of_heap hx
  by_cases hk : x.connection = k
  · simp [Server.hits, howner, hk]
  · simp [Server.hits, howner, hk]

theorem Server.grows_tell {x : Session} (hx : st.heap p = some x) (msg : Json) :
    st.Grows (st.tell p msg) fun k => if x.connection = k then [msg] else [] := by
  refine (st.grows_tells [p] msg).congr fun k => ?_
  rw [hits_singleton hx]
  split <;> rfl

/-! ## Programs that queue no text -/

theorem mute_setConn {f : Connection → Connection} (hf : ∀ c, (f c).wire = c.wire)
    (hinbox : ∀ c, (f c).inbox = c.inbox)
    (hserved : ∀ c d, st.conn? k = some c → c.isOpen = true → c.pfn = .wsCb →
      d.isOpen = true → d.pfn = .wsCb → (f d).isOpen = true ∧ (f d).pfn = .wsCb) :
    Preserves (st.Mute ·) (setConn k f) :=
  .modify fun _ hs => hs.updateConn hf hinbox hserved

theorem mute_mgWsSend {frame : Frame} (hframe : frame.text? = none) :
    Preserves (st.Mute ·) (mgWsSend k frame) :=
  .modify fun _ hs => hs.queue hframe

/-- The connection is no websocket past its handshake. -/
def Server.Unserved (st : Server) (k : ConnPtr) : Prop :=
  ∀ c, st.conn? k = some c → c.isOpen = true → c.pfn ≠ .wsCb

theorem mute_setConn_unserved (h : st.Unserved k) {f : Connection → Connection}
    (hf : ∀ c, (f c).wire = c.wire) (hinbox : ∀ c, (f c).inbox = c.inbox) :
    Preserves (st.Mute ·) (setConn k f) :=
  mute_setConn hf hinbox fun c _ hc hopen hpfn => absurd hpfn (h c hc hopen)

theorem mute_mgError_unserved (h : st.Unserved k) : Preserves (st.Mute ·) (mgError k) := by
  refine Preserves.bind ?_ fun _ => preserves_mgNotify k
  exact mute_setConn_unserved h (fun _ => rfl) fun _ => rfl

theorem mute_mgHttpReply (h : st.Unserved k) (status : Nat) :
    Preserves (st.Mute ·) (mgHttpReply k status) :=
  (mute_mgWsSend rfl).bind fun _ => mute_setConn_unserved h (fun _ => rfl) fun _ => rfl

theorem mute_mgHttpServeDir (h : st.Unserved k) (served : Served) :
    Preserves (st.Mute ·) (mgHttpServeDir k served) := by
  cases served with
  | reply status => exact mute_mgHttpReply h status
  | head status =>
      exact (mute_mgHttpReply h status).bind fun _ =>
        mute_setConn_unserved h (fun _ => rfl) fun _ => rfl
  | file status =>
      exact (mute_mgWsSend rfl).bind fun _ =>
        mute_setConn_unserved h (fun _ => rfl) fun _ => rfl

theorem mute_httpCb [Nlohmann] (h : st.Unserved k) {turns : List HttpTurn}
    (hturns : turns.all HttpTurn.isPlain) : Preserves (st.Mute ·) (httpCb k turns) := by
  induction turns with
  | nil => exact .pure _
  | cons turn turns ih =>
      obtain ⟨hturn, hrest⟩ : turn.isPlain ∧ turns.all HttpTurn.isPlain := by
        simpa using hturns
      refine Preserves.read.bind fun st' => ?_
      split
      · exact .pure _
      · cases turn with
        | malformed => exact mute_mgError_unserved h
        | message hm =>
            have hcall : Preserves (st.Mute ·) (mgCall k (.httpMsg hm)) := by
              refine preserves_mgCall_of_fn fun _ => ?_
              cases hm with
              | websock => cases hturn
              | other served => exact mute_mgHttpServeDir h served
            have hmark : Preserves (st.Mute ·) (setConn k fun c => { c with isResp := true }) :=
              mute_setConn_unserved h (fun _ => rfl) fun _ => rfl
            exact hmark.bind fun _ => hcall.bind fun _ => ih hrest

/-! ## Actions that are about nobody's messages -/

theorem Server.Grows.updateSession (h : st.Grows s all) {f : Session → Session} :
    st.Grows (s.updateSession p f) all :=
  h.of_conns rfl rfl

/-- `OnTimerEvent` sends a PING or marks the connection. -/
theorem Server.Grows.probe (h : st.Grows s all) (ms : Int) : st.Grows (s.probe p ms) all := by
  rw [Server.probe]
  cases s.heap p with
  | none => exact h
  | some x =>
      simp only [Option.elim]
      split
      · have hmark : st.Grows (s.updateConn x.connection fun c => { c with isClosing := true })
            all :=
          h.updateConn (fun _ => rfl) (fun _ => rfl) fun _ _ _ _ _ hopen hpfn => ⟨hopen, hpfn⟩
        exact hmark.of_conns rfl rfl
      · exact (h.queue rfl).updateSession

theorem Server.Grows.probes (h : st.Grows s all) (ps : List SessionPtr) (ms : Int) :
    st.Grows (s.probes ps ms) all := by
  induction ps generalizing s with
  | nil => exact h
  | cons p ps ih => exact ih (h.probe ms)

theorem Preserves.of_run {α : Type} {I : Server → Prop} {x : Cpp α} {a : α}
    (h : Preserves I x) (hst : I st) (hrun : x.run st = .ret a s) : I s := by
  have hend := h st hst
  rwa [hrun] at hend

theorem mute_onConn {test : Connection → Bool} {x : Cpp Unit}
    (hx : (∃ c, st.conn? k = some c ∧ test c = true) → Preserves (st.Mute ·) x)
    (hrun : (onConn k test x).run st = .ret () s) : st.Mute s := by
  rw [onConn, bind_of_ret (run_get st)] at hrun
  cases hc : st.conn? k with
  | none =>
      rw [hc] at hrun
      cases hrun
      exact .refl st
  | some c =>
      rw [hc, Option.any_some] at hrun
      split at hrun
      · next htest => exact Preserves.of_run (hx ⟨c, hc, htest⟩) (.refl st) hrun
      · cases hrun
        exact .refl st

theorem step_accept_mute [Nlohmann] {tlsOk : Bool} (h : step st (.accept tlsOk) = .ok s) :
    st.Mute s ∨ st.accept.Mute s := by
  have hrun := run_of_step h
  rw [perform, bind_of_ret (run_get st)] at hrun
  split at hrun
  swap
  · cases hrun
    exact .inl (.refl st)
  right
  have hconn : st.accept.conn? (st.nextid + 1) = some _ := List.find?_cons_of_pos (by simp)
  have hunserved : st.accept.Unserved (st.nextid + 1) := by
    intro c hc _ hpfn
    rw [hconn] at hc
    cases hc
    cases hpfn
  have hcall : Preserves (st.accept.Mute ·) (mgCall (st.nextid + 1) (.accept tlsOk)) := by
    refine preserves_mgCall_of_fn fun _ => ?_
    cases tlsOk with
    | true => exact mute_setConn_unserved hunserved (fun _ => rfl) fun _ => rfl
    | false => exact mute_mgError_unserved hunserved
  exact Preserves.of_run hcall (.refl _) hrun

/-! ## The end of a connection -/

variable (st) in
def Server.Hears (k : ConnPtr) : Prop := ∃ c ∈ st.wiring.conns, c.ptr = k ∧ c.attached.isSome

variable (st) in
/-- `j` is a directory of websockets of `st` that lead to a session, for one that does. -/
def Server.Lists (k : ConnPtr) (j : Json) : Prop :=
  st.Hears k ∧ ∃ es : List (Nat × String),
    j = directoryMsg (es.map fun e => SessionManager.entry e.1 e.2) ∧ es ≠ [] ∧
    ∀ e ∈ es, ∃ k', st.Hears k' ∧ e.1 = sessionId k'

theorem hears_of_mem {c : Connection} (hc : c ∈ st.conns) (hattached : c.attached = some p) :
    st.Hears c.ptr :=
  ⟨c.wire, List.mem_map_of_mem hc, rfl, by rw [Connection.attached_wire, hattached]; rfl⟩

theorem lists_of_hits (hwf : st.Wf) (hall : ∀ p ∈ st.reached, st.Valid p) {j : Json}
    (hj : j ∈ List.replicate (st.hits st.reached k) (directoryMsg st.listing)) :
    st.Lists k j := by
  have hhears : ∀ p ∈ st.reached, ∃ c ∈ st.conns, c.attached = some p ∧
      st.idOf p = sessionId c.ptr ∧ st.wiring.owner p = some c.ptr := by
    intro p hp
    obtain ⟨c, hc, hattached⟩ := mem_walk hp
    have hctx := Connection.fnData_of_attached hattached
    obtain ⟨x, hx, -⟩ := hall p hp
    refine ⟨c, hc, hattached, idOf_eq hwf hc hctx (hall p hp), ?_⟩
    rw [Server.owner_of_heap hx, hwf.connection_eq hc hctx hx]
  obtain ⟨hhits, rfl⟩ := List.mem_replicate.mp hj
  obtain ⟨p, hp, howner⟩ := List.countP_pos_iff.mp (Nat.pos_of_ne_zero hhits)
  obtain ⟨c, hc, hattached, -, hptr⟩ := hhears p hp
  rw [hptr, decide_eq_true_eq, Option.some.injEq] at howner
  refine ⟨howner ▸ hears_of_mem hc hattached,
    st.reached.map fun p => (st.idOf p, st.nameOf p), ?_, ?_, ?_⟩
  · rw [Server.listing, List.map_map]
    rfl
  · exact fun hnil => List.ne_nil_of_mem hp (List.map_eq_nil_iff.mp hnil)
  · intro e he
    obtain ⟨q, hq, rfl⟩ := List.mem_map.mp he
    obtain ⟨d, hd, hattached, hid, -⟩ := hhears q hq
    exact ⟨d.ptr, hears_of_mem hd hattached, hid⟩

theorem Server.Hears.of_subset (h : s.Hears k)
    (hsub : ∀ c ∈ s.wiring.conns, c ∈ st.wiring.conns) : st.Hears k := by
  obtain ⟨c, hc, hheard⟩ := h
  exact ⟨c, hsub c hc, hheard⟩

theorem Server.Lists.of_subset {j : Json} (h : s.Lists k j)
    (hsub : ∀ c ∈ s.wiring.conns, c ∈ st.wiring.conns) : st.Lists k j := by
  obtain ⟨hk, es, hj, hne, hes⟩ := h
  refine ⟨hk.of_subset hsub, es, hj, hne, fun e he => ?_⟩
  obtain ⟨k', hk', hid⟩ := hes e he
  exact ⟨k', hk'.of_subset hsub, hid⟩

theorem mute_unlink (hwf : st.Wf) (hdetached : st.detached = none) (k : ConnPtr) :
    st.Mute (st.unlink k) := by
  intro k' d hd
  have hmem : d ∈ st.conns := by
    rcases List.mem_append.mp (Server.mem_allocated_of_conn? hd) with hold | hgone
    · exact (List.mem_filter.mp hold).1
    · exact Server.mem_conns_of_conn? hdetached (Option.mem_toList.mp hgone)
  have hptr := Server.ptr_of_conn? hd
  exact ⟨d, hptr ▸ hwf.conn?_of_mem hmem, .refl d⟩

theorem mute_free (st : Server) : st.Mute st.free := by
  intro k d hd
  have hallocated : st.free.allocated = st.conns := List.append_nil _
  rw [Server.conn?, hallocated] at hd
  refine ⟨d, ?_, .refl d⟩
  rw [Server.conn?, Server.allocated, List.find?_append, hd]
  rfl

/-- The end of a session is told to the others. -/
theorem Closes.adds (h : Closes st c s) (hwf : st.Wf) (hdetached : st.detached = none) :
    st.Adds s st.Lists := by
  have hunlink := mute_unlink hwf hdetached c.ptr
  cases h with
  | plain => exact hunlink.adds
  | @session p hctx hvalid hall =>
      have hdelete : st.Mute ((st.unlink c.ptr).delete p) := hunlink.of_conns rfl rfl
      refine ⟨_, hdelete.trans (Server.grows_tells _ _ _), fun k j hj => ?_⟩
      rw [List.nil_append] at hj
      refine (lists_of_hits (hwf.left c p) hall hj).of_subset fun w hw => ?_
      obtain ⟨d, hd, rfl⟩ := List.mem_map.mp hw
      exact List.mem_map_of_mem (List.mem_filter.mp hd).1

theorem mute_pfnClose [Nlohmann] (hc : st.conn? k = some c) {turns : List HttpTurn}
    (hturns : turns.all HttpTurn.isPlain) (hrun : (pfnClose k turns).run st = .ret () s) :
    st.Mute s := by
  have hunserved : c.pfn ≠ .wsCb → st.Unserved k := by
    intro hpfn c' hc' _
    rw [hc] at hc'
    cases hc'
    exact hpfn
  rw [pfnClose, bind_of_ret (run_get st), hc, Option.map_some] at hrun
  cases hpfn : c.pfn with
  | httpCb =>
      rw [hpfn] at hrun hunserved
      exact Preserves.of_run (mute_httpCb (hunserved (by decide)) hturns) (.refl st) hrun
  | staticCb =>
      rw [hpfn] at hrun hunserved
      have hset : Preserves (st.Mute ·) (restoreHttpCb k) :=
        mute_setConn_unserved (hunserved (by decide)) (fun _ => rfl) fun _ => rfl
      exact Preserves.of_run hset (.refl st) hrun
  | wsCb =>
      rw [hpfn] at hrun
      cases hrun
      exact .refl st

theorem mgCloseConn_adds [Nlohmann] {turns : List HttpTurn} (hwf : st.Wf)
    (hdetached : st.detached = none) (hc : st.conn? k = some c)
    (hturns : turns.all HttpTurn.isPlain) (hrun : (mgCloseConn k turns).run st = .ret () s) :
    st.Adds s st.Lists := by
  have hunlink : (modify fun st : Server =>
      { st with
        conns := st.conns.filter fun c => c.ptr ≠ k
        detached := st.conn? k } : Cpp Unit).run st = .ret () (st.unlink k) := rfl
  rw [mgCloseConn, bind_of_ret hunlink] at hrun
  rcases close_run hwf hdetached hc with
    ⟨t, c', hclose, hcloses, -, hc', -, -⟩ | ⟨f, hclose, -⟩
  swap
  · rw [bind_of_fault hclose] at hrun
    cases hrun
  rw [bind_of_ret hclose] at hrun
  cases hpfn : (pfnClose k turns).run t with
  | throw e u =>
      rw [bind_of_throw hpfn] at hrun
      cases hrun
  | fault f =>
      rw [bind_of_fault hpfn] at hrun
      cases hrun
  | ret _ u =>
      rw [bind_of_ret hpfn] at hrun
      cases hrun
      exact (hcloses.adds hwf hdetached).trans
        ((mute_pfnClose hc' hturns hpfn).adds.trans (mute_free u).adds)

/-- An action that delivers no message and asks for no session says the directory or nothing.
A connection that is accepted starts without texts. -/
theorem step_adds [Nlohmann] {a : Action} (hwf : st.Wf) (hdetached : st.detached = none)
    (ha : a.isPlain) (h : step st a = .ok s) :
    ∃ t, (t = st ∨ t = st.accept) ∧ t.Adds s st.Lists := by
  have hrun := run_of_step h
  cases a with
  | accept tlsOk =>
      rcases step_accept_mute h with hmute | hmute
      · exact ⟨st, .inl rfl, hmute.adds⟩
      · exact ⟨st.accept, .inr rfl, hmute.adds⟩
  | handshake k ok =>
      refine ⟨st, .inl rfl, (mute_onConn (fun hconn => ?_) hrun).adds⟩
      obtain ⟨c, hc, htls⟩ := hconn
      have hunserved : st.Unserved k := by
        intro c' hc' hopen
        rw [hc] at hc'
        cases hc'
        simp [Connection.isOpen, htls] at hopen
      cases ok with
      | true =>
          refine Preserves.bind ?_ fun _ => preserves_mgNotify k
          exact mute_setConn_unserved hunserved (fun _ => rfl) fun _ => rfl
      | false => exact mute_mgError_unserved hunserved
  | http k turns =>
      refine ⟨st, .inl rfl, (mute_onConn (fun hconn => mute_httpCb ?_ ha) hrun).adds⟩
      obtain ⟨c, hc, htest⟩ := hconn
      intro c' hc' _ hpfn
      rw [hc] at hc'
      cases hc'
      simp [hpfn] at htest
  | fileDone k =>
      refine ⟨st, .inl rfl, (mute_onConn (fun hconn => ?_) hrun).adds⟩
      obtain ⟨c, hc, htest⟩ := hconn
      have hunserved : st.Unserved k := by
        intro c' hc' _ hpfn
        rw [hc] at hc'
        cases hc'
        simp [hpfn] at htest
      exact mute_setConn_unserved hunserved (fun _ => rfl) fun _ => rfl
  | ws k frame => cases ha
  | tick =>
      rw [perform, bind_of_ret (run_get st)] at hrun
      rcases st.reached_valid_or with hall | ⟨p, hp, hinvalid⟩
      · rw [timerEvent_run hall] at hrun
        cases hrun
        exact ⟨st, .inl rfl, Server.Mute.adds ((Server.Mute.refl st).probes _ _)⟩
      · obtain ⟨f, hf⟩ := timerEvent_fault hp hinvalid st.now
        rw [hf] at hrun
        cases hrun
  | clock now =>
      have hclock : Preserves (st.Mute ·) (perform (.clock now)) := by
        refine .modify fun t ht => ?_
        split
        · exact ht.of_conns rfl rfl
        · exact ht
      exact ⟨st, .inl rfl, (Preserves.of_run hclock (.refl st) hrun).adds⟩
  | drained k | error k =>
      refine ⟨st, .inl rfl, (mute_onConn (fun _ => ?_) hrun).adds⟩
      exact mute_setConn (fun _ => rfl) (fun _ => rfl) fun _ _ _ _ _ hopen hpfn => ⟨hopen, hpfn⟩
  | notify k =>
      have hmute := Preserves.of_run (preserves_mgNotify k) (Server.Mute.refl st) hrun
      exact ⟨st, .inl rfl, hmute.adds⟩
  | close k turns =>
      refine ⟨st, .inl rfl, ?_⟩
      rw [perform, onConn, bind_of_ret (run_get st)] at hrun
      cases hc : st.conn? k with
      | none =>
          rw [hc] at hrun
          cases hrun
          exact (Server.Mute.refl st).adds
      | some c =>
          rw [hc, Option.any_some] at hrun
          split at hrun
          swap
          · cases hrun
            exact (Server.Mute.refl st).adds
          rw [bind_of_ret (run_get st)] at hrun
          refine mgCloseConn_adds hwf hdetached hc ?_ hrun
          split
          · exact ha
          · rfl

/-! ## Frames that are no data -/

theorem mute_onControlMessage (flags : UInt8) :
    Preserves (st.Mute ·) (Session.onControlMessage p flags) := by
  have hderef : Preserves (st.Mute ·) (deref p) := by
    refine Preserves.read.bind fun t => ?_
    cases t.heap p with
    | none => exact .abort _
    | some x =>
        cases hc : t.conn? x.connection with
        | none => simpa only [hc] using .abort _
        | some c => simpa only [hc] using .pure _
  refine hderef.bind fun _ => ?_
  split
  · exact .modify fun _ ht => ht.updateSession
  · exact .pure _

theorem step_control_adds [Nlohmann] {frame : WsFrame} (hop : 2 < frame.op.toNat)
    (h : step st (.ws k frame) = .ok s) : st.Mute s := by
  have hctl : Preserves (st.Mute ·) (mgCall k (.wsCtl frame.flags)) := by
    refine preserves_mgCall_of_fn fun ctx => ?_
    cases ctx with
    | manager => exact .pure _
    | session p => exact mute_onControlMessage _
  have hset : ∀ {f : Connection → Connection}, (∀ c, (f c).wire = c.wire) →
      (∀ c, (f c).inbox = c.inbox) → (∀ c, (f c).isOpen = c.isOpen) → (∀ c, (f c).pfn = c.pfn) →
      Preserves (st.Mute ·) (setConn k f) := fun hf hinbox hopen hpfn =>
    mute_setConn hf hinbox fun _ d _ _ _ hd hpfn' => ⟨(hopen d).trans hd, (hpfn d).trans hpfn'⟩
  have hwsOp : Preserves (st.Mute ·) (wsOp k frame) := by
    unfold wsOp
    split
    · exact hctl
    · exact (mute_mgWsSend rfl).bind fun _ => hctl
    · exact hctl
    · next heq => omega
    · next heq => omega
    · exact hctl.bind fun _ => (mute_mgWsSend rfl).bind fun _ =>
        hset (fun _ => rfl) (fun _ => rfl) (fun _ => rfl) fun _ => rfl
    · refine Preserves.bind ?_ fun _ => preserves_mgNotify k
      exact hset (fun _ => rfl) (fun _ => rfl) (fun _ => rfl) fun _ => rfl
  have hne : frame.op ≠ 0 := by
    intro hzero
    rw [hzero] at hop
    exact absurd hop (by decide)
  have hkeep : Preserves (st.Mute ·) (keepFragment k frame) := by
    unfold keepFragment
    split
    · exact hset (fun _ => rfl) (fun _ => rfl) (fun _ => rfl) fun _ => rfl
    · exact .pure _
  refine mute_onConn (fun _ => ?_) (run_of_step h)
  rw [mgWsCb, endFragments_of_ne hne]
  exact hwsOp.bind fun _ => hkeep.bind fun _ => .pure _

/-! ## A new session -/

structure Joined (st : Server) (k : ConnPtr) (s : Server) : Prop where
  self : ∃ c d, st.conn? k = some c ∧ s.conn? k = some d ∧ d.wire.attached.isSome ∧
    d.inbox = c.inbox ++ [sessionIdMsg (sessionId k)] ∧ d.isOpen = true ∧ d.pfn = .wsCb
  others : ∀ k' ≠ k, ∀ d, s.conn? k' = some d → ∃ c, st.conn? k' = some c ∧ c.Grows d []

theorem conn?_updateConn_ne {f : Connection → Connection} (hf : ∀ c, (f c).ptr = c.ptr)
    (hne : k' ≠ k) : (st.updateConn k f).conn? k' = st.conn? k' := by
  rw [Server.conn?_updateConn hf]
  cases hc : st.conn? k' with
  | none => rfl
  | some c =>
      have hptr : c.ptr ≠ k := fun heq => hne ((Server.ptr_of_conn? hc).symm.trans heq)
      rw [Option.map_some, if_neg hptr]

theorem conn?_created (hc : st.conn? k = some c) :
    ((st.upgrade k true).create k).conn? k = some { c with
      pfn := .wsCb, frag := [], send := c.send ++ [.http 101], isWebsocket := true,
      isResp := false, fnData := .session st.nextSession } := by
  have hcreate : ((st.upgrade k true).create k).conn? k =
      ((st.upgrade k true).updateConn k fun c =>
        { c with fnData := .session (st.upgrade k true).nextSession }).conn? k := rfl
  rw [hcreate, Server.nextSession_upgrade, Server.conn?_updateConn_self, Server.upgrade, if_pos rfl,
    Server.conn?_updateConn_self, Server.queue, Server.conn?_updateConn_self,
    Server.conn?_updateConn_self, hc]
  · rfl
  all_goals exact fun _ => rfl

theorem conn?_created_ne (hne : k' ≠ k) :
    ((st.upgrade k true).create k).conn? k' = st.conn? k' := by
  have hcreate : ((st.upgrade k true).create k).conn? k' =
      ((st.upgrade k true).updateConn k fun c =>
        { c with fnData := .session (st.upgrade k true).nextSession }).conn? k' := rfl
  rw [hcreate, conn?_updateConn_ne _ hne, Server.upgrade, if_pos rfl, conn?_updateConn_ne _ hne,
    Server.queue, conn?_updateConn_ne _ hne, conn?_updateConn_ne _ hne]
  all_goals exact fun _ => rfl

theorem step_joined [Nlohmann] (hc : st.conn? k = some c) (hopen : c.isOpen = true)
    (hpfn : c.pfn = .httpCb) (hresp : c.isResp = false)
    (h : step st (.http k [.message (.websock true .returns)]) = .ok s) : Joined st k s := by
  have hlive : st.Live c.fnData := by
    rcases Server.live_or_stale hc with hlive | ⟨p, hstale⟩
    · exact hlive
    · have hrun := run_of_step h
      rw [perform, onConn_run hc (by simp [hopen, hpfn]),
        httpCb_stale hstale (by simp [hc, hresp])] at hrun
      cases hrun
  rw [step_websock hc hopen hpfn hresp hlive] at h
  obtain ⟨t, ht⟩ : ∃ t, t = st.updateConn k fun c => { c with isResp := true } := ⟨_, rfl⟩
  have htc : t.conn? k = some { c with isResp := true } := by
    rw [ht, Server.conn?_updateConn_self, hc]
    · rfl
    · exact fun _ => rfl
  have hheap : ((t.upgrade k true).create k).heap t.nextSession =
      some (Peer.create k (t.upgrade k true).now) := by
    simp [Server.create, Server.nextSession_upgrade]
  rw [← ht, Server.websock] at h
  have hgrows := Server.grows_tell hheap (sessionIdMsg (sessionId k))
  injection h with h
  rw [h] at hgrows
  constructor
  · obtain ⟨d, hd⟩ : ∃ d, s.conn? k = some d := by
      refine Option.isSome_iff_exists.mp ?_
      rw [← h, conn?_tell, Option.isSome_map, conn?_created htc]
      rfl
    obtain ⟨c', hc', hcd⟩ := hgrows k d hd
    rw [conn?_created htc] at hc'
    cases hc'
    obtain ⟨hopen', hpfn'⟩ := hcd.served hopen rfl
    refine ⟨c, d, hc, hd, ?_, ?_, hopen', hpfn'⟩
    · rw [hcd.wire]
      rfl
    · have hcreated : Connection.inbox { c with send := c.send ++ [.http 101] } = c.inbox :=
        inbox_queue c rfl
      rw [hcd.inbox, ← hcreated]
      exact congrArg (_ ++ ·) (if_pos rfl)
  · intro k' hne d hd
    obtain ⟨c', hc', hcd⟩ := hgrows k' d hd
    have hsame : t.conn? k' = st.conn? k' := by
      rw [ht]
      exact conn?_updateConn_ne (fun _ => rfl) hne
    rw [conn?_created_ne hne, hsame] at hc'
    have hself : (Peer.create k (t.upgrade k true).now).connection ≠ k' := Ne.symm hne
    simp only [hself, if_false] at hcd
    exact ⟨c', hc', hcd⟩

end

end Mgws
