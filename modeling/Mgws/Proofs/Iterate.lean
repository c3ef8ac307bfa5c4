import Mgws.Proofs.Memory
/-!
# What enumeration computes

`Iterate` runs its callback on `reached`, the sessions in front of the first
connection that is no websocket or has no session.  While every pointer it
reaches is valid, a lookup is the last match, a broadcast is one frame to each
session reached, and a timer event is one probe of each; otherwise the loop
faults.
-/

namespace Mgws

open Lib Program

/-! ## The loop -/

theorem iterateFrom_eq {β : Type} (fn : β → SessionPtr → Cpp β) (cs : List Connection)
    (acc : β) :
    SessionManager.iterateFrom fn cs acc = (walk Connection.attached cs).foldlM fn acc := by
  induction cs generalizing acc with
  | nil => rfl
  | cons c cs ih =>
      rw [SessionManager.iterateFrom]
      cases hws : c.isWebsocket with
      | false => rw [walk_cons_none (by simp [Connection.attached, hws])]; rfl
      | true =>
          cases hctx : c.fnData.userData with
          | none => rw [walk_cons_none (by simp [Connection.attached, hws, hctx])]; rfl
          | some session =>
              rw [walk_cons_some (b := session) (by simp [Connection.attached, hws, hctx]),
                List.foldlM_cons]
              simp only [Bool.not_true, Bool.false_eq_true, if_false]
              congr 1
              exact funext fun acc => ih acc

theorem iterate_run {β : Type} (fn : β → SessionPtr → Cpp β) (acc : β) (st : Server) :
    (SessionManager.iterate fn acc).run st = (st.reached.foldlM fn acc).run st := by
  rw [SessionManager.iterate, run_bind, run_get]
  simp only [iterateFrom_eq, Server.reached]

namespace Server

variable (st : Server)

def idOf (p : SessionPtr) : Nat := (st.heap p).elim 0 fun s => sessionId s.connection

def nameOf (p : SessionPtr) : String := (st.heap p).elim "" (·.userName)

def tell (p : SessionPtr) (msg : Json) : Server :=
  (st.heap p).elim st fun s => st.queue s.connection (.text msg)

def probe (p : SessionPtr) (ms : Int) : Server :=
  (st.heap p).elim st fun s =>
    if Session.maxHeartbeatSkips < ms - s.lastPongTime then
      { (st.updateConn s.connection fun c => { c with isClosing := true }).updateSession p
          fun s => { s with ticks := s.ticks + 1 } with
        vanished := st.vanished ++ [(p, s.pings)] }
    else
      (st.queue s.connection (.ping Session.heartbeatPayload)).updateSession p
        fun s => { s with pings := s.pings + 1, ticks := s.ticks + 1 }

def listing : List Json :=
  st.reached.map fun p => SessionManager.entry (st.idOf p) (st.nameOf p)

end Server

def directoryMsg : List Json → Json
  | [] => .obj [("type", .str "SessionsChanged")]
  | entries => .obj [("type", .str "SessionsChanged"), ("sessions", .arr entries)]

def Server.tells (st : Server) (ps : List SessionPtr) (msg : Json) : Server :=
  ps.foldl (fun t p => t.tell p msg) st

def Server.probes (st : Server) (ps : List SessionPtr) (ms : Int) : Server :=
  ps.foldl (fun t p => t.probe p ms) st

def Server.broadcast (st : Server) : Server :=
  st.tells st.reached (directoryMsg st.listing)

section

variable {st : Server} {p q : SessionPtr}

theorem idOf_congr {st' : Server} (h : st'.wiring = st.wiring) : st'.idOf p = st.idOf p := by
  have hid : ∀ s : Server, s.idOf p = (s.wiring.owner p).elim 0 sessionId := by
    intro s
    show (s.heap p).elim 0 _ = ((s.heap p).map _).elim 0 _
    cases s.heap p <;> rfl
  rw [hid, h, hid]

/-! ## Member functions of a valid session -/

theorem getId_run (h : st.Valid p) : (Session.getId p).run st = .ret (st.idOf p) st := by
  obtain ⟨s, c, hs, hc, hrun⟩ := deref_valid h
  rw [Session.getId, bind_of_ret hrun, run_pure, Server.idOf, hs, Option.elim, sessionId,
    Connection.id, Server.ptr_of_conn? hc]

theorem getUserName_run (h : st.Valid p) :
    (Session.getUserName p).run st = .ret (st.nameOf p) st := by
  obtain ⟨s, c, hs, -, hrun⟩ := deref_valid h
  rw [Session.getUserName, bind_of_ret hrun, run_pure, Server.nameOf, hs, Option.elim]

theorem send_run (h : st.Valid p) (msg : Json) :
    (Session.send p msg).run st = .ret () (st.tell p msg) := by
  obtain ⟨s, c, hs, -, hrun⟩ := deref_valid h
  rw [Session.send, bind_of_ret hrun, Server.tell, hs]
  rfl

theorem onTimerEvent_run (h : st.Valid p) (ms : Int) :
    (Session.onTimerEvent p ms).run st = .ret () (st.probe p ms) := by
  obtain ⟨s, c, hs, -, hrun⟩ := deref_valid h
  rw [Session.onTimerEvent, bind_of_ret hrun, Server.probe, hs]
  simp only [Option.elim]
  split <;> rfl

theorem bind_deref_fault {α : Type} (h : ¬st.Valid p) (x : Session × Connection → Cpp α) :
    ∃ f, (deref p >>= x).run st = .fault f := by
  rcases deref_not_valid h with hf | hf
  · exact ⟨_, bind_of_fault hf⟩
  · exact ⟨_, bind_of_fault hf⟩

theorem getId_fault (h : ¬st.Valid p) : ∃ f, (Session.getId p).run st = .fault f :=
  bind_deref_fault h _

theorem send_fault (h : ¬st.Valid p) (msg : Json) :
    ∃ f, (Session.send p msg).run st = .fault f :=
  bind_deref_fault h _

theorem onTimerEvent_fault (h : ¬st.Valid p) (ms : Int) :
    ∃ f, (Session.onTimerEvent p ms).run st = .fault f :=
  bind_deref_fault h _

/-! ## What they write -/

theorem heap_tell (msg : Json) : (st.tell p msg).heap = st.heap := by
  rw [Server.tell]
  cases st.heap p <;> rfl

theorem wiring_tell (msg : Json) : (st.tell p msg).wiring = st.wiring := by
  rw [Server.tell]
  cases st.heap p with
  | none => rfl
  | some s => exact Server.wiring_queue _

theorem wiring_probe (ms : Int) : (st.probe p ms).wiring = st.wiring := by
  rw [Server.probe]
  cases st.heap p with
  | none => rfl
  | some s =>
      simp only [Option.elim]
      split
      · show ((st.updateConn s.connection _).updateSession p _).wiring = st.wiring
        rw [Server.wiring_updateSession, Server.wiring_updateConn] <;> exact fun _ => rfl
      · rw [Server.wiring_updateSession, Server.wiring_queue]
        exact fun _ => rfl

/-! ## Lookup -/

theorem getSessionById_run (h : ∀ p ∈ st.reached, st.Valid p) (sessId : Nat) :
    (SessionManager.getSessionById sessId).run st =
      .ret (lastMatch (fun p => st.idOf p = sessId) st.reached) st := by
  rw [SessionManager.getSessionById, iterate_run, lastMatch]
  refine foldlM_of_read (r := id) st.reached none fun found p hp => ?_
  rw [bind_of_ret (getId_run (h p hp)), run_pure]
  simp

theorem getSessionById_fault (hp : p ∈ st.reached) (h : ¬st.Valid p) (sessId : Nat) :
    ∃ f, (SessionManager.getSessionById sessId).run st = .fault f := by
  rw [SessionManager.getSessionById, iterate_run]
  refine foldlM_of_fault (I := fun _ s => s = st) st.reached rfl ?_ ⟨p, hp, ?_⟩
  · rintro found t rfl q -
    by_cases hq : t.Valid q
    · exact .inl ⟨_, _, bind_of_ret (getId_run hq), rfl⟩
    · obtain ⟨f, hf⟩ := getId_fault hq
      exact .inr ⟨f, bind_of_fault hf⟩
  · rintro found _ rfl
    obtain ⟨f, hf⟩ := getId_fault h
    exact ⟨f, bind_of_fault hf⟩

/-! ## Broadcast -/

theorem pushTo_directoryMsg (entries : List Json) (v : Json) :
    (directoryMsg entries).pushTo "sessions" v = .ok (directoryMsg (entries ++ [v])) := by
  cases entries <;> rfl

theorem list_run (h : st.Valid p) (entries : List Json) :
    (SessionManager.list (directoryMsg entries) p).run st =
      .ret (directoryMsg (entries ++ [SessionManager.entry (st.idOf p) (st.nameOf p)])) st := by
  rw [SessionManager.list, bind_of_ret (getId_run h), bind_of_ret (getUserName_run h),
    pushTo_directoryMsg]
  rfl

/-- The first loop of a broadcast builds the message. -/
theorem listing_run (h : ∀ p ∈ st.reached, st.Valid p) :
    (SessionManager.iterate SessionManager.list (directoryMsg [])).run st =
      .ret (directoryMsg st.listing) st := by
  rw [iterate_run]
  have hloop := foldlM_of_read (r := directoryMsg) st.reached []
    fun entries p hp => list_run (h p hp) entries
  rwa [List.foldl_append_eq_append, List.nil_append, ← List.flatMap_def,
    ← List.map_eq_flatMap] at hloop

theorem listing_fault (hp : p ∈ st.reached) (h : ¬st.Valid p) :
    ∃ f, (SessionManager.iterate SessionManager.list (directoryMsg [])).run st = .fault f := by
  rw [iterate_run]
  refine foldlM_of_fault (I := fun msg s => s = st ∧ ∃ entries, msg = directoryMsg entries)
    st.reached ⟨rfl, [], rfl⟩ ?_ ⟨p, hp, ?_⟩
  · rintro _ t ⟨rfl, entries, rfl⟩ q -
    by_cases hq : t.Valid q
    · exact .inl ⟨_, _, list_run hq entries, rfl, _, rfl⟩
    · obtain ⟨f, hf⟩ := getId_fault hq
      exact .inr ⟨f, bind_of_fault hf⟩
  · rintro _ t ⟨rfl, entries, rfl⟩
    obtain ⟨f, hf⟩ := getId_fault h
    exact ⟨f, bind_of_fault hf⟩

theorem updateSessionsList_run (h : ∀ p ∈ st.reached, st.Valid p) :
    SessionManager.updateSessionsList.run st = .ret () st.broadcast := by
  refine (bind_of_ret (listing_run h)).trans ?_
  rw [iterate_run]
  refine foldlM_of_write (I := fun s => ∀ p ∈ st.reached, s.Valid p) st.reached h ?_
  intro s hs p hp
  exact ⟨send_run (hs p hp) _, fun q hq =>
    (Server.valid_congr (wiring_tell _)).mpr (hs q hq)⟩

theorem updateSessionsList_fault (hp : p ∈ st.reached) (h : ¬st.Valid p) :
    ∃ f, SessionManager.updateSessionsList.run st = .fault f := by
  obtain ⟨f, hf⟩ := listing_fault hp h
  exact ⟨f, bind_of_fault hf⟩

/-! ## Timer -/

theorem timerEvent_run (h : ∀ p ∈ st.reached, st.Valid p) (ms : Int) :
    (SessionManager.timerEvent ms).run st =
      .ret () (st.probes st.reached ms) := by
  rw [SessionManager.timerEvent, iterate_run]
  refine foldlM_of_write (I := fun s => ∀ p ∈ st.reached, s.Valid p) st.reached h ?_
  intro s hs p hp
  exact ⟨onTimerEvent_run (hs p hp) ms, fun q hq =>
    (Server.valid_congr (wiring_probe ms)).mpr (hs q hq)⟩

theorem timerEvent_fault (hp : p ∈ st.reached) (h : ¬st.Valid p) (ms : Int) :
    ∃ f, (SessionManager.timerEvent ms).run st = .fault f := by
  rw [SessionManager.timerEvent, iterate_run]
  refine foldlM_of_fault (I := fun _ s => ∀ q, s.Valid q ↔ st.Valid q) st.reached
    (fun _ => Iff.rfl) ?_ ⟨p, hp, ?_⟩
  · intro _ s hs q _
    by_cases hq : s.Valid q
    · exact .inl ⟨_, _, onTimerEvent_run hq ms, fun r =>
        (Server.valid_congr (wiring_probe ms)).trans (hs r)⟩
    · exact .inr (onTimerEvent_fault hq ms)
  · intro _ s hs
    exact onTimerEvent_fault (fun hv => h ((hs p).mp hv)) ms

variable (st) in
theorem wiring_probes (ps : List SessionPtr) (ms : Int) :
    (st.probes ps ms).wiring = st.wiring := by
  induction ps generalizing st with
  | nil => rfl
  | cons p ps ih => exact (ih (st.probe p ms)).trans (wiring_probe ms)

theorem heap_tells (ps : List SessionPtr) (msg : Json) : (st.tells ps msg).heap = st.heap := by
  induction ps generalizing st with
  | nil => rfl
  | cons p ps ih => exact ih.trans (heap_tell msg)

theorem wiring_tells (ps : List SessionPtr) (msg : Json) :
    (st.tells ps msg).wiring = st.wiring := by
  induction ps generalizing st with
  | nil => rfl
  | cons p ps ih => exact ih.trans (wiring_tell msg)

theorem heap_broadcast : st.broadcast.heap = st.heap := heap_tells _ _

theorem wiring_broadcast : st.broadcast.wiring = st.wiring := wiring_tells _ _

/-! ## Who receives a broadcast -/

def Connection.receive (c : Connection) (n : Nat) (msg : Json) : Connection :=
  { c with send := c.send ++ List.replicate n (.text msg) }

def Server.hits (st : Server) (ps : List SessionPtr) (k : ConnPtr) : Nat :=
  ps.countP fun p => st.wiring.owner p = some k

variable (st p) in
theorem tell_eq (msg : Json) :
    (st.tell p msg).conns = st.conns.map (fun c => c.receive (st.hits [p] c.ptr) msg) ∧
      (st.tell p msg).detached =
        st.detached.map fun c => c.receive (st.hits [p] c.ptr) msg := by
  have hreceive : ∀ c : Connection, c.receive (st.hits [p] c.ptr) msg =
      (st.heap p).elim c fun s =>
        if c.ptr = s.connection then { c with send := c.send ++ [.text msg] } else c := by
    intro c
    have howner : st.wiring.owner p = (st.heap p).map (·.connection) := rfl
    cases hs : st.heap p with
    | none => simp [Connection.receive, Server.hits, howner, hs]
    | some s =>
        by_cases hk : c.ptr = s.connection
        · simp [Connection.receive, Server.hits, howner, hs, hk]
        · simp [Connection.receive, Server.hits, howner, hs, hk, Ne.symm hk]
  simp only [hreceive]
  rw [Server.tell]
  cases st.heap p with
  | none => simp
  | some s => exact ⟨rfl, rfl⟩

variable (st) in
theorem tells_eq (ps : List SessionPtr) (msg : Json) :
    (st.tells ps msg).conns = st.conns.map (fun c => c.receive (st.hits ps c.ptr) msg) ∧
      (st.tells ps msg).detached =
        st.detached.map fun c => c.receive (st.hits ps c.ptr) msg := by
  induction ps generalizing st with
  | nil => simp [Server.tells, Server.hits, Connection.receive]
  | cons p ps ih =>
      have hhits : (st.tell p msg).hits ps = st.hits ps := by
        funext k
        rw [Server.hits, wiring_tell, Server.hits]
      have hcompose : ∀ c : Connection,
          (c.receive (st.hits [p] c.ptr) msg).receive (st.hits ps c.ptr) msg =
            c.receive (st.hits (p :: ps) c.ptr) msg := by
        intro c
        have hadd : st.hits (p :: ps) c.ptr = st.hits [p] c.ptr + st.hits ps c.ptr := by
          simp only [Server.hits, List.countP_cons, List.countP_nil]
          omega
        simp only [Connection.receive, hadd, List.append_assoc, List.replicate_add]
      obtain ⟨hconns, hdetached⟩ := ih (st.tell p msg)
      obtain ⟨hconns₁, hdetached₁⟩ := tell_eq st p msg
      constructor
      · refine hconns.trans ?_
        rw [hconns₁, hhits, List.map_map]
        exact List.map_congr_left fun c _ => hcompose c
      · refine hdetached.trans ?_
        rw [hdetached₁, hhits, Option.map_map]
        exact Option.map_congr fun c _ => hcompose c

/-- The connection behind a pointer after a broadcast. -/
theorem conn?_tells (ps : List SessionPtr) (msg : Json) (k : ConnPtr) :
    (st.tells ps msg).conn? k = (st.conn? k).map fun c => c.receive (st.hits ps c.ptr) msg := by
  obtain ⟨hconns, hdetached⟩ := tells_eq st ps msg
  have hallocated : (st.tells ps msg).allocated =
      st.allocated.map fun c => c.receive (st.hits ps c.ptr) msg := by
    rw [Server.allocated, hconns, hdetached, Server.allocated, List.map_append]
    cases st.detached <;> rfl
  rw [Server.conn?, hallocated, List.find?_map]
  rfl

end

end Mgws
