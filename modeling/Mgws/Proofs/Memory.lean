import Mgws.Step
import Mgws.Wiring
/-!
# Reading and writing the server's memory

How the writes of the server act on its wiring, and what a read through a
session pointer gives.
-/

namespace Mgws

open Lib Program

namespace Server

def reached (st : Server) : List SessionPtr :=
  walk Connection.attached st.conns

/-- `p` points at a session that is not deleted, on a connection that is not
freed. -/
def Valid (st : Server) (p : SessionPtr) : Prop :=
  ∃ s, st.heap p = some s ∧ (st.conn? s.connection).isSome

def Live (st : Server) : Context → Prop
  | .manager => True
  | .session p => (st.heap p).isSome

/-- The context of the connection at `k` is part of the deleted session `p`. -/
def Stale (st : Server) (k : ConnPtr) (p : SessionPtr) : Prop :=
  ∃ c, st.conn? k = some c ∧ c.fnData = .session p ∧ st.heap p = none

/-- Either all pointers that `Iterate` reaches may be followed, or one may not. -/
theorem reached_valid_or (st : Server) :
    (∀ p ∈ st.reached, st.Valid p) ∨ ∃ p ∈ st.reached, ¬st.Valid p := by
  by_cases hall : ∀ p ∈ st.reached, st.Valid p
  · exact .inl hall
  · push Not at hall
    exact .inr hall

end Server

/-- `t` is `s` up to its heartbeat time and empty entries of its table. -/
structure Session.SameAs (s t : Session) : Prop where
  connection : t.connection = s.connection
  userName : t.userName = s.userName
  lastPongTime : t.lastPongTime = s.lastPongTime
  pings : t.pings = s.pings
  ticks : t.ticks = s.ticks
  pmd : ∀ key, (t.pmd.lookup key).join = (s.pmd.lookup key).join

theorem Connection.attached_eq_some_iff {c : Connection} {p : SessionPtr} :
    c.attached = some p ↔ c.isWebsocket = true ∧ c.fnData = .session p := by
  cases hws : c.isWebsocket <;> cases hctx : c.fnData <;>
    simp [Connection.attached, Context.userData, hws, hctx]

theorem Connection.fnData_of_attached {c : Connection} {p : SessionPtr}
    (h : c.attached = some p) : c.fnData = .session p :=
  (Connection.attached_eq_some_iff.mp h).2

/-! ## The wiring of a server -/

def Connection.wire (c : Connection) : Wire where
  ptr := c.ptr
  fnData := c.fnData
  isWebsocket := c.isWebsocket

structure Connection.SameAs (c d : Connection) : Prop where
  wire : d.wire = c.wire
  send : d.send = c.send

def Server.wiring (st : Server) : Wiring where
  conns := st.conns.map Connection.wire
  detached := st.detached.map Connection.wire
  nextid := st.nextid
  nextSession := st.nextSession
  owner := fun p => (st.heap p).map (·.connection)

theorem Connection.attached_wire (c : Connection) : c.wire.attached = c.attached := rfl

namespace Server

variable {st st' : Server} {k k' : ConnPtr} {p q : SessionPtr}

theorem owner_of_heap {s : Session} (hs : st.heap p = some s) :
    st.wiring.owner p = some s.connection := by
  simp [wiring, hs]

theorem allocated_wiring : st.wiring.allocated = st.allocated.map Connection.wire := by
  rw [Wiring.allocated, allocated, List.map_append]
  cases h : st.detached <;> simp [wiring, h]

theorem reached_wiring : st.wiring.reached = st.reached :=
  walk_map _ _ _

theorem conn?_isSome_iff : (st.conn? k).isSome ↔ ∃ c ∈ st.allocated, c.ptr = k := by
  simp [conn?, List.find?_isSome]

theorem mem_allocated_wiring {w : Wire} :
    w ∈ st.wiring.allocated ↔ ∃ c ∈ st.allocated, c.wire = w := by
  rw [allocated_wiring, List.mem_map]

theorem conn?_isSome_wiring :
    (st.conn? k).isSome ↔ k ∈ st.wiring.allocated.map (·.ptr) := by
  rw [conn?_isSome_iff, allocated_wiring, List.map_map, List.mem_map]
  rfl

theorem find?_wiring :
    st.wiring.allocated.find? (fun c => c.ptr = k) = (st.conn? k).map Connection.wire := by
  rw [allocated_wiring, List.find?_map]
  rfl

theorem valid_wiring : st.wiring.Valid p ↔ st.Valid p := by
  constructor
  · rintro ⟨k, hk, w, hw, rfl⟩
    obtain ⟨s, hs, hptr⟩ := Option.map_eq_some_iff.mp hk
    obtain ⟨c, hc, rfl⟩ := mem_allocated_wiring.mp hw
    exact ⟨s, hs, conn?_isSome_iff.mpr ⟨c, hc, hptr.symm⟩⟩
  · rintro ⟨s, hs, hconn⟩
    obtain ⟨c, hc, hptr⟩ := conn?_isSome_iff.mp hconn
    exact ⟨s.connection, Option.map_eq_some_iff.mpr ⟨s, hs, rfl⟩, c.wire,
      mem_allocated_wiring.mpr ⟨c, hc, rfl⟩, hptr⟩

theorem valid_congr (h : st'.wiring = st.wiring) : st'.Valid p ↔ st.Valid p := by
  rw [← valid_wiring, h, valid_wiring]

theorem reached_congr (h : st'.wiring = st.wiring) : st'.reached = st.reached := by
  rw [← reached_wiring, h, reached_wiring]

theorem exists_wire_of_wiring_eq (h : st'.wiring = st.wiring) {c : Connection}
    (hc : c ∈ st'.conns) : ∃ d ∈ st.conns, d.wire = c.wire := by
  have hmem : c.wire ∈ st'.wiring.conns := List.mem_map_of_mem hc
  rw [h] at hmem
  exact List.mem_map.mp hmem

/-! ## Writes that keep the wiring -/

theorem wiring_updateConn {f : Connection → Connection} (hf : ∀ c, (f c).wire = c.wire) :
    (st.updateConn k f).wiring = st.wiring := by
  have hwire : ∀ c : Connection, (if c.ptr = k then f c else c).wire = c.wire := by
    intro c
    split
    · exact hf c
    · rfl
  simp only [wiring, updateConn, List.map_map, Option.map_map, Function.comp_def, hwire]

theorem wiring_updateSession {f : Session → Session}
    (hf : ∀ s, (f s).connection = s.connection) :
    (st.updateSession p f).wiring = st.wiring := by
  have howner : ∀ q, ((st.updateSession p f).heap q).map (·.connection) =
      (st.heap q).map (·.connection) := by
    intro q
    simp only [updateSession]
    split
    · rw [Option.map_map]
      simp only [Function.comp_def, hf]
    · rfl
  simp only [wiring, howner]
  rfl

theorem wiring_queue (frame : Frame) : (st.queue k frame).wiring = st.wiring :=
  wiring_updateConn fun _ => rfl

theorem heap_updateSession_self {f : Session → Session} :
    (st.updateSession p f).heap p = (st.heap p).map f := by
  simp [updateSession]

theorem heap_updateSession_ne {f : Session → Session} (h : q ≠ p) :
    (st.updateSession p f).heap q = st.heap q := by
  simp [updateSession, h]

/-! ## The connection behind a pointer -/

theorem mem_allocated_of_conn? {c : Connection} (h : st.conn? k = some c) : c ∈ st.allocated :=
  List.mem_of_find?_eq_some h

theorem mem_conns_of_conn? {c : Connection} (hdetached : st.detached = none)
    (h : st.conn? k = some c) : c ∈ st.conns := by
  have hmem := mem_allocated_of_conn? h
  simpa [allocated, hdetached] using hmem

theorem allocated_updateConn {f : Connection → Connection} :
    (st.updateConn k f).allocated = st.allocated.map fun c => if c.ptr = k then f c else c := by
  rw [allocated, allocated, List.map_append]
  cases h : st.detached <;> simp [updateConn, h]

theorem conn?_updateConn {f : Connection → Connection} (hf : ∀ c, (f c).ptr = c.ptr) :
    (st.updateConn k f).conn? k' =
      (st.conn? k').map fun c => if c.ptr = k then f c else c := by
  have hptr : ∀ c : Connection, (if c.ptr = k then f c else c).ptr = c.ptr := by
    intro c
    split
    · exact hf c
    · rfl
  rw [conn?, allocated_updateConn, List.find?_map, conn?]
  simp only [Function.comp_def, hptr]

theorem conn?_updateConn_self {f : Connection → Connection} (hf : ∀ c, (f c).ptr = c.ptr) :
    (st.updateConn k f).conn? k = (st.conn? k).map f := by
  rw [conn?_updateConn hf]
  refine Option.map_congr fun c hc => if_pos ?_
  simpa using List.find?_some hc

theorem ptr_of_conn? {c : Connection} (h : st.conn? k = some c) : c.ptr = k := by
  simpa using List.find?_some h

end Server

/-! ## Reading through a session pointer -/

theorem deref_of_valid {st : Server} {p : SessionPtr} {s : Session} {c : Connection}
    (hs : st.heap p = some s) (hc : st.conn? s.connection = some c) :
    (deref p).run st = .ret (s, c) st := by
  simp [deref, run_bind, hs, hc]

theorem deref_valid {st : Server} {p : SessionPtr} (h : st.Valid p) :
    ∃ s c, st.heap p = some s ∧ st.conn? s.connection = some c ∧
      (deref p).run st = .ret (s, c) st := by
  obtain ⟨s, hs, hc⟩ := h
  obtain ⟨c, hc⟩ := Option.isSome_iff_exists.mp hc
  exact ⟨s, c, hs, hc, deref_of_valid hs hc⟩

theorem deref_not_valid {st : Server} {p : SessionPtr} (h : ¬st.Valid p) :
    (deref p).run st = .fault (.deadSession p) ∨
      (deref p).run st = .fault (.freedConnection p) := by
  cases hs : st.heap p with
  | none =>
      left
      simp [deref, run_bind, hs]
  | some s =>
      right
      cases hc : st.conn? s.connection with
      | none => simp [deref, run_bind, hs, hc]
      | some c => exact absurd ⟨s, hs, by simp [hc]⟩ h

/-! ## Reading through a context -/

section

variable {st : Server} {k : ConnPtr} {p : SessionPtr} {ctx : Context} {c : Connection}

theorem Server.Valid.live (h : st.Valid p) : st.Live (.session p) := by
  obtain ⟨s, hs, -⟩ := h
  exact Option.isSome_of_eq_some hs

theorem Server.live_or_stale (hc : st.conn? k = some c) :
    st.Live c.fnData ∨ ∃ p, st.Stale k p := by
  cases hctx : c.fnData with
  | manager => exact .inl trivial
  | session p =>
      cases hp : st.heap p with
      | none => exact .inr ⟨p, c, hc, hctx, hp⟩
      | some s => exact .inl (Option.isSome_of_eq_some hp)

theorem readMgws_live (h : st.Live ctx) : (readMgws ctx).run st = .ret () st := by
  cases ctx with
  | manager => rfl
  | session p =>
      rw [readMgws, bind_of_ret (run_get st), if_pos (show (st.heap p).isSome from h)]
      rfl

theorem readMgws_dead (h : st.heap p = none) :
    (readMgws (.session p)).run st = .fault (.deadContext p) := by
  rw [readMgws, bind_of_ret (run_get st), h]
  rfl

theorem preserves_readMgws {I : Server → Prop} (ctx : Context) : Preserves I (readMgws ctx) := by
  cases ctx with
  | manager => exact .pure _
  | session p =>
      refine Preserves.read.bind fun st => ?_
      split
      · exact .pure _
      · exact .abort _

theorem preserves_mgNotify {I : Server → Prop} (k : ConnPtr) : Preserves I (mgNotify k) := by
  refine Preserves.read.bind fun st => ?_
  cases st.conn? k with
  | none => exact .pure _
  | some c => exact preserves_readMgws c.fnData

theorem mgNotify_of_none (hc : st.conn? k = none) : (mgNotify k).run st = .ret () st := by
  rw [mgNotify, bind_of_ret (run_get st), hc]
  rfl

theorem mgNotify_live (hc : st.conn? k = some c) (hlive : st.Live c.fnData) :
    (mgNotify k).run st = .ret () st := by
  rw [mgNotify, bind_of_ret (run_get st), hc]
  exact readMgws_live hlive

theorem mgNotify_stale (h : st.Stale k p) : (mgNotify k).run st = .fault (.deadContext p) := by
  obtain ⟨c, hc, hctx, hp⟩ := h
  rw [mgNotify, bind_of_ret (run_get st), hc]
  show (readMgws c.fnData).run st = _
  rw [hctx, readMgws_dead hp]

/-- An event is passed on, unless the context may not be read. -/
theorem mgNotify_cases (st : Server) (k : ConnPtr) :
    (mgNotify k).run st = .ret () st ∨
      ∃ p, st.Stale k p ∧ (mgNotify k).run st = .fault (.deadContext p) := by
  cases hc : st.conn? k with
  | none => exact .inl (mgNotify_of_none hc)
  | some c =>
      rcases Server.live_or_stale hc with hlive | ⟨p, hstale⟩
      · exact .inl (mgNotify_live hc hlive)
      · exact .inr ⟨p, hstale, mgNotify_stale hstale⟩

theorem eq_of_mgNotify {s : Server} (h : (mgNotify k).run st = .ret () s) : s = st := by
  rcases mgNotify_cases st k with hret | ⟨p, -, hfault⟩
  · cases hret.symm.trans h
    rfl
  · cases hfault.symm.trans h

variable [Nlohmann]

theorem mgCall_of_none (hc : st.conn? k = none) (ev : Event) :
    (mgCall k ev).run st = .ret () st := by
  rw [mgCall, bind_of_ret (run_get st), hc]
  rfl

theorem mgCall_live (hc : st.conn? k = some c) (hlive : st.Live c.fnData) (ev : Event) :
    (mgCall k ev).run st = (SessionManager.fn k c.fnData ev).run st := by
  rw [mgCall, bind_of_ret (run_get st), hc]
  exact bind_of_ret (readMgws_live hlive)

theorem mgCall_stale (h : st.Stale k p) (ev : Event) :
    (mgCall k ev).run st = .fault (.deadContext p) := by
  obtain ⟨c, hc, hctx, hp⟩ := h
  have hread : (readMgws c.fnData).run st = .fault (.deadContext p) := by
    rw [hctx, readMgws_dead hp]
  rw [mgCall, bind_of_ret (run_get st), hc]
  exact bind_of_fault hread

theorem preserves_mgCall_of_fn {I : Server → Prop} {ev : Event}
    (h : ∀ ctx, Preserves I (SessionManager.fn k ctx ev)) : Preserves I (mgCall k ev) := by
  refine Preserves.read.bind fun st => ?_
  cases st.conn? k with
  | none => exact .pure _
  | some c => exact (preserves_readMgws c.fnData).bind fun _ => h c.fnData

/-- An event that is passed on goes to the context of its connection. -/
theorem fn_of_mgCall {s : Server} {ev : Event} (hc : st.conn? k = some c)
    (h : (mgCall k ev).run st = .ret () s) :
    (SessionManager.fn k c.fnData ev).run st = .ret () s := by
  rcases Server.live_or_stale hc with hlive | ⟨p, hstale⟩
  · rw [← mgCall_live hc hlive ev, h]
  · cases (mgCall_stale hstale ev).symm.trans h

end

end Mgws
