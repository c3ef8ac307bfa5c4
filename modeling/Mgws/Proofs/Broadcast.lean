import Mgws.Proofs.Lifetime
import Mgws.Proofs.Lookup
/-!
# What a broadcast sends, and to whom

`UpdateSessionsList` lists the connections that enumeration visits and sends the
list to each of them once.  So a client that is sent a directory finds itself
in it.
-/

namespace Mgws

open Lib Program

/-! ## The directory -/

namespace Server

variable (st : Server)

def nameAt (c : Connection) : String := c.attached.elim "" st.nameOf

def directory : List Json :=
  st.front.map fun c => SessionManager.entry (sessionId c.ptr) (st.nameAt c)

/-- One frame with the directory to each connection that is listed in it. -/
def announce : Server :=
  { st with
    conns := st.conns.map fun c =>
      if c.ptr ∈ st.front.map (·.ptr) then
        { c with send := c.send ++ [.text (directoryMsg st.directory)] }
      else c }

end Server

section

variable {st s : Server} {k : ConnPtr} {p q : SessionPtr} {c : Connection}

/-- Frames to sessions change nothing but connections. -/
theorem exists_tells (st : Server) (ps : List SessionPtr) (msg : Json) :
    ∃ cs d, st.tells ps msg = { st with conns := cs, detached := d } := by
  induction ps generalizing st with
  | nil => exact ⟨st.conns, st.detached, rfl⟩
  | cons p ps ih =>
      have htell : ∃ cs d, st.tell p msg = { st with conns := cs, detached := d } := by
        rw [Server.tell]
        cases st.heap p with
        | none => exact ⟨st.conns, st.detached, rfl⟩
        | some s => exact ⟨_, _, rfl⟩
      obtain ⟨cs, d, htell⟩ := htell
      obtain ⟨cs', d', htells⟩ := ih (st.tell p msg)
      refine ⟨cs', d', htells.trans ?_⟩
      rw [htell]

theorem Server.Wf.nodup_front (hwf : st.Wf) : (st.front.map (·.ptr)).Nodup :=
  hwf.nodup_conns.sublist ((List.takeWhile_sublist _).map _)

theorem hits_reached (hwf : st.Wf) (hall : ∀ p ∈ st.reached, st.Valid p) :
    st.hits st.reached k = if k ∈ st.front.map (·.ptr) then 1 else 0 := by
  have howner : ∀ d ∈ st.front,
      ((d.attached.map fun p => decide (st.wiring.owner p = some k)).getD false) =
        decide (d.ptr = k) := by
    intro d hd
    obtain ⟨p, hp⟩ := attached_of_front hd
    obtain ⟨s, hs, -⟩ := hall p (mem_reached_of_front hd hp)
    have hctx := Connection.fnData_of_attached hp
    simp [hp, Server.owner_of_heap hs, hwf.connection_eq (mem_conns_of_front hd) hctx hs]
  calc st.hits st.reached k
      = st.front.countP fun d => decide (d.ptr = k) := by
        rw [Server.hits, reached_eq_front, List.countP_filterMap]
        exact List.countP_congr fun d hd => by rw [howner d hd]
    _ = (st.front.map (·.ptr)).count k := by
        rw [List.count, List.countP_map]
        rfl
    _ = if k ∈ st.front.map (·.ptr) then 1 else 0 := hwf.nodup_front.count

/-- The two traversals of a broadcast go through the same connections. -/
theorem listing_eq_directory (hwf : st.Wf) (hall : ∀ p ∈ st.reached, st.Valid p) :
    st.listing = st.directory := by
  rw [Server.listing, Server.directory, reached_eq_front]
  rw [reached_eq_front] at hall
  have hfront : ∀ d ∈ st.front, ∃ p, d.attached = some p := fun d => attached_of_front
  have hmem : ∀ d ∈ st.front, d ∈ st.conns := fun d => mem_conns_of_front
  generalize st.front = ds at hall hfront hmem
  induction ds with
  | nil => rfl
  | cons d ds ih =>
      obtain ⟨p, hp⟩ := hfront d (by simp)
      have hctx := Connection.fnData_of_attached hp
      have hid := idOf_eq hwf (hmem d (by simp)) hctx
        (hall p (by simp [List.filterMap_cons_some hp]))
      rw [List.filterMap_cons_some hp, List.map_cons, List.map_cons, Server.nameAt, hp, hid]
      congr 1
      apply ih
      · intro q hq
        exact hall q (by simp [List.filterMap_cons_some hp, hq])
      · exact fun e he => hfront e (by simp [he])
      · exact fun e he => hmem e (by simp [he])

theorem broadcast_eq_announce (hwf : st.Wf) (hall : ∀ p ∈ st.reached, st.Valid p) :
    st.broadcast = st.announce := by
  obtain ⟨hconns, hdetached⟩ := tells_eq st st.reached (directoryMsg st.listing)
  have hsend : ∀ c : Connection,
      c.receive (st.hits st.reached c.ptr) (directoryMsg st.listing) =
        if c.ptr ∈ st.front.map (·.ptr) then
          { c with send := c.send ++ [.text (directoryMsg st.directory)] }
        else c := by
    intro c
    rw [Connection.receive, hits_reached hwf hall, listing_eq_directory hwf hall]
    split
    · rfl
    · simp
  have hgone : (st.tells st.reached (directoryMsg st.listing)).detached = st.detached := by
    rw [hdetached]
    refine (Option.map_congr fun c hc => ?_).trans Option.map_id'
    rw [hsend, if_neg]
    intro hfront
    obtain ⟨d, hd, hptr⟩ := List.mem_map.mp hfront
    have hnodup := hwf.wiring.nodup
    rw [Server.allocated_wiring, List.map_map, Server.allocated, List.map_append,
      List.nodup_append] at hnodup
    exact hnodup.2.2 d.ptr (List.mem_map_of_mem (mem_conns_of_front hd)) c.ptr
      (List.mem_map_of_mem (Option.mem_toList.mpr hc)) hptr
  obtain ⟨cs, d, htells⟩ := exists_tells st st.reached (directoryMsg st.listing)
  rw [htells] at hconns hgone
  rw [Server.broadcast, htells, Server.announce]
  simp only [hsend] at hconns
  simp only at hgone
  rw [hconns, hgone]

/-! ## What a client has been sent -/

/-- The message of a frame that a client takes for a broadcast. -/
def Frame.directory? : Frame → Option Json
  | .text j =>
      match j.find? "type" with
      | some (.str "SessionsChanged") => some j
      | _ => none
  | _ => none

def Connection.directories (c : Connection) : List Json := c.send.filterMap Frame.directory?

theorem directory?_eq_none {frame : Frame} (h : ¬frame.IsDirectory) : frame.directory? = none := by
  unfold Frame.directory?
  split
  · split
    · next htype => exact absurd ⟨_, rfl, htype⟩ h
    · rfl
  · rfl

theorem directory?_directoryMsg (entries : List Json) :
    (Frame.text (directoryMsg entries)).directory? = some (directoryMsg entries) := by
  cases entries <;> rfl

/-- The connections are the same up to frames that are no broadcasts. -/
def Quiet (st s : Server) : Prop :=
  ∃ g : Connection → Connection,
    (∀ c, (g c).ptr = c.ptr ∧ (g c).directories = c.directories) ∧ s.conns = st.conns.map g

theorem Quiet.of_conns_eq (h : s.conns = st.conns) : Quiet st s :=
  ⟨id, fun _ => ⟨rfl, rfl⟩, by simp [h]⟩

theorem Quiet.trans {t : Server} (h : Quiet st s) (h' : Quiet s t) : Quiet st t := by
  obtain ⟨g, hg, hs⟩ := h
  obtain ⟨g', hg', ht⟩ := h'
  refine ⟨fun c => g' (g c), fun c => ?_, by rw [ht, hs, List.map_map]; rfl⟩
  rw [(hg' (g c)).1, (hg' (g c)).2]
  exact hg c

theorem Quiet.updateConn (h : Quiet st s) {f : Connection → Connection}
    (hf : ∀ c, (f c).ptr = c.ptr ∧ (f c).directories = c.directories) :
    Quiet st (s.updateConn k f) := by
  refine h.trans ⟨_, fun c => ?_, rfl⟩
  split
  · exact hf c
  · exact ⟨rfl, rfl⟩

theorem Quiet.conn (h : Quiet st s) {f : Connection → Connection}
    (hf : ∀ c : Connection, c.SameAs (f c)) : Quiet st (s.updateConn k f) := by
  apply h.updateConn
  intro c
  refine ⟨congrArg Wire.ptr (hf c).wire, ?_⟩
  rw [Connection.directories, (hf c).send, Connection.directories]

theorem Quiet.queue (h : Quiet st s) {frame : Frame} (hframe : ¬frame.IsDirectory) :
    Quiet st (s.queue k frame) := by
  apply h.updateConn
  intro c
  refine ⟨rfl, ?_⟩
  rw [Connection.directories, List.filterMap_append,
    List.filterMap_cons_none (directory?_eq_none hframe)]
  exact List.append_nil _

theorem Quiet.tell (h : Quiet st s) {msg : Json} (hmsg : ¬(Frame.text msg).IsDirectory) :
    Quiet st (s.tell p msg) := by
  rw [Server.tell]
  cases s.heap p with
  | none => exact h
  | some _ => exact h.queue hmsg

theorem Quiet.probe (h : Quiet st s) (ms : Int) : Quiet st (s.probe p ms) := by
  rw [Server.probe]
  cases s.heap p with
  | none => exact h
  | some r =>
      simp only [Option.elim]
      split
      · have hmark : Quiet st (s.updateConn r.connection fun c => { c with isClosing := true }) :=
          h.updateConn fun _ => ⟨rfl, rfl⟩
        exact hmark.trans (.of_conns_eq rfl)
      · have hping : Quiet st (s.queue r.connection (.ping Session.heartbeatPayload)) :=
          h.queue (Frame.not_isDirectory rfl)
        exact hping.trans (.of_conns_eq rfl)

theorem Quiet.upgrade (h : Quiet st s) (hasKey : Bool) : Quiet st (s.upgrade k hasKey) := by
  have hreply : ∀ status, ¬(Frame.http status).IsDirectory := fun status =>
    Frame.not_isDirectory rfl
  have hhandler : Quiet st (s.updateConn k fun c => { c with pfn := .wsCb, frag := [] }) :=
    h.updateConn fun _ => ⟨rfl, rfl⟩
  cases hasKey with
  | true => exact (hhandler.queue (hreply 101)).updateConn fun _ => ⟨rfl, rfl⟩
  | false =>
      apply Quiet.updateConn
      · apply Quiet.updateConn (hhandler.queue (hreply 426))
        exact fun _ => ⟨rfl, rfl⟩
      · exact fun _ => ⟨rfl, rfl⟩

theorem Quiet.fnData (h : Quiet st s) (ctx : Context) :
    Quiet st (s.updateConn k fun c => { c with fnData := ctx }) :=
  h.updateConn fun _ => ⟨rfl, rfl⟩

theorem Quiet.websock (h : Quiet st s) (hasKey : Bool) (run : FactoryRun) :
    Quiet st (s.websock k hasKey run) := by
  have hupgrade : Quiet st (s.upgrade k hasKey) := h.upgrade hasKey
  have hcreate : Quiet st ((s.upgrade k hasKey).create k) :=
    (hupgrade.fnData (.session (s.upgrade k hasKey).nextSession)).trans (.of_conns_eq rfl)
  cases run with
  | returns =>
      have htype : (sessionIdMsg (sessionId k)).find? "type" = some (.str "SessionID") := rfl
      exact hcreate.tell (not_isDirectory htype (by decide))
  | throwsEarly => exact hupgrade
  | throwsLate =>
      exact (hupgrade.fnData (.session (s.upgrade k hasKey).nextSession)).trans (.of_conns_eq rfl)
  | throwsAfter => exact hcreate

/-! ## The two broadcasts -/

section

variable (st p q) (name : String)

theorem wiring_renamed : ((st.rename q name).tell p localIdChanged).wiring = st.wiring :=
  (wiring_tell _).trans (wiring_rename name)

theorem quiet_renamed : Quiet st ((st.rename q name).tell p localIdChanged) := by
  have hrename : Quiet st (st.rename q name) := .of_conns_eq rfl
  have htype : localIdChanged.find? "type" = some (.str "LocalIdChanged") := rfl
  exact hrename.tell (not_isDirectory htype (by decide))

variable {st}

theorem Server.Wf.renamed (h : st.Wf) : ((st.rename q name).tell p localIdChanged).Wf := by
  refine ⟨wiring_renamed st p q name ▸ h.wiring, ?_⟩
  have hrename : (st.rename q name).Tables := h.tables.updateSession fun _ _ => rfl
  exact hrename.congr (heap_tell _)

theorem valid_renamed (hall : ∀ r ∈ st.reached, st.Valid r) :
    ∀ r ∈ ((st.rename q name).tell p localIdChanged).reached,
      ((st.rename q name).tell p localIdChanged).Valid r := by
  have hwiring := wiring_renamed st p q name
  rw [Server.reached_congr hwiring]
  exact fun r hr => (Server.valid_congr hwiring).mpr (hall r hr)

end

theorem Server.Wf.left (h : st.Wf) (c : Connection) (p : SessionPtr) :
    ((st.unlink c.ptr).delete p).Wf := by
  refine ⟨?_, Server.Tables.delete h.tables p⟩
  rw [Server.wiring_delete, Server.wiring_unlink]
  exact (h.wiring.unlink _).delete p

/-! ## Every directory names its receiver -/

/-- Every broadcast that a client was sent lists the client. -/
def Receipts (st : Server) : Prop :=
  ∀ c ∈ st.conns, ∀ j ∈ c.directories, ∃ elems name,
    j.find? "sessions" = some (.arr elems) ∧
      SessionManager.entry (sessionId c.ptr) name ∈ elems

theorem Receipts.quiet (h : Receipts st) (hs : Quiet st s) : Receipts s := by
  obtain ⟨g, hg, hconns⟩ := hs
  intro c hc j hj
  rw [hconns] at hc
  obtain ⟨d, hd, rfl⟩ := List.mem_map.mp hc
  rw [(hg d).2] at hj
  rw [(hg d).1]
  exact h d hd j hj

theorem Receipts.of_subset (h : Receipts st) (hs : ∀ c ∈ s.conns, c ∈ st.conns) : Receipts s :=
  fun c hc => h c (hs c hc)

theorem find?_directoryMsg {entries : List Json} {v : Json} (h : v ∈ entries) :
    (directoryMsg entries).find? "sessions" = some (.arr entries) := by
  cases entries with
  | nil => simp at h
  | cons _ _ => rfl

theorem Receipts.announce (h : Receipts st) : Receipts st.announce := by
  intro c hc j hj
  obtain ⟨d, hd, rfl⟩ := List.mem_map.mp hc
  split at hj
  · next hfront =>
      rw [Connection.directories, List.filterMap_append, List.mem_append] at hj
      rw [if_pos hfront]
      rcases hj with hj | hj
      · exact h d hd j hj
      · obtain ⟨e, he, hptr⟩ := List.mem_map.mp hfront
        have hj' : j = directoryMsg st.directory := by
          simpa [directory?_directoryMsg] using hj
        have hentry : SessionManager.entry (sessionId d.ptr) (st.nameAt e) ∈ st.directory := by
          rw [← hptr]
          exact List.mem_map_of_mem (f := fun c =>
            SessionManager.entry (sessionId c.ptr) (st.nameAt c)) he
        exact ⟨st.directory, st.nameAt e, hj' ▸ find?_directoryMsg hentry, hentry⟩
  · next hfront =>
      rw [if_neg hfront]
      exact h d hd j hj

section

variable {m : Option (ConnPtr × Json)} {R : Server → ConnPtr → Bool → FactoryRun → Prop}

theorem Inner.receipts (h : Inner m R st s) (hwf : st.Wf) (hst : Receipts st) : Receipts s := by
  have hrefl : Quiet st st := .of_conns_eq rfl
  cases h with
  | queue hframe => exact hst.quiet (hrefl.queue hframe)
  | conn hf => exact hst.quiet (hrefl.conn hf)
  | session | pong => exact hst.quiet (.of_conns_eq rfl)
  | @rename k j c p q name hm hc hk hctx hvalid hall =>
      rw [broadcast_eq_announce (hwf.renamed p q name) (valid_renamed p q name hall)]
      exact (hst.quiet (quiet_renamed st p q name)).announce
  | websock => exact hst.quiet (hrefl.websock _ _)

theorem Effect.receipts (h : Effect m R st s) (hwf : st.Wf) (hst : Receipts st) :
    Receipts s := by
  cases h with
  | inner hinner => exact hinner.receipts hwf hst
  | close hc hdetached hcloses =>
      have hunlink : ∀ {d k}, d ∈ (st.unlink k).conns → d ∈ st.conns :=
        fun hd => (List.mem_filter.mp hd).1
      cases hcloses with
      | plain => exact hst.of_subset fun d hd => hunlink hd
      | @session p hctx hvalid hall =>
          rw [broadcast_eq_announce (hwf.left _ p) hall]
          exact Receipts.announce (hst.of_subset fun d hd => hunlink hd)
  | probe => exact hst.quiet ((Quiet.of_conns_eq rfl).probe _)
  | free | clock => exact hst
  | accept =>
      intro c hc
      rcases List.mem_cons.mp hc with rfl | hc
      · exact fun j hj => absurd hj (by simp [Connection.directories])
      · exact hst c hc

end

variable [Nlohmann]

theorem reachable_receipts (h : Reachable st) : Receipts st := by
  apply h.invariant (I := Receipts)
  · intro c hc j hj
    rw [List.mem_singleton.mp hc] at hj
    simp [Connection.directories] at hj
  · intro t u a ht hreceipts _ hstep
    obtain ⟨hwf, hdetached⟩ := reachable_wf ht
    have heffects := step_effects hwf hdetached (joins_true a) hstep
    exact (heffects.invariant (I := fun s => s.Wf ∧ Receipts s) ⟨hwf, hreceipts⟩
      fun _ _ heffect hs => ⟨hs.1.effect heffect, heffect.receipts hs.1 hs.2⟩).2

end

/-! ## The executions of a broadcast -/

/-- `DeleteSession` up to its broadcast. -/
def destroy (p : SessionPtr) : Cpp Unit := do
  let _ ← Session.getId p
  SessionManager.delete p

/-- `OnLocalIdEvent` from its lookup up to its broadcast. -/
def rechristen (p : SessionPtr) (id : Nat) (name : String) : Cpp Unit := do
  SessionManager.updateSession id name
  Session.send p localIdChanged

theorem deleteSession_eq (p : SessionPtr) :
    SessionManager.deleteSession p = destroy p >>= fun _ => SessionManager.updateSessionsList := by
  rw [destroy, bind_assoc, SessionManager.deleteSession]

/-- With its own id and a string name the message reaches its broadcast. -/
theorem onLocalIdEvent_eq_rechristen {st : Server} {p : SessionPtr} {j v : Json} {name : String}
    (hp : st.Valid p) (htype : j.find? "type" = some v)
    (hname : j.newName (st.idOf p) = some name) :
    (Peer.onLocalIdEvent p j).run st =
      (Program.tryCatch (rechristen p (st.idOf p) name >>= fun _ =>
        SessionManager.updateSessionsList) fun _ => pure ()).run st := by
  rw [onLocalIdEvent_eq hp htype hname, rechristen, bind_assoc]

/-- The code that starts in `st` executes `UpdateSessionsList` in `s`: for a
connection just unlinked, or for a session just renamed. -/
inductive Broadcasting (st : Server) : Server → Prop where
  | deleteSession {k c p s} (hc : st.conn? k = some c) (hctx : c.fnData = .session p)
      (hrun : (destroy p).run (st.unlink k) = .ret () s) : Broadcasting st s
  | localIdEvent {c p id name s} (hc : c ∈ st.conns) (hctx : c.fnData = .session p)
      (hrun : (rechristen p id name).run st = .ret () s) : Broadcasting st s

/-- The broadcast made in `s` sends the directory of `s` to the connections that
are listed in it, with the id and the name that their sessions have. -/
structure Announces (s : Server) : Prop where
  run : SessionManager.updateSessionsList.run s = .ret () s.announce
  once : (s.front.map (·.ptr)).Nodup
  alive : ∀ c ∈ s.front, ∃ p, c.attached = some p ∧
    (Session.getId p).run s = .ret (sessionId c.ptr) s ∧
    (Session.getUserName p).run s = .ret (s.nameAt c) s

section

variable {st s : Server} {k : ConnPtr} {p q : SessionPtr} {c : Connection}

theorem destroy_run (h : (destroy p).run st = .ret () s) : s = st.delete p := by
  by_cases hp : st.Valid p
  · rw [destroy, bind_of_ret (getId_run hp), delete_run hp] at h
    injection h with _ hs
    exact hs.symm
  · obtain ⟨f, hf⟩ := getId_fault hp
    rw [destroy, bind_of_fault hf] at h
    cases h

theorem rechristen_run {id : Nat} {name : String}
    (h : (rechristen p id name).run st = .ret () s) :
    ∃ q, s = (st.rename q name).tell p localIdChanged := by
  by_cases hid : id < 2 ^ 31
  swap
  · rw [rechristen, bind_of_throw (updateSession_throw st name (by omega))] at h
    cases h
  rcases st.reached_valid_or with hall | ⟨r, hr, hinvalid⟩
  swap
  · obtain ⟨f, hf⟩ := updateSession_fault name hid hr hinvalid
    rw [rechristen, bind_of_fault hf] at h
    cases h
  cases hq : st.lookup id with
  | none =>
      rw [rechristen, bind_of_fault (updateSession_missing name hall hid hq)] at h
      cases h
  | some q =>
      rw [rechristen, bind_of_ret (updateSession_found name hall hid hq)] at h
      by_cases hp : (st.rename q name).Valid p
      · rw [send_run hp] at h
        injection h with _ hs
        exact ⟨q, hs.symm⟩
      · obtain ⟨f, hf⟩ := send_fault hp localIdChanged
        rw [hf] at h
        cases h

theorem announces (hwf : s.Wf) (hall : ∀ p ∈ s.reached, s.Valid p) : Announces s := by
  constructor
  · rw [updateSessionsList_run hall, broadcast_eq_announce hwf hall]
  · exact hwf.nodup_front
  · intro c hc
    obtain ⟨p, hp⟩ := attached_of_front hc
    have hvalid : s.Valid p := hall p (mem_reached_of_front hc hp)
    have hctx := Connection.fnData_of_attached hp
    refine ⟨p, hp, ?_, ?_⟩
    · rw [getId_run hvalid, idOf_eq hwf (mem_conns_of_front hc) hctx hvalid]
    · rw [getUserName_run hvalid, Server.nameAt, hp, Option.elim]

variable [Nlohmann]

/-- Every broadcast sends what it lists to those it lists, unless a factory that
threw has left a pointer to follow; and every broadcast that a client was sent
lists the client. -/
theorem broadcast_sound (h : Reachable st) :
    (∀ s, Broadcasting st s → Announces s ∨ (∃ p ∈ s.reached, ¬s.Valid p) ∧
      ∃ f, SessionManager.updateSessionsList.run s = .fault f) ∧
    (ReachableNoThrow st → ∀ s, Broadcasting st s → Announces s) ∧ Receipts st := by
  obtain ⟨hwf, hdetached⟩ := reachable_wf h
  have hstate : ∀ s, Broadcasting st s → s.Wf ∧ (st.wiring.Sound → s.wiring.Sound) := by
    intro s hs
    cases hs with
    | deleteSession hc hctx hrun =>
        have hmem := Server.mem_conns_of_conn? hdetached hc
        obtain rfl := Server.ptr_of_conn? hc
        rw [destroy_run hrun]
        exact ⟨hwf.left _ _, fun hsound => hwf.sound_leave hsound hmem hctx⟩
    | @localIdEvent c p id name s hc hctx hrun =>
        obtain ⟨q, rfl⟩ := rechristen_run hrun
        exact ⟨hwf.renamed p q name, fun hsound => (wiring_renamed st p q name).symm ▸ hsound⟩
  refine ⟨fun s hs => ?_, fun hnothrow s hs => ?_, reachable_receipts h⟩
  · rcases s.reached_valid_or with hall | ⟨p, hp, hinvalid⟩
    · exact .inl (announces (hstate s hs).1 hall)
    · exact .inr ⟨⟨p, hp, hinvalid⟩, updateSessionsList_fault hp hinvalid⟩
  · obtain ⟨hwf', hsound⟩ := hstate s hs
    apply announces hwf'
    exact fun p hp => valid_of_reached (hsound (reachableNoThrow_sound hnothrow)) hp

end

theorem broadcast_sound_joined :
    letI := parserOf "" .null
    ∃ st s, Transition.run step initial (joining 2 ++ joining 3) = .ok st ∧
      Broadcasting st s ∧ Announces s := by
  let _ := parserOf "" .null
  have hjoined : ∃ st c s, Transition.run step initial (joining 2 ++ joining 3) = .ok st ∧
      st.conn? 3 = some c ∧ c.fnData = .session 1 ∧
      (destroy 1).run (st.unlink 3) = .ret () s :=
    ⟨_, _, _, rfl, rfl, rfl, rfl⟩
  obtain ⟨st, c, s, hrun, hc, hctx, hdestroy⟩ := hjoined
  have hs : Broadcasting st s := .deleteSession hc hctx hdestroy
  have hnothrow : ReachableNoThrow st :=
    Transition.ReachableBy.of_run .init
      (by simp [joining, connect, Action.NoThrow, FactoryRun.made]) hrun
  exact ⟨st, s, hrun, hs, (broadcast_sound hnothrow.reachable).2.1 hnothrow s hs⟩

end Mgws
