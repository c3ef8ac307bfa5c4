import Mgws.Proofs.Broadcast
import Mgws.Proofs.Names
/-!
# Whether the clients know who is there

After a rename, and after the end of a session, every client should hold a list
of the sessions there are.  The list is only sent by broadcasts, so it is current
as long as each of them gets to every session, and sessions come and go in no
other way.
-/

namespace Mgws

open Lib Program

namespace Wiring

variable (w : Wiring)

def holds (c : Wire) : Bool := (c.fnData.userData.bind w.owner).isSome

/-- Enumeration gets to every websocket of the list whose session exists. -/
def Covers : Prop :=
  ∀ c ∈ w.conns, c.isWebsocket = true → w.holds c = true →
    c ∈ w.conns.takeWhile fun d => d.attached.isSome

instance : Decidable w.Covers :=
  inferInstanceAs (Decidable (∀ c ∈ w.conns, _ → _ → _))

end Wiring

namespace Server

variable (st : Server)

/-- The entry of a connection in a complete directory: a websocket whose session
exists has one. -/
def seat (c : Wire) : Option Json :=
  c.attached.bind fun p => (st.name? p).map (SessionManager.entry (sessionId c.ptr))

def roster : List Json := st.wiring.conns.filterMap st.seat

/-- The last change was a rename or the end of a session. -/
def Settled : Prop := st.lastChange = some .renamed ∨ st.lastChange = some .deleted

/-- The last directory sent to each client is complete, unless a session was added
since. -/
def UpToDate : Prop :=
  st.Settled → ∀ c ∈ st.conns, (st.seat c.wire).isSome →
    ∃ entries, c.directories.getLast? = some (directoryMsg entries) ∧ entries.Perm st.roster

end Server

/-- Requests for `/websock` on one connection that make no session come or go before
one is added.  `held` says that the connection leads to a session that exists,
`ws` that it is a websocket. -/
def Spares : Bool → Bool → List (Bool × FactoryRun) → Prop
  | _, _, [] => True
  | _, _, (_, .returns) :: _ => True
  | _, _, (_, .throwsAfter) :: _ => True
  | held, ws, (hasKey, .throwsEarly) :: rest =>
      (held = true → hasKey = true → ws = true) ∧ Spares held (ws || hasKey) rest
  | held, ws, (hasKey, .throwsLate) :: rest =>
      (held = true → ws = false) ∧ Spares false (ws || hasKey) rest

/-- What an action may do while the directories are complete: a broadcast finds
every session, and a factory that throws does not make one come or go. -/
def KeepsDirectory [Nlohmann] (st : Server) : Action → Prop
  | .http k turns => st.Settled → ∀ c, st.conn? k = some c → c.isOpen = true →
      c.pfn = .httpCb → c.isResp = false →
      Spares (st.wiring.holds c.wire) c.isWebsocket (websocks turns)
  | .ws k frame => ∀ j c p name, delivered st (.ws k frame) = some (k, j) →
      st.conn? k = some c → c.fnData = .session p → st.idOf p < 2 ^ 31 →
      j.IsLocalIdEvent (st.idOf p) name → st.wiring.Covers
  | .close k _ => ∀ c p, st.conn? k = some c → c.isClosing = true → c.fnData = .session p →
      (st.wiring.unlink k).Covers
  | _ => True

section

variable {st s : Server} {k : ConnPtr} {p q : SessionPtr} {c : Connection}

/-! ## Seats -/

theorem name?_isSome (st : Server) (p : SessionPtr) :
    (st.name? p).isSome = (st.wiring.owner p).isSome := by
  show ((st.heap p).map _).isSome = ((st.heap p).map _).isSome
  rw [Option.isSome_map, Option.isSome_map]

theorem seat_isSome_iff {c : Wire} :
    (st.seat c).isSome ↔ c.isWebsocket = true ∧ st.wiring.holds c = true := by
  have hname := name?_isSome st
  cases hws : c.isWebsocket <;> cases hctx : c.fnData <;>
    simp [Server.seat, Wire.attached, Wiring.holds, Context.userData, hws, hctx, hname]

theorem seat_eq_none {c : Wire} (h : c.isWebsocket = false ∨ st.wiring.holds c = false) :
    st.seat c = none := by
  by_contra hseat
  obtain ⟨hws, hholds⟩ := seat_isSome_iff.mp (Option.isSome_iff_ne_none.mpr hseat)
  rcases h with h | h
  · rw [h] at hws
    cases hws
  · rw [h] at hholds
    cases hholds

theorem seat_congr (hname : s.name? = st.name?) : s.seat = st.seat := by
  funext c
  rw [Server.seat, Server.seat, hname]

theorem roster_eq (st : Server) : st.roster = st.conns.filterMap fun c => st.seat c.wire := by
  show (st.conns.map _).filterMap _ = _
  rw [List.filterMap_map]
  rfl

/-! ## After a broadcast -/

theorem mem_front_of_seat (hcovers : st.wiring.Covers) (hwf : st.Wf) (hc : c ∈ st.conns)
    (hseat : (st.seat c.wire).isSome) : c ∈ st.front := by
  obtain ⟨hws, hholds⟩ := seat_isSome_iff.mp hseat
  have hmem := hcovers c.wire (List.mem_map_of_mem hc) hws hholds
  have hfront : (st.wiring.conns.takeWhile fun d => d.attached.isSome) =
      st.front.map Connection.wire := List.takeWhile_map ..
  rw [hfront] at hmem
  obtain ⟨d, hd, hwire⟩ := List.mem_map.mp hmem
  have hptr : d.ptr = c.ptr := congrArg Wire.ptr hwire
  obtain rfl := hwf.eq_of_ptr (mem_conns_of_front hd) hc hptr
  exact hd

theorem seat_of_front (hall : ∀ p ∈ st.reached, st.Valid p) (hc : c ∈ st.front) :
    st.seat c.wire = some (SessionManager.entry (sessionId c.ptr) (st.nameAt c)) := by
  obtain ⟨p, hp⟩ := attached_of_front hc
  obtain ⟨x, hx, -⟩ := hall p (mem_reached_of_front hc hp)
  rw [Server.seat, Connection.attached_wire, hp, Option.bind_some, Server.name?, hx,
    Server.nameAt, hp, Option.elim, Server.nameOf, hx]
  rfl

theorem roster_eq_directory (hwf : st.Wf) (hall : ∀ p ∈ st.reached, st.Valid p)
    (hcovers : st.wiring.Covers) : st.roster = st.directory := by
  let rest := st.conns.dropWhile fun c => c.attached.isSome
  have hsplit : st.conns = st.front ++ rest := (List.takeWhile_append_dropWhile ..).symm
  have hrest : rest.filterMap (fun c => st.seat c.wire) = [] := by
    apply List.filterMap_eq_nil_iff.mpr
    intro c hc
    by_contra hseat
    have hmem : c ∈ st.conns := (List.dropWhile_suffix _).subset hc
    have hfront := mem_front_of_seat hcovers hwf hmem (Option.isSome_iff_ne_none.mpr hseat)
    have hnodup := hwf.nodup_conns
    rw [hsplit, List.map_append, List.nodup_append] at hnodup
    exact hnodup.2.2 c.ptr (List.mem_map_of_mem hfront) c.ptr (List.mem_map_of_mem hc) rfl
  calc st.roster
      = st.conns.filterMap fun c => st.seat c.wire := roster_eq st
    _ = st.front.filterMap fun c => st.seat c.wire := by
        rw [hsplit, List.filterMap_append, hrest, List.append_nil]
    _ = st.front.filterMap fun c =>
          some (SessionManager.entry (sessionId c.ptr) (st.nameAt c)) :=
        List.filterMap_congr fun c hc => seat_of_front hall hc
    _ = st.directory := congrFun (List.filterMap_eq_map ..) _

/-- A broadcast that finds every session brings every client up to date. -/
theorem upToDate_announce (hwf : st.Wf) (hall : ∀ p ∈ st.reached, st.Valid p)
    (hcovers : st.wiring.Covers) : st.announce.UpToDate := by
  intro _ c hc hseat
  have hwiring : st.announce.wiring = st.wiring := by
    rw [← broadcast_eq_announce hwf hall]
    exact wiring_broadcast
  have hseats : st.announce.seat = st.seat := rfl
  have hroster : st.announce.roster = st.directory := by
    rw [Server.roster, hwiring, hseats]
    exact roster_eq_directory hwf hall hcovers
  rw [hroster]
  refine ⟨st.directory, ?_, .refl _⟩
  obtain ⟨d, hd, rfl⟩ := List.mem_map.mp hc
  have hwire : ∀ e : Connection, (if e.ptr ∈ st.front.map (·.ptr) then
      { e with send := e.send ++ [.text (directoryMsg st.directory)] } else e).wire = e.wire := by
    intro e
    split <;> rfl
  rw [hwire, hseats] at hseat
  have hfront := mem_front_of_seat hcovers hwf hd hseat
  rw [if_pos (List.mem_map_of_mem hfront), Connection.directories, List.filterMap_append,
    List.filterMap_cons_some (directory?_directoryMsg _)]
  exact List.getLast?_concat ..

/-! ## Effects without a broadcast -/

/-- Where the seats stay the same and no broadcast is sent, the directories stay
complete. -/
theorem Server.UpToDate.quiet (h : st.UpToDate) (hs : Quiet st s)
    (hsettled : s.Settled → st.Settled)
    (hseats : s.Settled → s.wiring.conns.map s.seat = st.wiring.conns.map st.seat) :
    s.UpToDate := by
  intro hset c hc hseat
  obtain ⟨g, hg, hconns⟩ := hs
  have hseats := hseats hset
  have hroster : s.roster = st.roster := by
    have hid : ∀ t : Server, t.roster = (t.wiring.conns.map t.seat).filterMap id := by
      intro t
      rw [List.filterMap_map]
      rfl
    rw [hid, hseats, hid]
  have hsame : ∀ d ∈ st.conns, s.seat (g d).wire = st.seat d.wire := by
    apply List.map_inj_left.mp
    change (s.conns.map _).map _ = (st.conns.map _).map _ at hseats
    rwa [hconns, List.map_map, List.map_map, List.map_map] at hseats
  rw [hconns] at hc
  obtain ⟨d, hd, rfl⟩ := List.mem_map.mp hc
  rw [hsame d hd] at hseat
  rw [(hg d).2, hroster]
  exact h (hsettled hset) d hd hseat

theorem Server.UpToDate.same (h : st.UpToDate) (hs : Quiet st s)
    (hchange : s.lastChange = st.lastChange) (hwiring : s.wiring = st.wiring)
    (hname : s.name? = st.name?) : s.UpToDate := by
  apply h.quiet hs
  · unfold Server.Settled
    rw [hchange]
    exact id
  · rw [hwiring, seat_congr hname]
    exact fun _ => rfl

theorem lastChange_tell (msg : Json) : (st.tell p msg).lastChange = st.lastChange := by
  rw [Server.tell]
  cases st.heap p <;> rfl

theorem lastChange_probe (ms : Int) : (st.probe p ms).lastChange = st.lastChange := by
  rw [Server.probe]
  cases st.heap p with
  | none => rfl
  | some x =>
      simp only [Option.elim]
      split <;> rfl

theorem Server.UpToDate.accept (h : st.UpToDate) : st.accept.UpToDate := by
  have hseats : st.accept.seat = st.seat := seat_congr (name?_congr rfl)
  have hroster : st.accept.roster = st.roster := by
    rw [Server.roster, Server.wiring_accept, Wiring.accept, hseats]
    exact List.filterMap_cons_none rfl
  intro hset c hc hseat
  rw [hroster]
  rcases List.mem_cons.mp hc with rfl | hc
  · cases hseat
  · exact h hset c hc hseat

theorem Server.UpToDate.unlink (h : st.UpToDate) (hwf : st.Wf) (hc : c ∈ st.conns)
    (hctx : c.fnData = .manager) : (st.unlink c.ptr).UpToDate := by
  have hseats : (st.unlink c.ptr).seat = st.seat := seat_congr (name?_congr rfl)
  have hempty : st.seat c.wire = none := by
    apply seat_eq_none
    right
    simp [Wiring.holds, Connection.wire, hctx, Context.userData]
  have hroster : (st.unlink c.ptr).roster = st.roster := by
    rw [roster_eq, roster_eq, hseats]
    show (st.conns.filter _).filterMap _ = _
    rw [List.filterMap_filter]
    apply List.filterMap_congr
    intro d hd
    split
    · rfl
    · next hptr =>
        have hptr : d.ptr = c.ptr := by simpa using hptr
        rw [hwf.eq_of_ptr hd hc hptr, hempty]
  intro hset d hd hseat
  rw [hroster]
  rw [hseats] at hseat
  exact h hset d (List.mem_filter.mp hd).1 hseat

/-! ## Requests -/

def Undisturbed (st : Server) (k : ConnPtr) (hasKey : Bool) (run : FactoryRun) : Prop :=
  st.Settled → ∀ c ∈ st.wiring.conns, c.ptr = k →
    Spares (st.wiring.holds c) c.isWebsocket [(hasKey, run)]

theorem settled_websock {hasKey : Bool} {run : FactoryRun}
    (h : (st.websock k hasKey run).Settled) : run.made = false ∧ st.Settled := by
  cases run with
  | returns =>
      rw [Server.Settled, Server.websock, lastChange_tell] at h
      rcases h with h | h
      · cases h
      · cases h
  | throwsAfter =>
      rcases h with h | h
      · cases h
      · cases h
  | throwsEarly | throwsLate =>
      refine ⟨rfl, ?_⟩
      rwa [Server.Settled, ← Server.lastChange_upgrade hasKey]

theorem Server.Wf.owner_next (hwf : st.Wf) : st.wiring.owner st.nextSession = none := by
  by_contra howner
  obtain ⟨k, hk⟩ := Option.ne_none_iff_exists'.mp howner
  exact absurd (hwf.wiring.ownerFresh _ _ hk) (lt_irrefl _)

theorem Spares.head {held ws : Bool} {x : Bool × FactoryRun} {xs : List (Bool × FactoryRun)}
    (h : Spares held ws (x :: xs)) : Spares held ws [x] := by
  obtain ⟨hasKey, run⟩ := x
  cases run with
  | returns | throwsAfter => trivial
  | throwsEarly => exact ⟨h.1, trivial⟩
  | throwsLate => exact ⟨h.1, trivial⟩

theorem holds_joined {c : Wire} (hwf : st.Wf) (hptr : c.ptr = k) (hasKey : Bool)
    {run : FactoryRun} (hrun : run.made = false) :
    (st.websock k hasKey run).wiring.holds (c.joined k hasKey run st.nextSession) =
      (decide (run = .throwsEarly) && st.wiring.holds c) := by
  have howner : (st.websock k hasKey run).wiring.owner = st.wiring.owner := by
    funext q
    rw [Server.wiring_websock, Wiring.owner_join, if_neg (by simp [hrun])]
  rw [Wiring.holds, howner, Wiring.holds]
  cases run with
  | returns | throwsAfter => cases hrun
  | throwsEarly => simp [Wire.joined, hptr]
  | throwsLate => simp [Wire.joined, hptr, Context.userData, hwf.owner_next]

theorem Spares.tail {c : Wire} (hwf : st.Wf) (hptr : c.ptr = k) {hasKey : Bool} {run : FactoryRun}
    {rest : List (Bool × FactoryRun)} (hrun : run.made = false)
    (h : Spares (st.wiring.holds c) c.isWebsocket ((hasKey, run) :: rest)) :
    Spares ((st.websock k hasKey run).wiring.holds (c.joined k hasKey run st.nextSession))
      (c.joined k hasKey run st.nextSession).isWebsocket rest := by
  have hws : (c.joined k hasKey run st.nextSession).isWebsocket = (c.isWebsocket || hasKey) := by
    simp [Wire.joined, hptr]
  rw [holds_joined hwf hptr hasKey hrun, hws]
  cases run with
  | returns | throwsAfter => cases hrun
  | throwsEarly => exact h.2
  | throwsLate => exact h.2

theorem seat_websock {c : Wire} (hwf : st.Wf) (hc : c ∈ st.wiring.conns) (hasKey : Bool)
    (run : FactoryRun) : (st.websock k hasKey run).seat c = st.seat c := by
  rw [Server.seat, Server.seat]
  cases hattached : c.attached with
  | none => rfl
  | some p =>
      have hctx := (Wire.attached_eq_some_iff.mp hattached).2
      have hold : p < st.nextSession :=
        hwf.wiring.fresh c (Wiring.mem_allocated_of_mem_conns hc) p hctx
      rw [Option.bind_some, Option.bind_some, name?_websock hasKey run hold.ne]

/-- A factory that throws, in a request that `Spares` allows, changes no seat. -/
theorem seat_joined {c : Wire} (hwf : st.Wf) (hc : c ∈ st.wiring.conns) {hasKey : Bool}
    {run : FactoryRun} (hrun : run.made = false)
    (h : c.ptr = k → Spares (st.wiring.holds c) c.isWebsocket [(hasKey, run)]) :
    (st.websock k hasKey run).seat (c.joined k hasKey run st.nextSession) = st.seat c := by
  by_cases hptr : c.ptr = k
  swap
  · rw [Wire.joined, if_neg hptr]
    exact seat_websock hwf hc hasKey run
  have hholds := holds_joined hwf hptr hasKey hrun
  have hspares := h hptr
  cases run with
  | returns | throwsAfter => cases hrun
  | throwsEarly =>
      cases hheld : st.wiring.holds c with
      | true =>
          have hws : (c.isWebsocket || hasKey) = c.isWebsocket := by
            cases hasKey with
            | false => exact Bool.or_false _
            | true => rw [hspares.1 hheld rfl, Bool.true_or]
          have hsame : c.joined k hasKey .throwsEarly st.nextSession = c := by
            rw [Wire.joined, if_pos hptr, hws, if_pos rfl]
          rw [hsame]
          exact seat_websock hwf hc hasKey .throwsEarly
      | false =>
          have hempty : st.seat c = none := seat_eq_none (.inr hheld)
          rw [hempty]
          exact seat_eq_none (.inr (by rw [hholds, hheld, Bool.and_false]))
  | throwsLate =>
      have hempty : st.seat c = none := by
        apply seat_eq_none
        cases hheld : st.wiring.holds c with
        | true => exact .inl (hspares.1 hheld)
        | false => exact .inr rfl
      rw [hempty]
      exact seat_eq_none (.inr hholds)

theorem seats_websock (hwf : st.Wf) {hasKey : Bool} {run : FactoryRun} (hrun : run.made = false)
    (h : ∀ c ∈ st.wiring.conns, c.ptr = k →
      Spares (st.wiring.holds c) c.isWebsocket [(hasKey, run)]) :
    (st.websock k hasKey run).wiring.conns.map (st.websock k hasKey run).seat =
      st.wiring.conns.map st.seat := by
  rw [Server.wiring_websock, Wiring.conns_join, List.map_map]
  exact List.map_congr_left fun c hc => seat_joined hwf hc hrun (h c hc)

theorem Inner.lastChange_eq (h : Inner none NoJoin st s) : s.lastChange = st.lastChange := by
  cases h with
  | queue | conn | session | pong => rfl
  | rename hm => cases hm
  | websock _ hR => exact hR.elim

theorem pending_undisturbed (k : ConnPtr) :
    Pending Undisturbed k fun ws s => ∀ c ∈ s.wiring.conns, c.ptr = k → s.Wf ∧
      (s.Settled → Spares (s.wiring.holds c) c.isWebsocket ws) where
  inner ws s t hinner hK := by
    rw [Inners.wiring_eq (.single hinner)]
    intro c hc hptr
    obtain ⟨hwf, hspares⟩ := hK c hc hptr
    refine ⟨hwf.inner hinner, fun hset => hspares ?_⟩
    rwa [Server.Settled, ← hinner.lastChange_eq]
  websock hasKey run ws s hk hK := by
    constructor
    · exact fun hset c hc hptr => ((hK c hc hptr).2 hset).head
    · intro c hc hptr
      rw [Server.wiring_websock, Wiring.conns_join] at hc
      obtain ⟨d, hd, rfl⟩ := List.mem_map.mp hc
      have hdk : d.ptr = k := (Wire.joined_ptr ..).symm.trans hptr
      obtain ⟨hwf, hspares⟩ := hK d hd hdk
      have hjoin : Inner none (fun _ _ _ _ => True) s (s.websock k hasKey run) :=
        .websock hk trivial
      refine ⟨hwf.inner hjoin, fun hset => ?_⟩
      obtain ⟨hrun, hset⟩ := settled_websock hset
      exact (hspares hset).tail hwf hdk hrun

/-! ## All effects -/

def Heard (m : Option (ConnPtr × Json)) (st : Server) : Prop :=
  ∀ k j c p name, m = some (k, j) → c ∈ st.conns → c.ptr = k → c.fnData = .session p →
    st.idOf p < 2 ^ 31 → j.IsLocalIdEvent (st.idOf p) name → st.wiring.Covers

theorem Heard.congr {m : Option (ConnPtr × Json)} (h : Heard m st)
    (hwiring : s.wiring = st.wiring) : Heard m s := by
  intro k j c p name hm hc hptr hctx hsmall hevent
  rw [idOf_congr hwiring] at hsmall hevent
  rw [hwiring]
  obtain ⟨d, hd, hwire⟩ := Server.exists_wire_of_wiring_eq hwiring hc
  have hdptr : d.ptr = k := (congrArg Wire.ptr hwire).trans hptr
  have hdctx : d.fnData = .session p := (congrArg Wire.fnData hwire).trans hctx
  exact h k j d p name hm hd hdptr hdctx hsmall hevent

variable {m : Option (ConnPtr × Json)} {R : Server → ConnPtr → Bool → FactoryRun → Prop}

theorem Inner.upToDate (h : Inner m R st s) (hwf : st.Wf) (hst : st.UpToDate)
    (hm : Heard m st) (hR : ∀ k hasKey run, R st k hasKey run → Undisturbed st k hasKey run) :
    s.UpToDate := by
  have hrefl : Quiet st st := .of_conns_eq rfl
  cases h with
  | queue hframe => exact hst.same (hrefl.queue hframe) rfl (Server.wiring_queue _) rfl
  | conn hf =>
      exact hst.same (hrefl.conn hf) rfl (Server.wiring_updateConn fun c => (hf c).wire) rfl
  | session hf =>
      exact hst.same (.of_conns_eq rfl) rfl
        (Server.wiring_updateSession fun x => (hf x).connection)
        (name?_updateSession fun x => (hf x).userName)
  | pong =>
      exact hst.same (.of_conns_eq rfl) rfl (Server.wiring_updateSession fun _ => rfl)
        (name?_updateSession fun _ => rfl)
  | @rename k j c p q name hsome hc hk hctx hvalid hall hsmall hevent =>
      have hall' := valid_renamed p q name hall
      rw [broadcast_eq_announce (hwf.renamed p q name) hall']
      apply upToDate_announce (hwf.renamed p q name) hall'
      rw [wiring_renamed]
      exact hm k j c p name hsome hc hk hctx hsmall hevent
  | @websock k hasKey run hk hjoin =>
      apply hst.quiet (hrefl.websock hasKey run)
      · exact fun hset => (settled_websock hset).2
      · intro hset
        obtain ⟨hrun, hset⟩ := settled_websock hset
        exact seats_websock hwf hrun (hR k hasKey run hjoin hset)

theorem Inners.upToDate (h : Inners none Undisturbed st s) (hwf : st.Wf)
    (hst : st.UpToDate) : s.UpToDate := by
  have hinv := h.invariant (I := fun t => t.Wf ∧ t.UpToDate) ⟨hwf, hst⟩ ?_
  · exact hinv.2
  · intro t u hinner ⟨ht, hup⟩
    have hnothing : Heard none t := fun k j c p name hm => by cases hm
    exact ⟨ht.inner hinner, hinner.upToDate ht hup hnothing fun _ _ _ hR => hR⟩

/-- A message does not change what enumeration gets to. -/
theorem Inners.upToDate_of_heard (h : Inners m NoJoin st s) (hwf : st.Wf)
    (hst : st.UpToDate) (hm : Heard m st) : s.UpToDate := by
  have hinv := h.invariant (I := fun t => t.Wf ∧ t.UpToDate ∧ t.wiring = st.wiring)
    ⟨hwf, hst, rfl⟩ ?_
  · exact hinv.2.1
  · intro t u hinner ⟨ht, hup, hwiring⟩
    have hsingle : Inners m NoJoin t u := .single hinner
    have hnone : ∀ k hasKey run, NoJoin t k hasKey run → Undisturbed t k hasKey run :=
      fun _ _ _ hfalse => hfalse.elim
    refine ⟨ht.inner hinner, ?_, hsingle.wiring_eq.trans hwiring⟩
    exact hinner.upToDate ht hup (hm.congr hwiring) hnone

theorem Wiring.Covers.delete {w : Wiring} (h : w.Covers) (p : SessionPtr) :
    (w.delete p).Covers := by
  intro c hc hws hholds
  apply h c hc hws
  obtain ⟨k, hk⟩ := Option.isSome_iff_exists.mp hholds
  obtain ⟨q, hq, howner⟩ := Option.bind_eq_some_iff.mp hk
  rw [Wiring.holds, hq, Option.bind_some]
  simp only [Wiring.delete] at howner
  split at howner
  · cases howner
  · rw [howner]
    rfl

theorem Closes.upToDate (h : Closes st c s) (hwf : st.Wf) (hc : c ∈ st.conns)
    (hst : st.UpToDate) (hcovers : ∀ p, c.fnData = .session p → (st.wiring.unlink c.ptr).Covers) :
    s.UpToDate := by
  cases h with
  | plain hctx => exact hst.unlink hwf hc hctx
  | @session p hctx hvalid hall =>
      have hleft := hwf.left c p
      rw [broadcast_eq_announce hleft hall]
      apply upToDate_announce hleft hall
      rw [Server.wiring_delete, Server.wiring_unlink]
      exact (hcovers p hctx).delete p

theorem Server.UpToDate.probes (h : st.UpToDate) (ps : List SessionPtr) (ms : Int) :
    (st.probes ps ms).UpToDate := by
  induction ps generalizing st with
  | nil => exact h
  | cons p ps ih =>
      have hprobe : Quiet st (st.probe p ms) := (Quiet.of_conns_eq rfl).probe ms
      exact ih (h.same hprobe (lastChange_probe ms) (wiring_probe ms) (name?_probe ms))

/-! ## Steps and runs -/

variable [Nlohmann] {a : Action}

theorem joins_undisturbed (hwf : st.Wf) (hdetached : st.detached = none)
    (h : KeepsDirectory st a) : Joins Undisturbed st a := by
  cases a with
  | http k turns =>
      refine ⟨_, pending_undisturbed k, fun c hc hopen hpfn hresp d hd hk => ⟨hwf, ?_⟩⟩
      have hmem : c.wire ∈ st.wiring.conns :=
        List.mem_map_of_mem (Server.mem_conns_of_conn? hdetached hc)
      have hptr : d.ptr = c.wire.ptr := hk.trans (Server.ptr_of_conn? hc).symm
      obtain rfl := hwf.wiring.eq_of_ptr (Wiring.mem_allocated_of_mem_conns hd)
        (Wiring.mem_allocated_of_mem_conns hmem) hptr
      exact fun hset => h hset c hc hopen hpfn hresp
  | close k turns =>
      refine ⟨_, pending_undisturbed k, fun c hc hclosing hpfn hresp s hs d hd hk => ?_⟩
      obtain ⟨e, he, rfl⟩ := List.mem_map.mp hd
      exact absurd hk (hs e he)
  | _ => trivial

theorem step_upToDate (h : Reachable st) (hst : st.UpToDate) (hkeeps : KeepsDirectory st a)
    (hstep : step st a = .ok s) : s.UpToDate := by
  obtain ⟨hwf, hdetached⟩ := reachable_wf h
  rcases delivered_eq_none_or st a with hnone | ⟨k, frame, rfl⟩
  · cases step_took hwf hdetached (joins_undisturbed hwf hdetached hkeeps) hstep with
    | inners hinners =>
        rw [hnone] at hinners
        exact hinners.upToDate hwf hst
    | accept hinner =>
        have haccept : Effect none NoJoin st st.accept := .accept hdetached
        exact Inners.upToDate (.single hinner) (hwf.effect haccept) hst.accept
    | clock => exact hst.quiet (.of_conns_eq rfl) id fun _ => rfl
    | tick => exact hst.probes st.reached st.now
    | @close k turns c t u hc hclosing hcloses hinners =>
        have hmem := Server.mem_conns_of_conn? hdetached hc
        have hclose : Effect none NoJoin st t := .close hmem hdetached hcloses
        have ht : t.UpToDate := by
          apply hcloses.upToDate hwf hmem hst
          intro p hctx
          rw [Server.ptr_of_conn? hc]
          exact hkeeps c p hc hclosing hctx
        have hu : u.UpToDate := hinners.upToDate (hwf.effect hclose) ht
        exact hu.quiet (.of_conns_eq rfl) id fun _ => rfl
  · have hjoins : Joins NoJoin st (.ws k frame) := trivial
    cases step_took hwf hdetached hjoins hstep with
    | inners hinners =>
        apply hinners.upToDate_of_heard hwf hst
        intro k' j c p name hm hc hptr hctx hsmall hevent
        obtain rfl := eq_of_delivered hm
        exact hkeeps j c p name hm (hptr ▸ hwf.conn?_of_mem hc) hctx hsmall hevent

/-- Along every run whose actions meet the condition, the directories are
complete. -/
theorem always_upToDate {es : List Action}
    (hmeets : Transition.Meets step KeepsDirectory initial es) :
    Transition.Always step Server.UpToDate initial es := by
  have hinit : initial.UpToDate := by
    rintro (hset | hset)
    · cases hset
    · cases hset
  refine Transition.Always.of_meets (A := fun _ => True) .init (fun _ _ => trivial) hinit ?_ hmeets
  exact fun t u a ht hup _ hkeeps hstep => step_upToDate ht hup hkeeps hstep

end

theorem always_upToDate_leaving :
    letI := parserOf "" .null
    Transition.Always step Server.UpToDate initial
      (joining 2 ++ joining 3 ++ [.error 3, .close 3 []]) := by
  let _ := parserOf "" .null
  apply always_upToDate
  rintro _ ⟨⟩
  refine ⟨trivial, ?_⟩
  rintro _ ⟨⟩
  refine ⟨trivial, ?_⟩
  rintro _ ⟨⟩
  refine ⟨?_, ?_⟩
  · rintro (hset | hset)
    · cases hset
    · cases hset
  rintro _ ⟨⟩
  refine ⟨trivial, ?_⟩
  rintro _ ⟨⟩
  refine ⟨trivial, ?_⟩
  rintro _ ⟨⟩
  refine ⟨?_, ?_⟩
  · rintro (hset | hset)
    · cases hset
    · cases hset
  rintro _ ⟨⟩
  refine ⟨trivial, ?_⟩
  rintro _ ⟨⟩
  refine ⟨?_, trivial⟩
  rintro c p - - -
  decide

/-- A connection that has not asked for `/websock` yet keeps a client from being told
that another one left. -/
theorem not_upToDate_of_accept :
    ¬∀ [Nlohmann] (es : List Action), Transition.Always step Server.UpToDate initial es := by
  intro hall
  let _ := parserOf "" .null
  have hstale : ∃ st c, Transition.run step initial
      (joining 2 ++ joining 3 ++ [.accept true, .error 3, .close 3 []]) = .ok st ∧
      st.Settled ∧ c ∈ st.conns ∧ (st.seat c.wire).isSome ∧ c.directories = [] :=
    ⟨_, _, rfl, .inr rfl, .tail _ (.head _), rfl, rfl⟩
  obtain ⟨st, c, hrun, hset, hc, hseat, hnone⟩ := hstale
  obtain ⟨entries, hlast, -⟩ := (hall _).last hrun hset c hc hseat
  rw [hnone] at hlast
  cases hlast

end Mgws
