import Mgws.Proofs.Actions
/-!
# What a lookup by id finds

A lookup finds the session of a connection exactly when enumeration gets that
far, the id is one that `std::stoi` reads, and no connection further on, up to
the gap that ends the enumeration, has the same id.
-/

namespace Mgws

open Lib Program

def Server.front (st : Server) : List Connection :=
  st.conns.takeWhile fun c => c.attached.isSome

/-- A lookup by the decimal text of the id of `c` ends at `c`. -/
structure Findable (st : Server) (c : Connection) : Prop where
  /-- No factory has thrown on a connection that the enumeration visits. -/
  valid : ∀ d ∈ st.front, ∀ p, d.fnData = .session p → st.Valid p
  last : ∃ pre post, st.front = pre ++ c :: post ∧
    ∀ d ∈ post, sessionId d.ptr ≠ sessionId c.ptr
  small : sessionId c.ptr < 2 ^ 31

section

variable {st : Server} {c d : Connection} {p q : SessionPtr}

theorem reached_eq_front : st.reached = st.front.filterMap Connection.attached :=
  walk_eq_takeWhile _ _

theorem mem_conns_of_front (h : c ∈ st.front) : c ∈ st.conns :=
  (List.takeWhile_prefix _).subset h

theorem attached_of_front (h : c ∈ st.front) : ∃ p, c.attached = some p :=
  Option.isSome_iff_exists.mp
    (List.mem_takeWhile_imp (p := fun c : Connection => c.attached.isSome) h)

theorem mem_reached_of_front (hc : c ∈ st.front) (hp : c.attached = some p) :
    p ∈ st.reached := by
  rw [reached_eq_front]
  exact List.mem_filterMap.mpr ⟨c, hc, hp⟩

theorem idOf_eq (hwf : st.Wf) (hc : c ∈ st.conns) (hctx : c.fnData = .session p)
    (hp : st.Valid p) : st.idOf p = sessionId c.ptr := by
  obtain ⟨s, hs, -⟩ := hp
  rw [Server.idOf, hs, Option.elim, hwf.connection_eq hc hctx hs]

/-- What the enumeration visits is split as the list of connections is. -/
theorem reached_split (hwf : st.Wf) (hc : c ∈ st.conns) (hp : c.attached = some p)
    {ps qs : List SessionPtr} (h : st.reached = ps ++ p :: qs) :
    ∃ pre post, st.front = pre ++ c :: post ∧ post.filterMap Connection.attached = qs := by
  rw [reached_eq_front] at h
  obtain ⟨pre, rest, hfront, -, hrest⟩ := List.filterMap_eq_append_iff.mp h
  obtain ⟨gap, d, post, rfl, -, hd, hpost⟩ := List.filterMap_eq_cons_iff.mp hrest
  have hmem : d ∈ st.conns := mem_conns_of_front (by simp [hfront])
  obtain rfl := hwf.eq_of_fnData hc hmem (Connection.fnData_of_attached hp)
    (Connection.fnData_of_attached hd)
  exact ⟨pre ++ gap, post, by simp [hfront], hpost⟩

theorem lookup_eq_some_iff {n : Nat} :
    st.lookup n = some p ↔ ∃ ps qs, st.reached = ps ++ p :: qs ∧ st.idOf p = n ∧
      ∀ q ∈ qs, st.idOf q ≠ n := by
  simp [Server.lookup, lastMatch_eq_some_iff]

theorem lookup_iff (hwf : st.Wf) (hc : c ∈ st.conns) (hp : c.attached = some p)
    (hvalid : ∀ d ∈ st.front, ∀ q, d.fnData = .session q → st.Valid q) (hpv : st.Valid p) :
    st.lookup (st.idOf p) = some p ↔
      ∃ pre post, st.front = pre ++ c :: post ∧ ∀ d ∈ post, sessionId d.ptr ≠ sessionId c.ptr := by
  have hid := idOf_eq hwf hc (Connection.fnData_of_attached hp) hpv
  have hids : ∀ d ∈ st.front, ∀ q, d.attached = some q → st.idOf q = sessionId d.ptr := by
    intro d hd q hq
    have hctx := Connection.fnData_of_attached hq
    exact idOf_eq hwf (mem_conns_of_front hd) hctx (hvalid d hd q hctx)
  rw [lookup_eq_some_iff]
  constructor
  · rintro ⟨ps, qs, hsplit, -, hne⟩
    obtain ⟨pre, post, hfront, rfl⟩ := reached_split hwf hc hp hsplit
    refine ⟨pre, post, hfront, fun d hd => ?_⟩
    have hmem : d ∈ st.front := by simp [hfront, hd]
    obtain ⟨q, hq⟩ := attached_of_front hmem
    rw [← hids d hmem q hq, ← hid]
    exact hne q (List.mem_filterMap.mpr ⟨d, hd, hq⟩)
  · rintro ⟨pre, post, hfront, hne⟩
    refine ⟨pre.filterMap Connection.attached, post.filterMap Connection.attached, ?_, rfl, ?_⟩
    · rw [reached_eq_front, hfront, List.filterMap_append, List.filterMap_cons_some hp]
    · intro q hq
      obtain ⟨d, hd, hq⟩ := List.mem_filterMap.mp hq
      rw [hids d (by simp [hfront, hd]) q hq, hid]
      exact hne d hd

/-! ## The text of an id -/

theorem valid_front_iff :
    (∀ d ∈ st.front, ∀ p, d.fnData = .session p → st.Valid p) ↔
      ∀ p ∈ st.reached, st.Valid p := by
  rw [reached_eq_front]
  constructor
  · intro h p hp
    obtain ⟨d, hd, hattached⟩ := List.mem_filterMap.mp hp
    exact h d hd p (Connection.fnData_of_attached hattached)
  · intro h d hd p hp
    obtain ⟨q, hq⟩ := attached_of_front hd
    have hsame := Connection.fnData_of_attached hq
    rw [hp] at hsame
    cases hsame
    exact h p (List.mem_filterMap.mpr ⟨d, hd, hq⟩)

/-- A lookup by the text of an id succeeds in one way only. -/
theorem getSessionByIdString_repr_iff {n : Nat} :
    (SessionManager.getSessionByIdString n.repr).run st = .ret (some p) st ↔
      (∀ q ∈ st.reached, st.Valid q) ∧ n < 2 ^ 31 ∧ st.lookup n = some p := by
  by_cases hn : n < 2 ^ 31
  · have hi : stoi n.repr = .ok (n : Int) := by rw [stoi_repr, if_pos hn]
    rcases st.reached_valid_or with hall | ⟨q, hq, hinvalid⟩
    · rw [getSessionByIdString_run hall hi, toSessionId_natCast hn]
      constructor
      · intro hrun
        injection hrun with hlookup
        exact ⟨hall, hn, hlookup⟩
      · rintro ⟨-, -, hlookup⟩
        rw [hlookup]
    · obtain ⟨f, hf⟩ := getSessionByIdString_fault hq hinvalid hi
      rw [hf]
      exact ⟨nofun, fun h => absurd (h.1 q hq) hinvalid⟩
  · have hi : stoi n.repr = .error .outOfRange := by rw [stoi_repr, if_neg hn]
    rw [getSessionByIdString_throw hi]
    exact ⟨nofun, fun h => absurd h.2.1 hn⟩

/-- The lookup of its own id leads a session back to itself exactly when it is
findable. -/
theorem findable_iff (hwf : st.Wf) (hc : c ∈ st.conns) (hctx : c.fnData = .session p)
    (hp : st.Valid p) :
    Findable st c ↔
      (∀ q ∈ st.reached, st.Valid q) ∧ st.idOf p < 2 ^ 31 ∧ st.lookup (st.idOf p) = some p := by
  have hid := idOf_eq hwf hc hctx hp
  rw [← valid_front_iff]
  constructor
  · rintro ⟨hvalid, ⟨pre, post, hfront, hne⟩, hsmall⟩
    have hfound : c ∈ st.front := by simp [hfront]
    obtain ⟨q, hq⟩ := attached_of_front hfound
    have hsame := Connection.fnData_of_attached hq
    rw [hctx] at hsame
    cases hsame
    exact ⟨hvalid, hid ▸ hsmall, (lookup_iff hwf hc hq hvalid hp).mpr ⟨pre, post, hfront, hne⟩⟩
  · rintro ⟨hvalid, hsmall, hlookup⟩
    obtain ⟨d, hd, hattached⟩ := mem_walk (lookup_mem hlookup).1
    obtain rfl := hwf.eq_of_fnData hc hd hctx (Connection.fnData_of_attached hattached)
    exact ⟨hvalid, (lookup_iff hwf hc hattached hvalid hp).mp hlookup, hid ▸ hsmall⟩

/-! ## A session looks itself up -/

/-- The lookup that handles a `LocalIdEvent` finds the session itself, and no
message makes the session follow a null pointer. -/
structure FindsItself [Nlohmann] (st : Server) (p : SessionPtr) : Prop where
  lookup : (SessionManager.getSessionByIdString (st.idOf p).repr).run st = .ret (some p) st
  handled : ∀ data, (Peer.onMessage p data).run st ≠ .fault .nullSession

variable [Nlohmann]

/-- A message returns when the pointers are valid and the lookup of the
receiver's own id, should it be made, finds some session. -/
theorem onMessage_returns (data : Option (List UInt8)) (hp : st.Valid p)
    (hall : ∀ q ∈ st.reached, st.Valid q)
    (hself : st.idOf p < 2 ^ 31 → (st.lookup (st.idOf p)).isSome) :
    ∃ s, (Peer.onMessage p data).run st = .ret () s := by
  by_cases hdelivers : ∃ j key, Delivers data j key
  swap
  · push Not at hdelivers
    exact ⟨st, onMessage_ignored hp hdelivers⟩
  obtain ⟨j, key, hdelivers⟩ := hdelivers
  have htype := hdelivers.type
  cases hhandler : st.handlerOf p key with
  | none => exact ⟨_, onMessage_unknown hp hdelivers hhandler⟩
  | some handler =>
      suffices hcall : ∃ s, (Peer.call p j (some handler)).run st = .ret () s by
        obtain ⟨s, hs⟩ := hcall
        refine ⟨s, onMessage_of_ret hp hdelivers ?_⟩
        rw [enter_of_handlerOf hhandler, hhandler]
        exact hs
      cases handler with
      | registerSession => exact ⟨st, onRegisterSession_run htype⟩
      | localIdEvent =>
          by_cases hignored : st.idOf p < 2 ^ 31 ∧ (j.newName (st.idOf p)).isSome
          · obtain ⟨hid, hname⟩ := hignored
            obtain ⟨name, hname⟩ := Option.isSome_iff_exists.mp hname
            obtain ⟨q, hq⟩ := Option.isSome_iff_exists.mp (hself hid)
            exact ⟨_, onLocalIdEvent_found hp htype hname hall hid hq⟩
          · refine ⟨st, onLocalIdEvent_ignored hp htype ?_⟩
            by_cases hid : st.idOf p < 2 ^ 31
            · exact .inl (Option.not_isSome_iff_eq_none.mp fun hname => hignored ⟨hid, hname⟩)
            · exact .inr (by omega)
      | forwardMessage => exact ⟨_, onForwardMessage_run htype fun _ => hall⟩
      | heartbeat =>
          obtain ⟨j', -, hrun⟩ := onHeartbeat_run hp htype
          exact ⟨_, hrun⟩

/-- A session of a reachable server finds itself exactly when its connection is
findable. -/
theorem findsItself_iff_findable (h : Reachable st) (hc : c ∈ st.conns)
    (hctx : c.fnData = .session p) (hp : st.Valid p) : FindsItself st p ↔ Findable st c := by
  obtain ⟨hwf, -⟩ := reachable_wf h
  rw [findable_iff hwf hc hctx hp, ← getSessionByIdString_repr_iff]
  constructor
  · exact fun hfinds => hfinds.lookup
  · intro hlookup
    refine ⟨hlookup, fun data hfault => ?_⟩
    obtain ⟨hall, -, hself⟩ := getSessionByIdString_repr_iff.mp hlookup
    obtain ⟨s, hs⟩ := onMessage_returns data hp hall fun _ => by rw [hself]; rfl
    rw [hs] at hfault
    cases hfault

end

theorem findsItself_joined :
    letI := parserOf renameText renameMsg
    ∃ st, Transition.run step initial (joining 2) = .ok st ∧ FindsItself st 0 := by
  let _ := parserOf renameText renameMsg
  have hjoined : ∃ st c s, Transition.run step initial (joining 2) = .ok st ∧
      st.front = [c] ∧ c.fnData = .session 0 ∧ c.ptr = 2 ∧ st.heap 0 = some s ∧
      (st.conn? s.connection).isSome :=
    ⟨_, _, _, rfl, rfl, rfl, rfl, rfl, rfl⟩
  obtain ⟨st, c, s, hrun, hfront, hctx, hptr, hheap, hconn⟩ := hjoined
  have hp : st.Valid 0 := ⟨s, hheap, hconn⟩
  have hc : c ∈ st.front := by simp [hfront]
  refine ⟨st, hrun, (findsItself_iff_findable (Transition.reachable_of_run _ hrun)
    (mem_conns_of_front hc) hctx hp).mpr ⟨?_, ⟨[], [], by simp [hfront]⟩, ?_⟩⟩
  · intro d hd p hdp
    rw [hfront, List.mem_singleton] at hd
    rw [hd, hctx] at hdp
    cases hdp
    exact hp
  · rw [hptr]
    decide

/-- A connection accepted after the upgrade hides a session from itself, and its
`LocalIdEvent` then follows a null pointer. -/
theorem not_findsItself_of_accept :
    ¬∀ [Nlohmann] (st : Server) (c : Connection) (p : SessionPtr), Reachable st →
      c ∈ st.conns → c.fnData = .session p → st.Valid p → FindsItself st p := by
  intro hall
  let _ := parserOf renameText renameMsg
  have hhidden : ∃ st c s, Transition.run step initial (joining 2 ++ [.accept true]) = .ok st ∧
      c ∈ st.conns ∧ c.fnData = .session 0 ∧ st.heap 0 = some s ∧
      (st.conn? s.connection).isSome ∧
      (Peer.onMessage 0 (some (bytes renameText))).run st = .fault .nullSession :=
    ⟨_, _, _, rfl, .tail _ (.head _), rfl, rfl, rfl, rfl⟩
  obtain ⟨st, c, s, hrun, hc, hctx, hheap, hconn, hfault⟩ := hhidden
  have hfinds := hall st c 0 (Transition.reachable_of_run _ hrun) hc hctx ⟨s, hheap, hconn⟩
  exact hfinds.handled _ hfault

end Mgws
