import Mgws.Proofs.Lifetime
import Mgws.Proofs.Lookup
/-!
# The relay of signalling messages

A message for another session is put on one connection or on none, as it was
received.  It reaches the connection it is meant for exactly when that
connection is findable.
-/

namespace Mgws

open Lib Program

def forwarded : List String := ["Call", "Answer", "Hangup", "ICECandidate"]

/-- The live session `p` receives the signalling message `j`, which names the
id of the live session `t` on the connection `d`. -/
structure Signals [Nlohmann] (st : Server) (p : SessionPtr) (data : Option (List UInt8))
    (j : Json) (t : SessionPtr) (d : Connection) : Prop where
  sender : ∃ c ∈ st.conns, c.attached = some p
  senderValid : st.Valid p
  mem : d ∈ st.conns
  target : d.attached = some t
  targetValid : st.Valid t
  message : ∃ key ∈ forwarded, Delivers data j key
  targetId : j.find? "targetId" = some (.str (st.idOf t).repr)

/-- Handling the message queues a text frame with `j` on the connection `d`. -/
def Relays [Nlohmann] (st : Server) (p : SessionPtr) (data : Option (List UInt8)) (j : Json)
    (d : Connection) : Prop :=
  ∃ s d', (Peer.onMessage p data).run st = .ret () s ∧ s.conn? d.ptr = some d' ∧
    d'.send = d.send ++ [.text j]

section

variable {st : Server} {p q t : SessionPtr} {d : Connection} {j : Json}

theorem conn?_tell {k : ConnPtr} :
    (st.tell q j).conn? k =
      (st.conn? k).map fun c => c.receive (st.hits [q] c.ptr) j :=
  conn?_tells [q] j k

/-- The text of an id leads to the session with that id when `std::stoi` reads
it, and nowhere otherwise. -/
theorem forwardTarget_repr {n : Nat} (h : j.find? "targetId" = some (.str n.repr)) :
    j.forwardTarget = if n < 2 ^ 31 then some n else none := by
  rw [Json.forwardTarget, h]
  simp only [stoi_repr]
  split
  · next hn => exact congrArg some (toSessionId_natCast hn)
  · rfl

/-- Only a frame to the session of the connection itself lengthens its queue. -/
theorem send_tell (hwf : st.Wf) (hd : d ∈ st.conns) (hctx : d.fnData = .session t)
    (hq : q ∈ st.reached) (hqv : st.Valid q) :
    ∃ d', (st.tell q j).conn? d.ptr = some d' ∧
      d'.send = d.send ++ if q = t then [.text j] else [] := by
  refine ⟨_, by rw [conn?_tell, hwf.conn?_of_mem hd, Option.map_some], ?_⟩
  obtain ⟨c, hc, hattached⟩ := mem_walk hq
  have hcq := Connection.fnData_of_attached hattached
  obtain ⟨s, hs, -⟩ := hqv
  have howner : st.wiring.owner q = some c.ptr := by
    rw [Server.owner_of_heap hs, hwf.connection_eq hc hcq hs]
  have hsame : c.ptr = d.ptr ↔ q = t := by
    constructor
    · intro hptr
      obtain rfl := hwf.eq_of_ptr hc hd hptr
      rw [hcq] at hctx
      injection hctx
    · rintro rfl
      rw [hwf.eq_of_fnData hc hd hcq hctx]
  have hhits : st.hits [q] d.ptr = if q = t then 1 else 0 := by
    simp [Server.hits, List.countP_cons, howner, hsame]
  rw [Connection.receive, hhits]
  split <;> rfl

/-- What a signalling message may do: nothing, or queue one text frame with the
message itself on the connection whose session the `targetId` names. -/
def Confined (st : Server) (j : Json) (s : Server) : Prop :=
  s = st ∨ ∃ d ∈ st.conns, ∃ text i, j.find? "targetId" = some (.str text) ∧
    stoi text = .ok i ∧ sessionId d.ptr = toSessionId i ∧ s = st.queue d.ptr (.text j)

theorem forward_confined (hwf : st.Wf)
    (hall : j.forwardTarget.isSome → ∀ q ∈ st.reached, st.Valid q) :
    Confined st j (st.forward j) := by
  cases htarget : j.forwardTarget with
  | none => exact .inl (by simp [Server.forward, htarget])
  | some n =>
      cases hq : st.lookup n with
      | none => exact .inl (by simp [Server.forward, htarget, hq])
      | some q =>
          right
          obtain ⟨hmem, hid⟩ := lookup_mem hq
          obtain ⟨text, i, htext, hi, rfl⟩ := forwardTarget_eq_some_iff.mp htarget
          obtain ⟨d, hd, hattached⟩ := mem_walk hmem
          have hctx := Connection.fnData_of_attached hattached
          have hvalid := hall (by simp [htarget]) q hmem
          refine ⟨d, hd, text, i, htext, hi, ?_, ?_⟩
          · rw [← idOf_eq hwf hd hctx hvalid, hid]
          · obtain ⟨s, hs, -⟩ := hvalid
            simp [Server.forward, htarget, hq, Server.tell, hs, hwf.connection_eq hd hctx hs]

/-! ## Handling the message -/

theorem handlerOf_forwarded {key : String} (htables : st.Tables) (hp : st.Valid p)
    (hkey : key ∈ forwarded) : st.handlerOf p key = some .forwardMessage := by
  rw [handlerOf_eq htables hp]
  simp only [forwarded, List.mem_cons, List.not_mem_nil, or_false] at hkey
  rcases hkey with rfl | rfl | rfl | rfl <;> rfl

variable [Nlohmann] {data : Option (List UInt8)} {key : String}

theorem onMessage_forward (htables : st.Tables) (hp : st.Valid p) (h : Delivers data j key)
    (hkey : key ∈ forwarded) (hall : j.forwardTarget.isSome → ∀ q ∈ st.reached, st.Valid q) :
    (Peer.onMessage p data).run st = .ret () (st.forward j) := by
  have hhandler := handlerOf_forwarded htables hp hkey
  refine onMessage_of_ret hp h ?_
  rw [hhandler, enter_of_handlerOf hhandler]
  exact onForwardMessage_run h.type hall

theorem onMessage_forward_fault (htables : st.Tables) (hp : st.Valid p) (h : Delivers data j key)
    (hkey : key ∈ forwarded) (hsome : j.forwardTarget.isSome) (hq : q ∈ st.reached)
    (hinvalid : ¬st.Valid q) : ∃ f, (Peer.onMessage p data).run st = .fault f := by
  have hhandler := handlerOf_forwarded htables hp hkey
  obtain ⟨f, hf⟩ := onForwardMessage_fault h.type hsome hq hinvalid
  refine ⟨f, onMessage_of_fault hp h ?_⟩
  rw [hhandler, enter_of_handlerOf hhandler]
  exact hf

theorem onMessage_forward_cases (htables : st.Tables) (hp : st.Valid p)
    (h : Delivers data j key) (hkey : key ∈ forwarded) :
    ((j.forwardTarget.isSome → ∀ q ∈ st.reached, st.Valid q) ∧
      (Peer.onMessage p data).run st = .ret () (st.forward j)) ∨
    (∃ q ∈ st.reached, ¬st.Valid q) ∧ ∃ f, (Peer.onMessage p data).run st = .fault f := by
  by_cases hall : j.forwardTarget.isSome → ∀ q ∈ st.reached, st.Valid q
  · exact .inl ⟨hall, onMessage_forward htables hp h hkey hall⟩
  · push Not at hall
    obtain ⟨hsome, q, hq, hinvalid⟩ := hall
    exact .inr ⟨⟨q, hq, hinvalid⟩, onMessage_forward_fault htables hp h hkey hsome hq hinvalid⟩

/-! ## Delivery -/

/-- A signalling message reaches the session it names exactly when the
connection of that session is findable. -/
theorem relays_iff_findable (h : Reachable st) (hs : Signals st p data j t d) :
    Relays st p data j d ↔ Findable st d := by
  obtain ⟨hwf, -⟩ := reachable_wf h
  obtain ⟨key, hkey, hdelivers⟩ := hs.message
  have hctx := Connection.fnData_of_attached hs.target
  have htarget := forwardTarget_repr hs.targetId
  rw [findable_iff hwf hs.mem hctx hs.targetValid]
  constructor
  · rintro ⟨s, d', hrun, hd', hsend⟩
    have hunchanged : s ≠ st := by
      rintro rfl
      rw [hwf.conn?_of_mem hs.mem] at hd'
      cases hd'
      simp at hsend
    rcases onMessage_forward_cases hwf.tables hs.senderValid hdelivers hkey with
      ⟨hall, hret⟩ | ⟨-, f, hf⟩
    swap
    · rw [hf] at hrun
      cases hrun
    rw [hret] at hrun
    injection hrun with _ hforward
    subst hforward
    by_cases hsmall : st.idOf t < 2 ^ 31
    swap
    · rw [if_neg hsmall] at htarget
      exact absurd (by simp [Server.forward, htarget]) hunchanged
    rw [if_pos hsmall] at htarget
    have hvalid := hall (by simp [htarget])
    refine ⟨hvalid, hsmall, ?_⟩
    cases hq : st.lookup (st.idOf t) with
    | none => exact absurd (by simp [Server.forward, htarget, hq]) hunchanged
    | some q =>
        have hmem := (lookup_mem hq).1
        obtain ⟨e, he, hesend⟩ := send_tell (j := j) hwf hs.mem hctx hmem (hvalid q hmem)
        have hforward : st.forward j = st.tell q j := by simp [Server.forward, htarget, hq]
        rw [hforward, he] at hd'
        cases hd'
        by_cases hqt : q = t
        · rw [hqt]
        · rw [hesend, if_neg hqt] at hsend
          simp at hsend
  · rintro ⟨hvalid, hsmall, hlookup⟩
    rw [if_pos hsmall] at htarget
    have hforward : st.forward j = st.tell t j := by simp [Server.forward, htarget, hlookup]
    obtain ⟨d', hd', hsend⟩ := send_tell (j := j) hwf hs.mem hctx (lookup_mem hlookup).1
      hs.targetValid
    refine ⟨_, d', onMessage_forward hwf.tables hs.senderValid hdelivers hkey fun _ => hvalid,
      hforward ▸ hd', ?_⟩
    rw [hsend, if_pos rfl]

/-- A signalling message does at most one thing, and no more than that when the
server goes on; it always goes on when no factory has thrown. -/
theorem relay_confined (h : Reachable st) (hp : st.Valid p) (hdelivers : Delivers data j key)
    (hkey : key ∈ forwarded) :
    (∀ s, (Peer.onMessage p data).run st = .ret () s → Confined st j s) ∧
    (∀ e s, (Peer.onMessage p data).run st ≠ .throw e s) ∧
    (ReachableNoThrow st → ∃ s, (Peer.onMessage p data).run st = .ret () s) := by
  obtain ⟨hwf, -⟩ := reachable_wf h
  rcases onMessage_forward_cases hwf.tables hp hdelivers hkey with
    ⟨hall, hret⟩ | ⟨⟨q, hq, hinvalid⟩, f, hf⟩
  · refine ⟨fun s hs => ?_, fun e s hthrow => ?_, fun _ => ⟨_, hret⟩⟩
    · rw [hret] at hs
      injection hs with _ hforward
      exact hforward ▸ forward_confined hwf hall
    · rw [hret] at hthrow
      cases hthrow
  · refine ⟨fun s hs => ?_, fun e s hthrow => ?_, fun hnothrow => ?_⟩
    · rw [hf] at hs
      cases hs
    · rw [hf] at hthrow
      cases hthrow
    · exact absurd (valid_of_reached (reachableNoThrow_sound hnothrow) hq) hinvalid

end

/-! ## One call -/

def callText : String := "\x7b\"type\":\"Call\",\"targetId\":\"2\"\x7d"

def callMsg : Json := .obj [("type", .str "Call"), ("targetId", .str "2")]

theorem signals_call {st : Server} {d : Connection}
    (hsender : ∃ c ∈ st.conns, c.attached = some 1) (hvalid : st.Valid 1) (hd : d ∈ st.conns)
    (htarget : d.attached = some 0) (htvalid : st.Valid 0) (hid : st.idOf 0 = 2) :
    letI := parserOf callText callMsg
    Signals st 1 (some (bytes callText)) callMsg 0 d := by
  let _ := parserOf callText callMsg
  have hkey : "Call" ∈ forwarded := by decide
  have hdelivers : Delivers (some (bytes callText)) callMsg "Call" := ⟨rfl, rfl⟩
  refine ⟨hsender, hvalid, hd, htarget, htvalid, ⟨"Call", hkey, hdelivers⟩, ?_⟩
  rw [hid]
  rfl

theorem relays_call :
    letI := parserOf callText callMsg
    ∃ st d, Transition.run step initial (joining 2 ++ joining 3) = .ok st ∧
      Relays st 1 (some (bytes callText)) callMsg d ∧ d.ptr = 2 := by
  let _ := parserOf callText callMsg
  have hjoined : ∃ st c d s t, Transition.run step initial (joining 2 ++ joining 3) = .ok st ∧
      st.front = [c, d] ∧ c.attached = some 1 ∧ d.attached = some 0 ∧ d.ptr = 2 ∧
      st.heap 1 = some s ∧ (st.conn? s.connection).isSome ∧
      st.heap 0 = some t ∧ (st.conn? t.connection).isSome ∧ st.idOf 0 = 2 :=
    ⟨_, _, _, _, _, rfl, rfl, rfl, rfl, rfl, rfl, rfl, rfl, rfl, rfl⟩
  obtain ⟨st, c, d, s, t, hrun, hfront, hcp, hdp, hptr, hs, hsconn, ht, htconn, hid⟩ := hjoined
  have hreach := Transition.reachable_of_run _ hrun
  have hc : c ∈ st.conns := mem_conns_of_front (by simp [hfront])
  have hd : d ∈ st.conns := mem_conns_of_front (by simp [hfront])
  have hsignals := signals_call ⟨c, hc, hcp⟩ ⟨s, hs, hsconn⟩ hd hdp ⟨t, ht, htconn⟩ hid
  refine ⟨st, d, hrun, (relays_iff_findable hreach hsignals).mpr ⟨?_, ⟨[c], [], ?_⟩, ?_⟩, hptr⟩
  · intro e he p hep
    simp only [hfront, List.mem_cons, List.not_mem_nil, or_false] at he
    rcases he with rfl | rfl
    · rw [Connection.fnData_of_attached hcp] at hep
      cases hep
      exact ⟨s, hs, hsconn⟩
    · rw [Connection.fnData_of_attached hdp] at hep
      cases hep
      exact ⟨t, ht, htconn⟩
  · simp [hfront]
  · rw [hptr]
    decide

/-- A connection accepted after the upgrades makes the relay drop the call. -/
theorem not_relays_of_accept :
    ¬∀ [Nlohmann] (st : Server) (p : SessionPtr) (data : Option (List UInt8)) (j : Json)
      (t : SessionPtr) (d : Connection), Reachable st → Signals st p data j t d →
      Relays st p data j d := by
  intro hall
  let _ := parserOf callText callMsg
  have hhidden : ∃ st c d s t,
      Transition.run step initial (joining 2 ++ joining 3 ++ [.accept true]) = .ok st ∧
      c ∈ st.conns ∧ d ∈ st.conns ∧ c.attached = some 1 ∧ d.attached = some 0 ∧
      st.heap 1 = some s ∧ (st.conn? s.connection).isSome ∧
      st.heap 0 = some t ∧ (st.conn? t.connection).isSome ∧ st.idOf 0 = 2 ∧
      st.conn? d.ptr = some d ∧ (Peer.onMessage 1 (some (bytes callText))).run st = .ret () st :=
    ⟨_, _, _, _, _, rfl, .tail _ (.head _), .tail _ (.tail _ (.head _)), rfl, rfl, rfl, rfl, rfl,
      rfl, rfl, rfl, rfl⟩
  obtain ⟨st, c, d, s, t, hrun, hc, hd, hcp, hdp, hs, hsconn, ht, htconn, hid, hconn, hret⟩ :=
    hhidden
  have hsignals := signals_call ⟨c, hc, hcp⟩ ⟨s, hs, hsconn⟩ hd hdp ⟨t, ht, htconn⟩ hid
  obtain ⟨s', d', hrun', hd', hsend⟩ :=
    hall st 1 _ _ 0 d (Transition.reachable_of_run _ hrun) hsignals
  rw [hret] at hrun'
  cases hrun'
  rw [hconn] at hd'
  cases hd'
  simp at hsend

theorem relay_confined_call :
    letI := parserOf callText callMsg
    ∃ st, Transition.run step initial (joining 2 ++ joining 3) = .ok st ∧
      ∀ s, (Peer.onMessage 1 (some (bytes callText))).run st = .ret () s →
        Confined st callMsg s := by
  let _ := parserOf callText callMsg
  have hjoined : ∃ st s, Transition.run step initial (joining 2 ++ joining 3) = .ok st ∧
      st.heap 1 = some s ∧ (st.conn? s.connection).isSome :=
    ⟨_, _, rfl, rfl, rfl⟩
  obtain ⟨st, s, hrun, hs, hsconn⟩ := hjoined
  have hkey : "Call" ∈ forwarded := by decide
  have hdelivers : Delivers (some (bytes callText)) callMsg "Call" := ⟨rfl, rfl⟩
  exact ⟨st, hrun, (relay_confined (Transition.reachable_of_run _ hrun) ⟨s, hs, hsconn⟩ hdelivers
    hkey).1⟩

end Mgws
