import Mgws.Proofs.Names
/-!
# Messages that are rejected

A conversion that a message fails comes before the first effect of its handler,
so a rejected message leaves the connections and the names alone, and nothing is
thrown out of `OnMessage`.
-/

namespace Mgws

open Lib Program

inductive Rejected [Nlohmann] (st : Server) (p : SessionPtr) (data : Option (List UInt8)) :
    Prop where
  | notJson (hdata : data.bind Nlohmann.parse = none)
  | notObject (j : Json) (hdata : data.bind Nlohmann.parse = some j)
      (hj : ∀ members, j ≠ .obj members)
  | noType (j : Json) (hdata : data.bind Nlohmann.parse = some j)
      (hj : ∀ key, j.find? "type" ≠ some (.str key))
  | unknownType (j : Json) (key : String) (hj : Delivers data j key)
      (hkey : key ∉ Peer.dispatch.map (·.1))
  | localIdEvent (j : Json) (hj : Delivers data j "LocalIdEvent")
      (hfails : (∀ v, j.find? "sessionID" = some v → v.eqNat (st.idOf p) = false) ∨
        ∀ name, j.find? "userName" ≠ some (.str name))
  | forward (j : Json) (key : String) (hj : Delivers data j key)
      (hkey : key ∈ ["Call", "Answer", "Hangup", "ICECandidate"])
      (hfails : ∀ text i, j.find? "targetId" = some (.str text) → stoi text ≠ .ok i)

/-- No connection and no name has changed, and every queue is what it was. -/
structure Untouched (st s : Server) : Prop where
  conns : s.conns = st.conns
  detached : s.detached = st.detached
  names : s.name? = st.name?

theorem Untouched.refl (st : Server) : Untouched st st := ⟨rfl, rfl, rfl⟩

section

variable {st : Server} {p : SessionPtr} {j : Json} {key : String}

theorem untouched_enter (key : String) : Untouched st (st.enter p key) := by
  rw [Server.enter]
  cases st.heap p with
  | none => exact .refl st
  | some s =>
      simp only [Option.elim]
      split
      · exact .refl st
      · exact ⟨rfl, rfl, name?_updateSession fun _ => rfl⟩

theorem tryCatch_ne_throw (x : Cpp Unit) (e : Exn) (s : Server) :
    (Program.tryCatch x fun _ => Pure.pure ()).run st ≠ .throw e s := by
  simp only [Program.tryCatch]
  cases x.run st <;> simp

theorem newName_of_fails {id : Nat}
    (h : (∀ v, j.find? "sessionID" = some v → v.eqNat id = false) ∨
      ∀ name, j.find? "userName" ≠ some (.str name)) : j.newName id = none := by
  rw [Option.eq_none_iff_forall_ne_some]
  intro name hname
  obtain ⟨⟨v, hv, heq⟩, huser⟩ := newName_eq_some_iff.mp hname
  rcases h with hid | hnever
  · rw [hid v hv] at heq
    cases heq
  · exact hnever name huser

theorem forwardTarget_of_fails
    (h : ∀ text i, j.find? "targetId" = some (.str text) → stoi text ≠ .ok i) :
    j.forwardTarget = none := by
  rw [Option.eq_none_iff_forall_ne_some]
  intro n hn
  obtain ⟨text, i, htext, hi, -⟩ := forwardTarget_eq_some_iff.mp hn
  exact h text i htext hi

variable [Nlohmann] {data : Option (List UInt8)}

/-- The outermost handler catches everything, and what comes before it does not
throw. -/
theorem onMessage_ne_throw (e : Exn) (s : Server) :
    (Peer.onMessage p data).run st ≠ .throw e s := by
  by_cases hp : st.Valid p
  · obtain ⟨x, c, -, -, hderef⟩ := deref_valid hp
    rw [Peer.onMessage, bind_of_ret hderef]
    exact tryCatch_ne_throw _ e s
  · obtain ⟨f, hf⟩ := bind_deref_fault hp fun _ => Program.tryCatch (do
      let text ← ofExcept (data.elim (.error .lengthError) .ok)
      let j ← ofExcept ((Nlohmann.parse text).elim (.error .parseError) .ok)
      Peer.handleMessage p j) fun _ => Pure.pure ()
    rw [Peer.onMessage, hf]
    intro hthrow
    cases hthrow

theorem not_delivers_of_notObject (hdata : data.bind Nlohmann.parse = some j)
    (hj : ∀ members, j ≠ .obj members) (j' : Json) (key : String) : ¬Delivers data j' key := by
  rintro ⟨hparse, htype⟩
  rw [hdata] at hparse
  cases hparse
  cases j with
  | obj members => exact hj members rfl
  | _ => cases htype

theorem onMessage_of_idle (hp : st.Valid p) (h : Delivers data j key) {handler : Handler}
    (hhandler : st.handlerOf p key = some handler)
    (hcall : (Peer.call p j (some handler)).run st = .ret () st) :
    (Peer.onMessage p data).run st = .ret () st := by
  refine onMessage_of_ret hp h ?_
  rw [enter_of_handlerOf hhandler, hhandler]
  exact hcall

/-- No exception leaves `OnMessage`, and a rejected message changes nothing. -/
theorem onMessage_rejected (h : Reachable st) (hp : st.Valid p) (data : Option (List UInt8)) :
    (∀ e s, (Peer.onMessage p data).run st ≠ .throw e s) ∧
      (Rejected st p data → ∃ s, (Peer.onMessage p data).run st = .ret () s ∧ Untouched st s) := by
  obtain ⟨hwf, -⟩ := reachable_wf h
  have hhandler := handlerOf_eq hwf.tables hp
  refine ⟨onMessage_ne_throw, fun hrejected => ?_⟩
  cases hrejected with
  | notJson hdata =>
      refine ⟨st, onMessage_ignored hp fun j key hj => ?_, .refl st⟩
      rw [hj.parse] at hdata
      cases hdata
  | notObject j hdata hj =>
      exact ⟨st, onMessage_ignored hp (not_delivers_of_notObject hdata hj), .refl st⟩
  | noType j hdata hnone =>
      refine ⟨st, onMessage_ignored hp fun j' key hj => ?_, .refl st⟩
      obtain ⟨hparse, htype⟩ := hj
      rw [hdata] at hparse
      cases hparse
      exact hnone key htype
  | unknownType j key hj hkey =>
      have hlookup : Peer.dispatch.lookup key = none := by
        rw [List.lookup_eq_none_iff]
        intro entry hentry
        have hne : key ≠ entry.1 := by
          rintro rfl
          exact hkey (List.mem_map_of_mem hentry)
        simpa using hne
      have hnone : st.handlerOf p key = none := by rw [hhandler, hlookup, Option.join_none]
      exact ⟨_, onMessage_unknown hp hj hnone, untouched_enter key⟩
  | localIdEvent j hj hfails =>
      have hignored := onLocalIdEvent_ignored hp hj.type (.inl (newName_of_fails hfails))
      exact ⟨st, onMessage_of_idle hp hj (hhandler _) hignored, .refl st⟩
  | forward j key hj hkey hfails =>
      have htarget := forwardTarget_of_fails hfails
      have hnone : j.forwardTarget.isSome → ∀ p ∈ st.reached, st.Valid p := fun hsome => by
        rw [htarget] at hsome
        cases hsome
      have hrun := onForwardMessage_run hj.type hnone
      rw [Server.forward, htarget] at hrun
      have hforward : st.handlerOf p key = some .forwardMessage := by
        rw [hhandler]
        simp only [List.mem_cons, List.not_mem_nil, or_false] at hkey
        rcases hkey with rfl | rfl | rfl | rfl <;> rfl
      exact ⟨st, onMessage_of_idle hp hj hforward hrun, .refl st⟩

end

def winkText : String := "\x7b\"type\":\"Wink\"\x7d"

theorem onMessage_rejected_joined :
    letI := parserOf winkText (.obj [("type", .str "Wink")])
    ∃ st s, Transition.run step initial (joining 2) = .ok st ∧
      (Peer.onMessage 0 (some (bytes winkText))).run st = .ret () s ∧ Untouched st s := by
  let _ := parserOf winkText (.obj [("type", .str "Wink")])
  have hjoined : ∃ st s, Transition.run step initial (joining 2) = .ok st ∧
      st.heap 0 = some s ∧ (st.conn? s.connection).isSome :=
    ⟨_, _, rfl, rfl, rfl⟩
  obtain ⟨st, s, hrun, hheap, hconn⟩ := hjoined
  have hrejected : Rejected st 0 (some (bytes winkText)) :=
    .unknownType _ "Wink" ⟨rfl, rfl⟩ (by decide)
  obtain ⟨-, hall⟩ := onMessage_rejected (Transition.reachable_of_run _ hrun) ⟨s, hheap, hconn⟩
    (some (bytes winkText))
  obtain ⟨t, ht, huntouched⟩ := hall hrejected
  exact ⟨st, t, hrun, ht, huntouched⟩

end Mgws
