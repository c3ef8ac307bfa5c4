import Mgws.Proofs.Actions
/-!
# When `AddSession` undoes what it did

A factory that throws before `Session::Session` has run leaves the connection
alone.  One that throws after it leaves `fn_data` in an object that is destroyed
again, and when the message for the new session cannot be allocated, `fn_data`
stays in that session.
-/

namespace Mgws

open Lib Program

/-- When `AddSession` returns false, the context of the connection is what it was
before, so that an event on the connection still goes to a session that exists if
it did before. -/
structure Atomic (st : Server) (k : ConnPtr) (run : FactoryRun) : Prop where
  fnData : ∀ s, (SessionManager.addSession k run).run st = .ret false s →
    (s.conn? k).map (·.fnData) = (st.conn? k).map (·.fnData)
  dispatch : ∀ s c c' p, (SessionManager.addSession k run).run st = .ret false s →
    st.conn? k = some c → s.conn? k = some c' → c'.fnData.userData = some p →
      c.fnData.userData = some p ∧ s.heap p = st.heap p

section

variable {st : Server} {k : ConnPtr} {c : Connection}

theorem conn?_abandon (hc : st.conn? k = some c) :
    (st.abandon k).conn? k = some { c with fnData := .session st.nextSession } := by
  show ((st.updateConn k _).conn? k) = _
  rw [Server.conn?_updateConn_self, hc, Option.map_some]
  exact fun _ => rfl

theorem conn?_create (hc : st.conn? k = some c) :
    (st.create k).conn? k = some { c with fnData := .session st.nextSession } :=
  conn?_abandon hc

/-- No connection holds the context of a session that has not been built yet. -/
theorem fnData_ne_next (hwf : st.Wf) (hc : st.conn? k = some c) :
    c.fnData ≠ .session st.nextSession := by
  have hmem : c.wire ∈ st.wiring.allocated :=
    Server.mem_allocated_wiring.mpr ⟨c, Server.mem_allocated_of_conn? hc, rfl⟩
  intro hctx
  exact absurd (hwf.wiring.fresh c.wire hmem st.nextSession hctx) (Nat.lt_irrefl _)

/-- `AddSession` is atomic exactly when nothing throws after the constructor of
`Session`.  Servers are well formed throughout a run, so also when
an action that has done some of its work calls `AddSession`. -/
theorem atomic_iff (hwf : st.Wf) (hc : st.conn? k = some c) (run : FactoryRun) :
    Atomic st k run ↔ run ≠ .throwsLate ∧ run ≠ .throwsAfter := by
  have hsome : (st.conn? k).isSome := by rw [hc]; rfl
  have hrun := addSession_run hsome run
  constructor
  · intro h
    have hnew : ∀ s, (SessionManager.addSession k run).run st = .ret false s →
        s.conn? k ≠ some { c with fnData := .session st.nextSession } := by
      intro s hs hconn
      have hsame := h.fnData s hs
      rw [hconn, hc, Option.map_some, Option.map_some, Option.some.injEq] at hsame
      exact fnData_ne_next hwf hc hsame.symm
    constructor
    · rintro rfl
      exact hnew _ hrun (conn?_abandon hc)
    · rintro rfl
      exact hnew _ hrun (conn?_create hc)
  · rintro ⟨hlate, hafter⟩
    have hsame : ∀ s, (SessionManager.addSession k run).run st = .ret false s → s = st := by
      intro s hs
      rw [hrun] at hs
      cases run with
      | returns => cases hs
      | throwsEarly =>
          cases hs
          rfl
      | throwsLate => exact absurd rfl hlate
      | throwsAfter => exact absurd rfl hafter
    constructor
    · intro s hs
      rw [hsame s hs]
    · intro s d d' p hs hd hd' hp
      obtain rfl := hsame s hs
      rw [hd] at hd'
      cases hd'
      exact ⟨hp, rfl⟩

end

theorem atomic_connected :
    letI := parserOf "" .null
    ∃ st, Transition.run step initial (connect 2 []) = .ok st ∧ Atomic st 2 .throwsEarly := by
  let _ := parserOf "" .null
  have hconnected : ∃ st c, Transition.run step initial (connect 2 []) = .ok st ∧
      st.conn? 2 = some c :=
    ⟨_, _, rfl, rfl⟩
  obtain ⟨st, c, hrun, hc⟩ := hconnected
  obtain ⟨hwf, -⟩ := reachable_wf (Transition.reachable_of_run _ hrun)
  exact ⟨st, hrun, (atomic_iff hwf hc .throwsEarly).mpr (by decide)⟩

/-- A constructor that throws late leaves the connection with a context in the
object that it destroys. -/
theorem not_atomic_of_late_throw :
    ¬∀ [Nlohmann] (st : Server) (k : ConnPtr) (c : Connection) (run : FactoryRun),
      Reachable st → st.conn? k = some c → Atomic st k run := by
  intro hall
  let _ := parserOf "" .null
  have hconnected : ∃ st s c c', Transition.run step initial (connect 2 []) = .ok st ∧
      (SessionManager.addSession 2 .throwsLate).run st = .ret false s ∧
      st.conn? 2 = some c ∧ s.conn? 2 = some c' ∧ c.fnData = .manager ∧
      c'.fnData = .session 0 :=
    ⟨_, _, _, _, rfl, rfl, rfl, rfl, rfl, rfl⟩
  obtain ⟨st, s, c, c', hrun, hadd, hc, hc', hctx, hctx'⟩ := hconnected
  have hatomic := hall st 2 c .throwsLate (Transition.reachable_of_run _ hrun) hc
  have hsame := hatomic.fnData s hadd
  rw [hc, hc', Option.map_some, Option.map_some, hctx, hctx'] at hsame
  exact absurd hsame (by decide)

end Mgws
