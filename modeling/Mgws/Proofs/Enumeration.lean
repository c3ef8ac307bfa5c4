import Mgws.Proofs.Actions
/-!
# Which sessions an enumeration visits

`Iterate` returns at the first connection that is no websocket with a session,
so it visits every session exactly when no such connection stands in front of
one.
-/

namespace Mgws

open Lib Program

/-- `Iterate` runs its callback once on the session of each websocket connection
that has one, in the order of the list, and on nothing else. -/
structure Complete (st : Server) : Prop where
  visits : ∀ {β : Type} (fn : β → SessionPtr → Cpp β) (acc : β),
    (SessionManager.iterate fn acc).run st =
      ((st.conns.filterMap Connection.attached).foldlM fn acc).run st
  once : (st.conns.filterMap Connection.attached).Nodup

/-- No connection without an attached session stands in front of one with. -/
def NoGap (cs : List Connection) : Prop :=
  cs.Pairwise fun c d => d.attached.isSome → c.attached.isSome

theorem reached_eq_iff_noGap (st : Server) :
    st.reached = st.conns.filterMap Connection.attached ↔ NoGap st.conns :=
  walk_eq_filterMap_iff _ _

theorem record_run (ps : List SessionPtr) (st : Server) :
    (ps.foldlM (fun seen p => (pure (seen ++ [p]) : Cpp (List SessionPtr))) []).run st =
      .ret ps st := by
  have hloop := foldlM_of_read (ε := Exn) (φ := Fault) (r := id) (s := st) ps []
    (f := fun seen p => pure (seen ++ [p])) (g := fun seen p => seen ++ [p])
    fun seen p _ => rfl
  rw [List.foldl_append_eq_append, List.nil_append, ← List.flatMap_def,
    List.flatMap_singleton'] at hloop
  exact hloop

theorem Server.Wf.attached_nodup {st : Server} (h : st.Wf) :
    (st.conns.filterMap Connection.attached).Nodup := by
  have hptrs := h.nodup_conns
  rw [List.Nodup, List.pairwise_map] at hptrs
  rw [List.Nodup, List.pairwise_filterMap]
  refine hptrs.imp_of_mem fun {c d} hc hd hne p hp q hq => ?_
  rintro rfl
  have hsame := h.eq_of_fnData hc hd (Connection.fnData_of_attached hp)
    (Connection.fnData_of_attached hq)
  exact hne (by rw [hsame])

instance (cs : List Connection) : Decidable (NoGap cs) :=
  inferInstanceAs (Decidable (cs.Pairwise _))

/-- In a reachable server the enumeration is complete exactly when the list has
no gap. -/
theorem complete_iff_noGap [Nlohmann] {st : Server} (h : Reachable st) :
    Complete st ↔ NoGap st.conns := by
  rw [← reached_eq_iff_noGap]
  constructor
  · intro hcomplete
    have hvisits := hcomplete.visits (fun seen p => pure (seen ++ [p])) []
    rw [iterate_run, record_run, record_run] at hvisits
    injection hvisits
  · intro heq
    refine ⟨fun fn acc => ?_, (reachable_wf h).1.attached_nodup⟩
    rw [iterate_run, heq]

theorem complete_joined :
    letI := parserOf "" .null
    ∃ st, Transition.run step initial (connect 2 [] ++ joining 3 ++ joining 4) = .ok st ∧
      st.reached = [1, 0] ∧ Complete st := by
  let _ := parserOf "" .null
  have hrun : ∃ st, Transition.run step initial (connect 2 [] ++ joining 3 ++ joining 4) = .ok st ∧
      st.reached = [1, 0] ∧ NoGap st.conns :=
    ⟨_, rfl, rfl, by decide⟩
  obtain ⟨st, hrun, hreached, hgap⟩ := hrun
  have hcomplete := (complete_iff_noGap (Transition.reachable_of_run _ hrun)).mpr hgap
  exact ⟨st, hrun, hreached, hcomplete⟩

/-- A connection accepted after the upgrade of another hides the session. -/
theorem not_complete_of_accept :
    ¬∀ [Nlohmann] (st : Server), Reachable st → Complete st := by
  intro hall
  let _ := parserOf "" .null
  have hreach : ∃ st, Reachable st ∧ ¬NoGap st.conns :=
    ⟨_, Transition.reachable_of_run (joining 2 ++ [.accept true]) rfl, by decide⟩
  obtain ⟨st, hst, hgap⟩ := hreach
  have hcomplete := (hall st hst).visits (fun seen p => pure (seen ++ [p])) []
  rw [iterate_run, record_run, record_run] at hcomplete
  injection hcomplete with heq
  exact hgap ((reached_eq_iff_noGap st).mp heq)

end Mgws
