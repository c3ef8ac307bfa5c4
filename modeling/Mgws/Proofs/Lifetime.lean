import Mgws.Proofs.Actions
/-!
# No use of a dead session

When no factory throws, every session that a connection of the list names
exists, also between the effects of one action.  So no cast and no callback meets
a deleted session.  Two things can stop the server: the null pointer of a failed
lookup, and a request that is found only when its connection is closed, which
comes to a context inside the session just deleted.
-/

namespace Mgws

open Lib Program

def Returns : Server → ConnPtr → Bool → FactoryRun → Prop := fun _ _ _ run => run.made = true

theorem mem_websocks {hasKey : Bool} {run : FactoryRun} {turns : List HttpTurn}
    (h : (hasKey, run) ∈ websocks turns) : .message (.websock hasKey run) ∈ turns := by
  induction turns with
  | nil => simp [websocks] at h
  | cons turn turns ih =>
      cases turn with
      | malformed => simp [websocks] at h
      | message hm =>
          cases hm with
          | websock hasKey' run' =>
              rcases List.mem_cons.mp h with heq | hmem
              · cases heq
                exact List.mem_cons_self
              · exact List.mem_cons_of_mem _ (ih hmem)
          | other served =>
              cases served with
              | file status => simp [websocks] at h
              | reply | head => exact List.mem_cons_of_mem _ (ih h)

section

variable {m : Option (ConnPtr × Json)} {st s : Server} {k : ConnPtr} {p : SessionPtr}

theorem pending_returns : Pending Returns k fun ws _ => ∀ x ∈ ws, x.2.made = true where
  inner _ _ _ _ hK := hK
  websock hasKey run _ _ _ hK :=
    ⟨hK (hasKey, run) List.mem_cons_self, fun x hx => hK x (List.mem_cons_of_mem _ hx)⟩

theorem joins_returns {a : Action} (h : a.NoThrow) : Joins Returns st a := by
  cases a with
  | http k turns =>
      refine ⟨_, pending_returns, fun _ _ _ _ _ x hx => ?_⟩
      exact h x.1 x.2 (mem_websocks hx)
  | close k turns =>
      refine ⟨_, pending_returns, fun c _ _ _ _ _ _ x hx => ?_⟩
      split at hx
      · exact h x.1 x.2 (mem_websocks hx)
      · simp [websocks] at hx
  | _ => trivial

theorem Server.Wf.sound_leave (hwf : st.Wf) (h : st.wiring.Sound) {c : Connection}
    (hc : c ∈ st.conns) (hctx : c.fnData = .session p) :
    ((st.unlink c.ptr).delete p).wiring.Sound := by
  rw [Server.wiring_delete, Server.wiring_unlink]
  refine (h.unlink c.ptr).delete fun d hd hd' => ?_
  obtain ⟨hmem, hne⟩ := List.mem_filter.mp hd
  have hsame := hwf.wiring.inj d (Wiring.mem_allocated_of_mem_conns hmem) c.wire
    (Wiring.mem_allocated_of_mem_conns (List.mem_map_of_mem hc)) p hd' hctx
  exact absurd hsame (by simpa using hne : d.ptr ≠ c.ptr)

theorem Effect.sound (h : Effect m Returns st s) (hwf : st.Wf) (hst : st.wiring.Sound) :
    s.wiring.Sound := by
  cases h with
  | inner hinner =>
      rcases hinner.wiring with hw | ⟨k, hasKey, run, -, hrun, hw⟩
      · rw [hw]
        exact hst
      · rw [hw]
        exact hst.join hwf.wiring k hasKey (FactoryRun.ne_of_made hrun).2
  | close hc hdetached hcloses =>
      cases hcloses with
      | plain => exact Server.wiring_unlink ▸ hst.unlink _
      | session hctx =>
          rw [wiring_broadcast]
          exact hwf.sound_leave hst hc hctx
  | free => exact hst
  | accept => exact hst.accept
  | clock => exact hst
  | probe =>
      rw [wiring_probe]
      exact hst

theorem Effects.sound (h : Effects m Returns st s) (hwf : st.Wf) (hst : st.wiring.Sound) :
    s.wiring.Sound :=
  (h.invariant (I := fun t => t.Wf ∧ t.wiring.Sound) ⟨hwf, hst⟩ fun _ _ heffect ht =>
    ⟨ht.1.effect heffect, heffect.sound ht.1 ht.2⟩).2

theorem valid_of_sound (h : st.wiring.Sound) {c : Connection} (hc : c ∈ st.conns)
    (hctx : c.fnData = .session p) : st.Valid p :=
  Server.valid_wiring.mp (h.valid (c := c.wire) (List.mem_map_of_mem hc) hctx)

theorem valid_of_reached (h : st.wiring.Sound) (hp : p ∈ st.reached) : st.Valid p := by
  obtain ⟨c, hc, hattached⟩ := mem_walk hp
  exact valid_of_sound h hc (Connection.fnData_of_attached hattached)

theorem not_dangling (h : st.wiring.Sound) : ¬st.Dangling := by
  rintro ⟨c, hc, p, hctx, hinvalid⟩
  exact hinvalid (valid_of_sound h hc hctx)

variable [Nlohmann]

theorem reachableNoThrow_sound (h : ReachableNoThrow st) : st.wiring.Sound := by
  refine h.invariant (I := fun s => s.wiring.Sound) ?_ fun t u a ht hsound ha hstep => ?_
  · rintro c hc p hp
    rw [List.mem_singleton.mp hc] at hp
    cases hp
  · obtain ⟨hwf, hdetached⟩ := reachable_wf ht.reachable
    exact (step_effects hwf hdetached (joins_returns ha) hstep).sound hwf hsound

/-- `http_cb` finds something in the receive buffer of a connection that is being closed, whose
session `p` has just been deleted. -/
def LateRequest (st : Server) (p : SessionPtr) : Action → Prop
  | .close k turns => turns ≠ [] ∧ ∃ c, st.conn? k = some c ∧ c.isClosing = true ∧
      c.isOpen = true ∧ c.fnData = .session p ∧ c.pfn = .httpCb ∧ c.isResp = false
  | _ => False

omit [Nlohmann] in
theorem Inners.holds (h : Inners m Returns st s) {ctx : Context} (hst : st.wiring.Holds k ctx) :
    s.wiring.Holds k ctx := by
  refine h.invariant (I := fun t => t.wiring.Holds k ctx) hst fun t u hinner ht => ?_
  rcases hinner.wiring with hw | ⟨k', hasKey, run, -, hrun, hw⟩
  · exact hw ▸ ht
  · exact hw ▸ ht.join k' hasKey hrun

omit [Nlohmann] in
theorem Late.fnData {c : Connection} {turns : List HttpTurn} (h : Late Returns st k c turns p) :
    c.fnData = .session p := by
  obtain ⟨t, c', s, -, hc', hctx, hs, d, hd, hdctx, hp⟩ := h.stale
  have ht : t.wiring.Holds k c.fnData := by
    intro w hw
    rw [Server.find?_wiring, hc'] at hw
    cases hw
    exact .inl hctx
  rcases hs.holds ht d.wire (by rw [Server.find?_wiring, hd]; rfl) with hsame | ⟨q, hq, hlive⟩
  · exact hsame.symm.trans hdctx
  · cases hdctx.symm.trans hq
    have hgone : s.wiring.owner p = none := by simp [Server.wiring, hp]
    rw [hgone] at hlive
    cases hlive

omit [Nlohmann] in
theorem ClosesLate.request {a : Action} {f : Fault} (h : ClosesLate Returns st a f) :
    ∃ p, f = .deadContext p ∧ LateRequest st p a := by
  cases h with
  | @close k turns c p hc hclosing hopen hlate =>
      exact ⟨p, rfl, hlate.turns, c, hc, hclosing, hopen, hlate.fnData, hlate.http, hlate.resp⟩

/-- What stops the server when no factory throws. -/
theorem fault_of_step (hst : ReachableNoThrow st) {a : Action} (ha : a.NoThrow) {f : Fault}
    (h : step st a = .error f) :
    f = .nullSession ∨ ∃ p, f = .deadContext p ∧ LateRequest st p a := by
  obtain ⟨hwf, hdetached⟩ := reachable_wf hst.reachable
  rcases step_excused hwf hdetached (joins_returns ha) h with (hnull | ⟨s, hs, hdangling⟩) | hlate
  · exact .inl hnull
  · exact absurd hdangling (not_dangling (hs.sound hwf (reachableNoThrow_sound hst)))
  · exact .inr hlate.request

theorem LateRequest.step_eq {a : Action} (h : LateRequest st p a) (hst : ReachableNoThrow st) :
    step st a = .error (.deadContext p) := by
  cases a with
  | close k turns =>
      obtain ⟨hturns, c, hc, hclosing, hopen, hctx, hhttp, hresp⟩ := h
      obtain ⟨turn, turns, rfl⟩ := List.exists_cons_of_ne_nil hturns
      obtain ⟨hwf, hdetached⟩ := reachable_wf hst.reachable
      have hunlink : (modify fun st : Server =>
          { st with
            conns := st.conns.filter fun c => c.ptr ≠ k
            detached := st.conn? k } : Cpp Unit).run st = .ret () (st.unlink k) := rfl
      rw [step, perform, onConn_run hc hclosing, bind_of_ret (run_get st), hc, Option.any_some,
        if_pos hopen, mgCloseConn, bind_of_ret hunlink]
      rcases close_run hwf hdetached hc with
        ⟨t, c', hclose, hcloses, -, hc', hctx', hpfn, hresp'⟩ | ⟨f, -, hdangling⟩
      swap
      · exact absurd hdangling (not_dangling (reachableNoThrow_sound hst))
      have hgone : t.heap p = none := by
        cases hcloses with
        | plain hplain => cases hplain.symm.trans hctx
        | session hsession =>
            cases hsession.symm.trans hctx
            rw [heap_broadcast, Server.delete]
            exact if_pos rfl
      have hstale : t.Stale k p := ⟨c', hc', hctx'.trans hctx, hgone⟩
      have hfault : (pfnClose k (turn :: turns)).run t = .fault (.deadContext p) := by
        rw [pfnClose, bind_of_ret (run_get t), hc', Option.map_some, hpfn, hhttp]
        exact httpCb_stale hstale (by simp [hc', hresp', hresp]) turn turns
      rw [bind_of_ret hclose, bind_of_fault hfault]
  | _ => exact h.elim

/-- The context of a deleted session is read exactly when something is found late. -/
theorem step_deadContext_iff (hst : ReachableNoThrow st) {a : Action} (ha : a.NoThrow) :
    step st a = .error (.deadContext p) ↔ LateRequest st p a := by
  constructor
  · intro h
    rcases fault_of_step hst ha h with hnull | ⟨q, hq, hlate⟩
    · cases hnull
    · cases hq
      exact hlate
  · exact fun h => h.step_eq hst

/-- Without throwing factories no cast and no callback meets a deleted session or one whose
connection is freed, no session is deleted twice and no exception is left uncaught. -/
theorem run_error_cases {es : List Action} (hes : ∀ a ∈ es, a.NoThrow) {f : Fault}
    (h : Transition.run step initial es = .error f) :
    f = .nullSession ∨ ∃ t a p, f = .deadContext p ∧ ReachableNoThrow t ∧
      step t a = .error f ∧ LateRequest t p a := by
  obtain ⟨t, a, ht, ha, hstep⟩ := Transition.ReachableBy.of_run_error .init hes h
  rcases fault_of_step ht ha hstep with hnull | ⟨p, hf, hlate⟩
  · exact .inl hnull
  · exact .inr ⟨t, a, p, hf, ht, hstep, hlate⟩

end

/-- A file is asked for behind the upgrade, and something else before the connection is closed. -/
def lateRun : List Action :=
  connect 2 [.websock true .returns, .other (.file 200)] ++
    [.fileDone 2, .error 2, .close 2 [.message (.other (.reply 404))]]

theorem run_error_of_late_request :
    letI := parserOf "" .null
    ∃ f, Transition.run step initial lateRun = .error f ∧ f = .deadContext 0 ∧
      (f = .nullSession ∨ ∃ t a p, f = .deadContext p ∧ ReachableNoThrow t ∧
        step t a = .error f ∧ LateRequest t p a) := by
  let _ := parserOf "" .null
  have hrun : Transition.run step initial lateRun = .error (.deadContext 0) := rfl
  refine ⟨_, hrun, rfl, run_error_cases ?_ hrun⟩
  simp [lateRun, connect, Action.NoThrow, FactoryRun.made]

end Mgws
