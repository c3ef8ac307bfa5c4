import Mgws.Proofs.Lifetime
import Mathlib.Data.Set.Function
/-!
# Who owns a session

Creation and deletion of sessions stay paired with websocket connections as
long as each connection serves one request for `/websock` at most, with a key,
before it is a websocket, and none while it is being closed.
-/

namespace Mgws

open Lib Program

/-! ## The pairing -/

namespace Wiring

/-- Each websocket of the list has its own session, the other connections have
none, and every session that exists has its connection in the list. -/
structure Paired (w : Wiring) : Prop where
  websocket : ∀ c ∈ w.conns, c.isWebsocket = true →
    ∃ p, c.fnData = .session p ∧ w.owner p = some c.ptr
  plain : ∀ c ∈ w.conns, c.isWebsocket = false → c.fnData = .manager
  owned : ∀ p k, w.owner p = some k → ∃ c ∈ w.conns, c.fnData = .session p

variable {w : Wiring}

/-- A connection that is no websocket yet becomes one and gets a session. -/
theorem Paired.join (h : w.Paired) (hwf : w.Wf) {c : Wire} (hc : c ∈ w.conns)
    (hplain : c.isWebsocket = false) {run : FactoryRun} (hrun : run.made = true) :
    (w.join c.ptr true run).Paired := by
  have hearly := (FactoryRun.ne_of_made hrun).1
  have hself : c.joined c.ptr true run w.nextSession ∈ (w.join c.ptr true run).conns := by
    rw [conns_join]
    exact List.mem_map_of_mem hc
  have hother : ∀ d ∈ w.conns, d.ptr ≠ c.ptr → d ∈ (w.join c.ptr true run).conns := by
    intro d hd hne
    rw [conns_join]
    exact List.mem_map.mpr ⟨d, hd, if_neg hne⟩
  have hmem : ∀ d ∈ (w.join c.ptr true run).conns,
      (d.ptr = c.ptr ∧ d.isWebsocket = true ∧ d.fnData = .session w.nextSession) ∨ d ∈ w.conns := by
    intro d hd
    rw [conns_join] at hd
    obtain ⟨e, he, rfl⟩ := List.mem_map.mp hd
    by_cases hk : e.ptr = c.ptr
    · exact .inl (by simp [Wire.joined, hk, hearly])
    · exact .inr (by simpa [Wire.joined, hk] using he)
  have howner : ∀ p, p ≠ w.nextSession →
      (w.join c.ptr true run).owner p = w.owner p := by
    intro p hp
    rw [owner_join, if_neg fun hnew => hp hnew.2]
  constructor
  · intro d hd hws
    rcases hmem d hd with ⟨hptr, -, hctx⟩ | hd
    · exact ⟨_, hctx, by rw [owner_join, if_pos ⟨hrun, rfl⟩, hptr]⟩
    · obtain ⟨p, hp, hk⟩ := h.websocket d hd hws
      refine ⟨p, hp, ?_⟩
      rw [howner p (hwf.fresh d (mem_allocated_of_mem_conns hd) p hp).ne, hk]
  · intro d hd hws
    rcases hmem d hd with ⟨-, hws', -⟩ | hd
    · rw [hws] at hws'
      cases hws'
    · exact h.plain d hd hws
  · intro p k hk
    by_cases hp : p = w.nextSession
    · subst hp
      exact ⟨_, hself, by simp [Wire.joined, hearly]⟩
    · rw [howner p hp] at hk
      obtain ⟨d, hd, hctx⟩ := h.owned p k hk
      refine ⟨d, hother d hd fun hptr => ?_, hctx⟩
      have hsame := hwf.eq_of_ptr (mem_allocated_of_mem_conns hd)
        (mem_allocated_of_mem_conns hc) hptr
      rw [hsame, h.plain c hc hplain] at hctx
      cases hctx

theorem Paired.unlink (h : w.Paired) (hwf : w.Wf) {c : Wire} (hc : c ∈ w.conns)
    (hctx : c.fnData = .manager) : (w.unlink c.ptr).Paired := by
  refine ⟨fun d hd => h.websocket d (List.mem_filter.mp hd).1,
    fun d hd => h.plain d (List.mem_filter.mp hd).1, fun p k hk => ?_⟩
  obtain ⟨d, hd, hdp⟩ := h.owned p k hk
  refine ⟨d, List.mem_filter.mpr ⟨hd, ?_⟩, hdp⟩
  simp only [ne_eq, decide_eq_true_eq]
  intro hptr
  rw [hwf.eq_of_ptr (mem_allocated_of_mem_conns hd) (mem_allocated_of_mem_conns hc) hptr,
    hctx] at hdp
  cases hdp

theorem Paired.leave (h : w.Paired) (hwf : w.Wf) {c : Wire} {p : SessionPtr} (hc : c ∈ w.conns)
    (hctx : c.fnData = .session p) : ((w.unlink c.ptr).delete p).Paired := by
  have hmem := fun {d : Wire} (hd : d ∈ w.conns) => mem_allocated_of_mem_conns hd
  have hne : ∀ d ∈ w.conns, d.ptr ≠ c.ptr → ∀ q, d.fnData = .session q → q ≠ p := by
    rintro d hd hptr q hq rfl
    exact hptr (hwf.inj d (hmem hd) c (hmem hc) q hq hctx)
  refine ⟨fun d hd hws => ?_, fun d hd => h.plain d (List.mem_filter.mp hd).1,
    fun q k hk => ?_⟩
  · obtain ⟨hd, hptr⟩ := List.mem_filter.mp hd
    obtain ⟨q, hq, hk⟩ := h.websocket d hd hws
    refine ⟨q, hq, ?_⟩
    simp only [Wiring.delete, if_neg (hne d hd (by simpa using hptr) q hq)]
    exact hk
  · simp only [Wiring.delete] at hk
    split at hk
    · cases hk
    · next hqp =>
        obtain ⟨d, hd, hdq⟩ := h.owned q k hk
        refine ⟨d, List.mem_filter.mpr ⟨hd, ?_⟩, hdq⟩
        simp only [ne_eq, decide_eq_true_eq]
        intro hptr
        rw [hwf.eq_of_ptr (hmem hd) (hmem hc) hptr, hctx] at hdq
        cases hdq
        exact hqp rfl

theorem Paired.accept (h : w.Paired) : w.accept.Paired := by
  refine ⟨fun c hc hws => ?_, fun c hc hws => ?_, fun p k hk => ?_⟩
  · rcases List.mem_cons.mp hc with rfl | hc
    · cases hws
    · exact h.websocket c hc hws
  · rcases List.mem_cons.mp hc with rfl | hc
    · rfl
    · exact h.plain c hc hws
  · obtain ⟨c, hc, hctx⟩ := h.owned p k hk
    exact ⟨c, List.mem_cons_of_mem _ hc, hctx⟩

end Wiring

/-! ## Requests that keep the pairing -/

/-- A request for `/websock` with a key on a connection that is no websocket. -/
def Upgrades (st : Server) (k : ConnPtr) (hasKey : Bool) (run : FactoryRun) : Prop :=
  hasKey = true ∧ run.made = true ∧ ∃ c ∈ st.wiring.conns, c.ptr = k ∧ c.isWebsocket = false

theorem pending_upgrades (k : ConnPtr) :
    Pending Upgrades k fun ws st => ws = [] ∨ (∃ run, ws = [(true, run)] ∧ run.made = true) ∧
      ∃ c ∈ st.wiring.conns, c.ptr = k ∧ c.isWebsocket = false where
  inner ws s t hinner hK := by
    rwa [Inners.wiring_eq (.single hinner)]
  websock hasKey run ws s _ hK := by
    rcases hK with hnil | ⟨⟨_, hone, hrun⟩, hplain⟩
    · cases hnil
    · cases hone
      exact ⟨⟨rfl, hrun, hplain⟩, .inl rfl⟩

section

variable {m : Option (ConnPtr × Json)} {st s : Server}

theorem Effect.paired (h : Effect m Upgrades st s) (hwf : st.Wf) (hst : st.wiring.Paired) :
    s.wiring.Paired := by
  cases h with
  | inner hinner =>
      rcases hinner.wiring with hw | ⟨k, hasKey, run, -, ⟨rfl, hrun, c, hc, rfl, hplain⟩, hw⟩
      · rw [hw]
        exact hst
      · rw [hw]
        exact hst.join hwf.wiring hc hplain hrun
  | close hc hdetached hcloses =>
      have hmem := List.mem_map_of_mem (f := Connection.wire) hc
      cases hcloses with
      | plain hctx =>
          rw [Server.wiring_unlink]
          exact hst.unlink hwf.wiring hmem hctx
      | session hctx =>
          rw [wiring_broadcast, Server.wiring_delete, Server.wiring_unlink]
          exact hst.leave hwf.wiring hmem hctx
  | free => exact ⟨hst.websocket, hst.plain, hst.owned⟩
  | accept => exact hst.accept
  | clock => exact hst
  | probe =>
      rw [wiring_probe]
      exact hst

theorem Effects.paired (h : Effects m Upgrades st s) (hwf : st.Wf) (hst : st.wiring.Paired) :
    s.wiring.Paired :=
  (h.invariant (I := fun t => t.Wf ∧ t.wiring.Paired) ⟨hwf, hst⟩ fun _ _ heffect ht =>
    ⟨ht.1.effect heffect, heffect.paired ht.1 ht.2⟩).2

/-! ## Ownership -/

namespace Server

variable (st) in
def websockets : Set Connection := {c | c ∈ st.conns ∧ c.isWebsocket = true}

variable (st) in
def live : Set SessionPtr := {p | (st.heap p).isSome}

variable (st) in
/-- The websocket connections correspond to the sessions that exist, and no other
connection has one. -/
structure Owned : Prop where
  bijOn : Set.BijOn (fun c => c.fnData.userData) st.websockets (some '' st.live)
  plain : ∀ c ∈ st.conns, c.isWebsocket = false → c.fnData.userData = none

theorem Wf.owned_of_paired (hwf : st.Wf) (h : st.wiring.Paired) : st.Owned := by
  have hctx : ∀ c ∈ st.conns, c.isWebsocket = true →
      ∃ p ∈ st.live, c.fnData = .session p := by
    intro c hc hws
    obtain ⟨p, hp, hk⟩ := h.websocket c.wire (List.mem_map_of_mem hc) hws
    refine ⟨p, ?_, hp⟩
    obtain ⟨s, hs, -⟩ := Option.map_eq_some_iff.mp hk
    exact Option.isSome_iff_exists.mpr ⟨s, hs⟩
  have hplain : ∀ c ∈ st.conns, c.isWebsocket = false → c.fnData = .manager :=
    fun c hc => h.plain c.wire (List.mem_map_of_mem hc)
  refine ⟨⟨?_, ?_, ?_⟩, fun c hc hws => by rw [hplain c hc hws]; rfl⟩
  · rintro c ⟨hc, hws⟩
    obtain ⟨p, hp, hcp⟩ := hctx c hc hws
    exact ⟨p, hp, by simp only [hcp]; rfl⟩
  · rintro c ⟨hc, hcws⟩ d ⟨hd, hdws⟩ heq
    obtain ⟨p, -, hcp⟩ := hctx c hc hcws
    obtain ⟨q, -, hdq⟩ := hctx d hd hdws
    simp only [hcp, hdq, Context.userData, Option.some.injEq] at heq
    exact hwf.eq_of_fnData hc hd hcp (heq ▸ hdq)
  · rintro _ ⟨p, hp, rfl⟩
    obtain ⟨s, hs⟩ := Option.isSome_iff_exists.mp hp
    obtain ⟨w, hw, hwp⟩ := h.owned p _ (owner_of_heap hs)
    obtain ⟨c, hc, rfl⟩ := List.mem_map.mp hw
    have hcp : c.fnData = .session p := hwp
    refine ⟨c, ⟨hc, ?_⟩, by simp only [hcp]; rfl⟩
    by_contra hws
    rw [hplain c hc (by simpa using hws)] at hcp
    cases hcp

end Server

/-- What an action may do about requests for `/websock`: a read serves none, or
one with a key on a connection that is no websocket, and a close serves none. -/
def UpgradesOnce (st : Server) : Action → Prop
  | .http k turns => ∀ c, st.conn? k = some c → c.isOpen = true → c.pfn = .httpCb →
      c.isResp = false → websocks turns = [] ∨
        (∃ run, websocks turns = [(true, run)]) ∧ c.isWebsocket = false
  | .close k turns => ∀ c, st.conn? k = some c → c.isClosing = true → c.isOpen = true →
      c.pfn = .httpCb → c.isResp = false → websocks turns = []
  | _ => True

theorem joins_upgrades (hdetached : st.detached = none) {a : Action} (ha : a.NoThrow)
    (h : UpgradesOnce st a) : Joins Upgrades st a := by
  cases a with
  | http k turns =>
      refine ⟨_, pending_upgrades k, fun c hc hopen hpfn hresp => ?_⟩
      rcases h c hc hopen hpfn hresp with hnone | ⟨⟨run, hone⟩, hplain⟩
      · exact .inl hnone
      · have hrun : run.made = true := ha true run (mem_websocks (by simp [hone]))
        exact .inr ⟨⟨run, hone, hrun⟩, c.wire,
          List.mem_map_of_mem (Server.mem_conns_of_conn? hdetached hc),
          Server.ptr_of_conn? hc, hplain⟩
  | close k turns =>
      refine ⟨_, pending_upgrades k, fun c hc hclosing hpfn hresp s _ => .inl ?_⟩
      split
      · next hopen => exact h c hc hclosing hopen hpfn hresp
      · rfl
  | _ => trivial

variable [Nlohmann]

/-- Along every run whose actions meet the condition, the websocket connections
correspond to the sessions. -/
theorem always_owned {es : List Action} (hes : ∀ a ∈ es, a.NoThrow)
    (hmeets : Transition.Meets step UpgradesOnce initial es) :
    Transition.Always step Server.Owned initial es := by
  have hpaired : Transition.Always step (fun s => s.Wf ∧ s.wiring.Paired) initial es := by
    refine Transition.Always.of_meets .init hes ⟨initial_wf, ?_⟩ ?_ hmeets
    · constructor <;> simp [initial, Server.wiring, Connection.wire]
    · intro s t a hs hinv ha hC hstep
      obtain ⟨hwf, hdetached⟩ := reachable_wf hs.reachable
      have heffects := step_effects hwf hdetached (joins_upgrades hdetached ha hC) hstep
      exact ⟨hwf.effects heffects, heffects.paired hwf hinv.2⟩
  exact hpaired.mono fun s hs => hs.1.owned_of_paired hs.2

end

theorem always_owned_joining :
    letI := parserOf "" .null
    Transition.Always step Server.Owned initial
      (connect 2 [.other (.reply 404)] ++ joining 3 ++ joining 4) := by
  let _ := parserOf "" .null
  refine always_owned (by simp [joining, connect, Action.NoThrow, FactoryRun.made]) ?_
  rintro _ ⟨⟩
  refine ⟨trivial, ?_⟩
  rintro _ ⟨⟩
  refine ⟨trivial, ?_⟩
  rintro _ ⟨⟩
  refine ⟨fun _ _ _ _ _ => .inl rfl, ?_⟩
  rintro _ ⟨⟩
  refine ⟨trivial, ?_⟩
  rintro _ ⟨⟩
  refine ⟨trivial, ?_⟩
  rintro _ ⟨⟩
  refine ⟨?_, ?_⟩
  · rintro c ⟨⟩ - - -
    exact .inr ⟨⟨_, rfl⟩, rfl⟩
  rintro _ ⟨⟩
  refine ⟨trivial, ?_⟩
  rintro _ ⟨⟩
  refine ⟨trivial, ?_⟩
  rintro _ ⟨⟩
  refine ⟨?_, trivial⟩
  rintro c ⟨⟩ - - -
  exact .inr ⟨⟨_, rfl⟩, rfl⟩

/-- A request for `/websock` without a key gives a session to a connection that
is no websocket. -/
theorem not_owned_of_missing_key :
    ¬∀ [Nlohmann] (es : List Action), (∀ a ∈ es, a.NoThrow) →
      Transition.Always step Server.Owned initial es := by
  intro hall
  let _ := parserOf "" .null
  have hrefused : ∃ st c, Transition.run step initial (connect 2 [.websock false .returns]) =
      .ok st ∧ c ∈ st.conns ∧ c.isWebsocket = false ∧ c.fnData = .session 0 :=
    ⟨_, _, rfl, .head _, rfl, rfl⟩
  obtain ⟨st, c, hrun, hc, hplain, hctx⟩ := hrefused
  have howned := (hall _ (by simp [connect, Action.NoThrow, FactoryRun.made])).last hrun
  have hnone := howned.plain c hc hplain
  rw [hctx] at hnone
  cases hnone

end Mgws
