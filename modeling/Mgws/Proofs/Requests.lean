import Mgws.Proofs.Frames
/-!
# A read of HTTP requests is a sequence of effects

The loop of `http_cb` returns, unless the context of the connection is part of a
deleted session.  Which requests for `/websock` it serves is a matter of the
requests alone, so a condition on these can be followed through the loop.
-/

namespace Mgws

open Lib Program

section

variable {m : Option (ConnPtr × Json)} {R : Server → ConnPtr → Bool → FactoryRun → Prop}
  {st s : Server} {k : ConnPtr} {p : SessionPtr}

theorem mgWsUpgrade_run (hasKey : Bool) :
    (mgWsUpgrade k hasKey).run st = .ret () (st.upgrade k hasKey) := by
  cases hasKey <;> rfl

theorem conn?_create_isSome (hk : (st.conn? k).isSome) : ((st.create k).conn? k).isSome := by
  show ((st.updateConn k _).conn? k).isSome
  rw [Server.conn?_updateConn_self, Option.isSome_map]
  · exact hk
  · exact fun _ => rfl

theorem heap_create_self : (st.create k).heap st.nextSession = some (Peer.create k st.now) := by
  simp [Server.create]

theorem valid_create (hk : (st.conn? k).isSome) : (st.create k).Valid st.nextSession :=
  ⟨_, heap_create_self, conn?_create_isSome hk⟩

theorem getId_create (hk : (st.conn? k).isSome) :
    (Session.getId st.nextSession).run (st.create k) = .ret (sessionId k) (st.create k) := by
  have hid : (st.create k).idOf st.nextSession = sessionId k := by
    rw [Server.idOf, heap_create_self]
    rfl
  rw [getId_run (valid_create hk), hid]

theorem greet_run (hk : (st.conn? k).isSome) :
    (do let id ← Session.getId st.nextSession
        let msg ← ofExcept (SessionManager.sessionIdArgument id .returns)
        Session.send st.nextSession msg
        pure true).run (st.create k) =
      .ret true ((st.create k).tell st.nextSession (sessionIdMsg (sessionId k))) := by
  have hsend := send_run (valid_create hk) (sessionIdMsg (sessionId k))
  exact (bind_of_ret (getId_create hk)).trans ((bind_of_ret hsend).trans rfl)

theorem addSession_run (hk : (st.conn? k).isSome) (run : FactoryRun) :
    (SessionManager.addSession k run).run st =
      .ret (run = .returns) (match run with
        | .returns => (st.create k).tell st.nextSession (sessionIdMsg (sessionId k))
        | .throwsEarly => st
        | .throwsLate => st.abandon k
        | .throwsAfter => st.create k) := by
  cases run with
  | returns => exact tryCatch_of_ret (greet_run hk)
  | throwsEarly => rfl
  | throwsLate => rfl
  | throwsAfter => exact tryCatch_of_throw (bind_of_ret (getId_create hk))

theorem conn?_upgrade_isSome (hasKey : Bool) :
    ((st.upgrade k hasKey).conn? k).isSome ↔ (st.conn? k).isSome := by
  rw [Server.conn?_isSome_wiring, Server.conn?_isSome_wiring, Server.wiring_upgrade,
    Wiring.ptrs_upgrade]

/-- A request for `/websock` is one effect. -/
theorem websock_run [Nlohmann] (hk : (st.conn? k).isSome) (ctx : Context) (hasKey : Bool)
    (run : FactoryRun) :
    (SessionManager.fn k ctx (.httpMsg (.websock hasKey run))).run st =
      .ret () (st.websock k hasKey run) := by
  have hadd := addSession_run ((conn?_upgrade_isSome hasKey).mpr hk) run
  refine (bind_of_ret (mgWsUpgrade_run hasKey)).trans ((bind_of_ret hadd).trans ?_)
  cases run with
  | returns => simp only [Server.websock, Server.nextSession_upgrade, run_pure]
  | throwsEarly => rfl
  | throwsLate => rfl
  | throwsAfter => rfl

variable (m R st k) in
theorem mgHttpReply_run (status : Nat) :
    ∃ s, (mgHttpReply k status).run st = .ret () s ∧ Inners m R st s := by
  refine ⟨_, rfl, ?_⟩
  refine (Relation.ReflTransGen.single (.queue (Frame.not_isDirectory rfl))).tail (.conn ?_)
  exact fun _ => ⟨rfl, rfl⟩

variable (m R st k) in
theorem mgHttpServeDir_run (served : Served) :
    ∃ s, (mgHttpServeDir k served).run st = .ret () s ∧ Inners m R st s ∧
      ∀ status, served = .file status →
        (s.conn? k).any (·.isResp) = (st.conn? k).any (·.isResp) := by
  cases served with
  | reply status =>
      obtain ⟨s, hrun, hs⟩ := mgHttpReply_run m R st k status
      exact ⟨s, hrun, hs, nofun⟩
  | head status =>
      obtain ⟨s, hrun, hs⟩ := mgHttpReply_run m R st k status
      refine ⟨_, bind_of_ret hrun, hs.tail (.conn ?_), nofun⟩
      exact fun _ => ⟨rfl, rfl⟩
  | file status =>
      refine ⟨_, rfl, ?_, fun _ _ => ?_⟩
      · refine (Relation.ReflTransGen.single (.queue (Frame.not_isDirectory rfl))).tail
          (.conn ?_)
        exact fun _ => ⟨rfl, rfl⟩
      · show (((st.queue k (.http status)).updateConn k _).conn? k).any _ = _
        rw [Server.conn?_updateConn_self, Server.queue, Server.conn?_updateConn_self]
        · cases st.conn? k <;> rfl
        · exact fun _ => rfl
        · exact fun _ => rfl

/-- The requests for `/websock` that the loop of `http_cb` delivers: whether
they carry a key and how the factory ends. -/
def websocks : List HttpTurn → List (Bool × FactoryRun)
  | [] => []
  | .malformed :: _ => []
  | .message (.websock hasKey run) :: turns => (hasKey, run) :: websocks turns
  | .message (.other (.file _)) :: _ => []
  | .message (.other _) :: turns => websocks turns

/-- A condition on the requests still to come, which the requests already served
have not spoilt: it survives every effect but a request for `/websock`, and the
next such request meets `R` and leaves it for the rest. -/
structure Pending (R : Server → ConnPtr → Bool → FactoryRun → Prop) (k : ConnPtr)
    (K : List (Bool × FactoryRun) → Server → Prop) : Prop where
  inner : ∀ ws s t, Inner none NoJoin s t → K ws s → K ws t
  websock : ∀ hasKey run ws s, (s.conn? k).isSome → K ((hasKey, run) :: ws) s →
    R s k hasKey run ∧ K ws (s.websock k hasKey run)

theorem Pending.inners {K : List (Bool × FactoryRun) → Server → Prop} (hpending : Pending R k K)
    {ws : List (Bool × FactoryRun)} (h : Inners none NoJoin st s) (hK : K ws st) : K ws s :=
  h.invariant hK fun t u hinner ht => hpending.inner ws t u hinner ht

def Reads (R : Server → ConnPtr → Bool → FactoryRun → Prop) (k : ConnPtr) (st : Server) :
    Outcome Server Exn Fault Unit → Prop
  | .ret _ s => Inners none R st s
  | .throw _ _ => False
  | .fault f => ∃ p s, f = .deadContext p ∧ Inners none R st s ∧ s.Stale k p

theorem Reads.of_inners {out : Outcome Server Exn Fault Unit} (h : Reads R k s out)
    (hs : Inners none R st s) : Reads R k st out := by
  cases out with
  | ret _ t => exact hs.trans h
  | throw e t => exact h
  | fault f =>
      obtain ⟨p, t, hf, ht, hstale⟩ := h
      exact ⟨p, t, hf, hs.trans ht, hstale⟩

theorem mgNotify_reads : Reads R k st ((mgNotify k).run st) := by
  rcases mgNotify_cases st k with hrun | ⟨p, hstale, hrun⟩
  · rw [hrun]
    exact .refl
  · rw [hrun]
    exact ⟨p, st, rfl, .refl, hstale⟩

/-- The loop of `http_cb` has effects that meet `R`. -/
theorem httpCb_reads [Nlohmann] {K : List (Bool × FactoryRun) → Server → Prop}
    (hpending : Pending R k K) (turns : List HttpTurn) (hk : (st.conn? k).isSome)
    (hK : (st.conn? k).any (·.isResp) = false → K (websocks turns) st) :
    Reads R k st ((httpCb k turns).run st) := by
  induction turns generalizing st with
  | nil => exact .refl
  | cons turn turns ih =>
      unfold httpCb
      rw [bind_of_ret (run_get st)]
      cases hresp : (st.conn? k).any (·.isResp) with
      | true => exact .refl
      | false =>
          have hK := hK hresp
          simp only [Bool.false_eq_true, if_false]
          cases turn with
          | malformed =>
              have hclose : Inners none R st
                  (st.updateConn k fun c => { c with isClosing := true }) :=
                .single (.conn fun _ => ⟨rfl, rfl⟩)
              exact mgNotify_reads.of_inners hclose
          | message hm =>
              have hsame : ∀ c : Connection, c.SameAs { c with isResp := true } :=
                fun _ => ⟨rfl, rfl⟩
              have hmark : Inner none NoJoin st
                  (st.updateConn k fun c => { c with isResp := true }) := .conn hsame
              have hk₁ := (hmark.conn?_isSome k).mpr hk
              obtain ⟨c, hc⟩ := Option.isSome_iff_exists.mp hk₁
              have hset : (setConn k fun c => { c with isResp := true }).run st =
                  .ret () (st.updateConn k fun c => { c with isResp := true }) := rfl
              have hresp₁ : ((st.updateConn k fun c => { c with isResp := true }).conn? k).any
                  (·.isResp) = true := by
                obtain ⟨c₀, hc₀⟩ := Option.isSome_iff_exists.mp hk
                rw [Server.conn?_updateConn_self, hc₀]
                · rfl
                · exact fun _ => rfl
              rw [bind_of_ret hset]
              rcases Server.live_or_stale hc with hlive | ⟨p, hstale⟩
              swap
              · rw [bind_of_fault (mgCall_stale hstale _)]
                exact ⟨p, _, rfl, Inners.mono (.single hmark), hstale⟩
              cases hm with
              | websock hasKey run =>
                  obtain ⟨hR, hK₁⟩ := hpending.websock hasKey run (websocks turns) _ hk₁
                    (hpending.inner _ _ _ hmark hK)
                  have hcall := (mgCall_live hc hlive (.httpMsg (.websock hasKey run))).trans
                    (websock_run hk₁ c.fnData hasKey run)
                  have hjoin : Inner none R _ _ := .websock hk₁ hR
                  rw [bind_of_ret hcall]
                  exact (ih ((hjoin.conn?_isSome k).mpr hk₁) fun _ => hK₁).of_inners
                    ((Inners.mono (.single hmark)).tail hjoin)
              | other served =>
                  obtain ⟨t, hserve, ht, hfile⟩ := mgHttpServeDir_run none NoJoin
                    (st.updateConn k fun c => { c with isResp := true }) k served
                  have hcall := (mgCall_live hc hlive (.httpMsg (.other served))).trans hserve
                  have ht' : Inners none NoJoin st t := ht.head hmark
                  have hrest : (t.conn? k).any (·.isResp) = false → K (websocks turns) t := by
                    intro hnot
                    cases served with
                    | file status =>
                        rw [hfile status rfl, hresp₁] at hnot
                        cases hnot
                    | reply | head => exact hpending.inners ht' hK
                  rw [bind_of_ret hcall]
                  exact (ih ((ht'.conn?_isSome k).mpr hk) hrest).of_inners (Inners.mono ht')

end

end Mgws
