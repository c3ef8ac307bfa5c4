import Mgws.Proofs.Requests
/-!
# Every action is a sequence of effects

The actions of a well-formed server either return after a sequence of effects
or fault for one of three reasons: a lookup that found nothing was dereferenced,
a connection of the list held a dangling pointer, or a request was found only
after the session of its connection had been deleted.
-/

namespace Mgws

open Lib Program

section

variable {m : Option (ConnPtr × Json)} {R : Server → ConnPtr → Bool → FactoryRun → Prop}
  {st s : Server} {k : ConnPtr} {p : SessionPtr}

/-! ## The end of a connection -/

theorem pfnClose_reads [Nlohmann] {K : List (Bool × FactoryRun) → Server → Prop}
    (hpending : Pending R k K) (turns : List HttpTurn) {c : Connection}
    (hc : st.conn? k = some c)
    (hK : c.pfn = .httpCb → c.isResp = false → K (websocks turns) st) :
    Reads R k st ((pfnClose k turns).run st) := by
  rw [pfnClose, bind_of_ret (run_get st), hc, Option.map_some]
  cases hpfn : c.pfn with
  | httpCb =>
      refine httpCb_reads hpending turns (by simp [hc]) fun hresp => hK hpfn ?_
      simpa [hc] using hresp
  | staticCb =>
      have hrestore : Inner none R st
          (st.updateConn k fun c => { c with pfn := .httpCb, isResp := false }) :=
        .conn fun _ => ⟨rfl, rfl⟩
      exact .single hrestore
  | wsCb => exact .refl

/-- Only what `http_cb` finds in the receive buffer can fault. -/
theorem pfnClose_fault [Nlohmann] {turns : List HttpTurn} {c : Connection}
    (hc : st.conn? k = some c) {f : Fault} (h : (pfnClose k turns).run st = .fault f) :
    c.pfn = .httpCb ∧ c.isResp = false ∧ turns ≠ [] := by
  rw [pfnClose, bind_of_ret (run_get st), hc, Option.map_some] at h
  cases hpfn : c.pfn with
  | httpCb =>
      rw [hpfn] at h
      refine ⟨rfl, ?_, ?_⟩
      · by_contra hresp
        have hpending : (st.conn? k).any (·.isResp) = true := by simpa [hc] using hresp
        cases turns with
        | nil => cases h
        | cons turn turns =>
            have hret : (httpCb k (turn :: turns)).run st = .ret () st := by
              unfold httpCb
              rw [bind_of_ret (run_get st), if_pos hpending, run_pure]
            cases hret.symm.trans h
      · rintro rfl
        cases h
  | staticCb =>
      rw [hpfn] at h
      cases h
  | wsCb =>
      rw [hpfn] at h
      cases h

theorem httpCb_stale [Nlohmann] (h : st.Stale k p) (hresp : (st.conn? k).any (·.isResp) = false)
    (turn : HttpTurn) (turns : List HttpTurn) :
    (httpCb k (turn :: turns)).run st = .fault (.deadContext p) := by
  obtain ⟨c, hc, hctx, hp⟩ := h
  have hstale : ∀ f : Connection → Connection, (∀ c, (f c).ptr = c.ptr) →
      (∀ c, (f c).fnData = c.fnData) → (st.updateConn k f).Stale k p := by
    intro f hptr hfnData
    refine ⟨f c, ?_, (hfnData c).trans hctx, hp⟩
    rw [Server.conn?_updateConn_self hptr, hc]
    rfl
  unfold httpCb
  rw [bind_of_ret (run_get st), hresp]
  cases turn with
  | malformed =>
      have hclosed := hstale (fun c => { c with isClosing := true }) (fun _ => rfl) fun _ => rfl
      exact mgNotify_stale hclosed
  | message hm =>
      have hmarked := hstale (fun c => { c with isResp := true }) (fun _ => rfl) fun _ => rfl
      have hset : (setConn k fun c => { c with isResp := true }).run st =
          .ret () (st.updateConn k fun c => { c with isResp := true }) := rfl
      exact (bind_of_ret hset).trans (bind_of_fault (mgCall_stale hmarked _))

theorem conn?_unlink {c : Connection} (hc : st.conn? k = some c) :
    (st.unlink k).conn? k = some c := by
  have hnone : (st.conns.filter fun c => c.ptr ≠ k).find? (fun c => c.ptr = k) = none := by
    simp
  have hptr := Server.ptr_of_conn? hc
  rw [Server.conn?, Server.allocated, List.find?_append]
  simp only [Server.unlink, hnone, hc]
  simp [hptr]

theorem valid_leave (hwf : st.Wf) {c : Connection} {q : SessionPtr} (hc : c ∈ st.conns)
    (hctx : c.fnData = .session p) (hq : q ∈ ((st.unlink c.ptr).delete p).reached)
    (hvalid : st.Valid q) : ((st.unlink c.ptr).delete p).Valid q := by
  rw [← Server.reached_wiring, Server.wiring_delete, Server.wiring_unlink] at hq
  rw [← Server.valid_wiring, Server.wiring_delete, Server.wiring_unlink]
  exact hwf.wiring.valid_leave (List.mem_map_of_mem hc) hctx hq (Server.valid_wiring.mpr hvalid)

theorem valid_of_unlink (h : (st.unlink k).Valid p) : st.Valid p := by
  obtain ⟨s, hs, hconn⟩ := h
  refine ⟨s, hs, ?_⟩
  rw [Server.conn?_isSome_wiring, Server.wiring_unlink] at hconn
  rw [Server.conn?_isSome_wiring]
  obtain ⟨c, hc, hptr⟩ := List.mem_map.mp hconn
  exact List.mem_map.mpr ⟨c, Wiring.mem_allocated_unlink hc, hptr⟩

theorem delete_run (h : st.Valid p) :
    (SessionManager.delete p).run st = .ret () (st.delete p) := by
  obtain ⟨s, hs, -⟩ := h
  rw [SessionManager.delete, bind_of_ret (run_get st), hs]
  rfl

/-- `MG_EV_CLOSE` for the user's handler, on a connection just unlinked, leaves the
protocol handler of the connection as it was. -/
theorem close_run [Nlohmann] (hwf : st.Wf) (hdetached : st.detached = none)
    {c : Connection} (hc : st.conn? k = some c) :
    (∃ s c', (mgCall k .close).run (st.unlink k) = .ret () s ∧ Closes st c s ∧
      (∀ d ∈ s.conns, d.ptr ≠ k) ∧ s.conn? k = some c' ∧ c'.fnData = c.fnData ∧
      c'.pfn = c.pfn ∧ c'.isResp = c.isResp) ∨
    ∃ f, (mgCall k .close).run (st.unlink k) = .fault f ∧ st.Dangling := by
  have hmem := Server.mem_conns_of_conn? hdetached hc
  have hgone : ∀ d ∈ (st.unlink k).conns, d.ptr ≠ k := fun d hd => by
    simpa using (List.mem_filter.mp hd).2
  obtain rfl := Server.ptr_of_conn? hc
  rcases Server.live_or_stale (conn?_unlink hc) with hlive | ⟨p, hstale⟩
  swap
  · refine .inr ⟨_, mgCall_stale hstale _, ?_⟩
    obtain ⟨d, hd, hctx, hp⟩ := hstale
    cases (conn?_unlink hc).symm.trans hd
    refine ⟨c, hmem, p, hctx, ?_⟩
    rintro ⟨s, hs, -⟩
    cases hp.symm.trans hs
  rw [mgCall_live (conn?_unlink hc) hlive]
  cases hctx : c.fnData with
  | manager =>
      exact .inl ⟨_, c, rfl, .plain hctx, hgone, conn?_unlink hc, hctx, rfl, rfl⟩
  | session p =>
      show (∃ s c', (SessionManager.deleteSession p).run _ = _ ∧ _) ∨
        ∃ f, (SessionManager.deleteSession p).run _ = _ ∧ _
      by_cases hp : (st.unlink c.ptr).Valid p
      swap
      · obtain ⟨f, hf⟩ := getId_fault hp
        refine .inr ⟨f, bind_of_fault hf, c, hmem, p, hctx, fun hvalid => hp ?_⟩
        obtain ⟨s, hs, -⟩ := hvalid
        exact ⟨s, hs, by rw [hwf.connection_eq hmem hctx hs, conn?_unlink hc]; rfl⟩
      rw [SessionManager.deleteSession, bind_of_ret (getId_run hp), bind_of_ret (delete_run hp)]
      let t := (st.unlink c.ptr).delete p
      rcases t.reached_valid_or with hall | ⟨r, hr, hinvalid⟩
      · refine .inl ⟨_, c.receive (t.hits t.reached c.ptr) (directoryMsg t.listing),
          updateSessionsList_run hall, .session hctx (valid_of_unlink hp) hall, ?_, ?_, hctx, rfl,
          rfl⟩
        · intro d hd
          rw [Server.broadcast, (tells_eq _ _ _).1] at hd
          obtain ⟨d', hd', rfl⟩ := List.mem_map.mp hd
          exact hgone d' hd'
        · have hconn : t.conn? c.ptr = some c := conn?_unlink hc
          rw [Server.broadcast, conn?_tells, hconn]
          rfl
      · obtain ⟨f, hf⟩ := updateSessionsList_fault hr hinvalid
        refine .inr ⟨f, hf, ?_⟩
        obtain ⟨d, hd, hattached⟩ := mem_walk hr
        exact ⟨d, (List.mem_filter.mp hd).1, r, Connection.fnData_of_attached hattached,
          fun hvalid => hinvalid (valid_leave hwf hmem hctx hr hvalid)⟩

/-- What `http_cb` still finds when a connection is closed comes to a context whose session has
just been deleted. -/
structure Late (R : Server → ConnPtr → Bool → FactoryRun → Prop) (st : Server) (k : ConnPtr)
    (c : Connection) (turns : List HttpTurn) (p : SessionPtr) : Prop where
  http : c.pfn = .httpCb
  resp : c.isResp = false
  turns : turns ≠ []
  stale : ∃ t c' s, Closes st c t ∧ t.conn? k = some c' ∧ c'.fnData = c.fnData ∧
    Inners none R t s ∧ s.Stale k p

theorem mgCloseConn_cases [Nlohmann] {K : List (Bool × FactoryRun) → Server → Prop}
    (hpending : Pending R k K) {turns : List HttpTurn} (hwf : st.Wf)
    (hdetached : st.detached = none) {c : Connection} (hc : st.conn? k = some c)
    (hK : c.pfn = .httpCb → c.isResp = false → ∀ s : Server, (∀ d ∈ s.conns, d.ptr ≠ k) →
      K (websocks turns) s) :
    (∃ t s, (mgCloseConn k turns).run st = .ret () s.free ∧ Closes st c t ∧
      Inners none R t s) ∨
    (∃ p, (mgCloseConn k turns).run st = .fault (.deadContext p) ∧ Late R st k c turns p) ∨
    ∃ f, (mgCloseConn k turns).run st = .fault f ∧ Excused m R st f := by
  have hunlink : (modify fun st : Server =>
      { st with
        conns := st.conns.filter fun c => c.ptr ≠ k
        detached := st.conn? k } : Cpp Unit).run st = .ret () (st.unlink k) := rfl
  rw [mgCloseConn, bind_of_ret hunlink]
  rcases close_run hwf hdetached hc with
    ⟨t, c', hclose, hcloses, hgone, hc', hctx, hpfn, hresp⟩ | ⟨f, hclose, hdangling⟩
  · have hreads := pfnClose_reads hpending turns hc'
      (hpfn ▸ hresp ▸ fun h₁ h₂ => hK h₁ h₂ t hgone)
    rw [bind_of_ret hclose]
    cases hrun : (pfnClose k turns).run t with
    | ret _ s =>
        rw [hrun] at hreads
        rw [bind_of_ret hrun]
        exact .inl ⟨t, s, rfl, hcloses, hreads⟩
    | throw e s =>
        rw [hrun] at hreads
        exact hreads.elim
    | fault f =>
        rw [hrun] at hreads
        obtain ⟨p, s, rfl, hs, hstale⟩ := hreads
        obtain ⟨hhttp, hnot, hturns⟩ := pfnClose_fault hc' hrun
        exact .inr (.inl ⟨p, bind_of_fault hrun, hpfn ▸ hhttp, hresp ▸ hnot, hturns, t, c', s,
          hcloses, hc', hctx, hs, hstale⟩)
  · exact .inr (.inr ⟨f, bind_of_fault hclose, .inr ⟨st, .refl, hdangling⟩⟩)

/-! ## The other actions -/

theorem now_probe (ms : Int) : (st.probe p ms).now = st.now := by
  rw [Server.probe]
  cases st.heap p with
  | none => rfl
  | some s =>
      simp only [Option.elim]
      split <;> rfl

theorem probes_effects {ms : Int} (hnow : st.now = ms) (ps : List SessionPtr) :
    Effects m R st (st.probes ps ms) := by
  induction ps generalizing st with
  | nil => exact .refl
  | cons p ps ih =>
      have hprobe : Effect m R st (st.probe p ms) := by
        rw [← hnow]
        exact .probe
      exact Relation.ReflTransGen.head hprobe (ih ((now_probe ms).trans hnow))

variable (st) in
theorem conn?_accept_self :
    ∃ c, st.accept.conn? (st.nextid + 1) = some c ∧ c.fnData = .manager :=
  ⟨_, List.find?_cons_of_pos (by simp), rfl⟩

variable (m R st) in
theorem acceptConn_run [Nlohmann] (tlsOk : Bool) :
    ∃ s, (acceptConn tlsOk).run st = .ret () s ∧ Inner m R st.accept s := by
  obtain ⟨c, hc, hctx⟩ := conn?_accept_self st
  have hlive : st.accept.Live c.fnData := hctx ▸ trivial
  have hflags : ∃ s, (mgTlsInit (st.nextid + 1) tlsOk).run st.accept = .ret () s ∧
      Inner m R st.accept s := by
    cases tlsOk with
    | true => exact ⟨_, rfl, .conn fun _ => ⟨rfl, rfl⟩⟩
    | false =>
        let s := st.accept.updateConn (st.nextid + 1) fun c => { c with isClosing := true }
        have hs : s.conn? (st.nextid + 1) = some { c with isClosing := true } := by
          rw [Server.conn?_updateConn_self, hc]
          · rfl
          · exact fun _ => rfl
        exact ⟨s, mgNotify_live hs hlive, .conn fun _ => ⟨rfl, rfl⟩⟩
  obtain ⟨s, hrun, hs⟩ := hflags
  exact ⟨s, (mgCall_live hc hlive _).trans hrun, hs⟩

/-! ## Every action -/

def delivered [Nlohmann] (st : Server) : Action → Option (ConnPtr × Json)
  | .ws k frame => (st.conn? k).bind fun c =>
      if c.isOpen && c.pfn = .wsCb then
        ((frame.message c.frag).bind Nlohmann.parse).map fun j => (k, j)
      else none
  | _ => none

theorem eq_of_delivered [Nlohmann] {k k' : ConnPtr} {frame : WsFrame} {j : Json}
    (h : delivered st (.ws k frame) = some (k', j)) : k' = k := by
  obtain ⟨c, -, h⟩ := Option.bind_eq_some_iff.mp h
  split at h
  · obtain ⟨j', -, h⟩ := Option.map_eq_some_iff.mp h
    cases h
    rfl
  · cases h

def Joins (R : Server → ConnPtr → Bool → FactoryRun → Prop) (st : Server) : Action → Prop
  | .http k turns => ∃ K, Pending R k K ∧ ∀ c, st.conn? k = some c → c.isOpen = true →
      c.pfn = .httpCb → c.isResp = false → K (websocks turns) st
  | .close k turns => ∃ K, Pending R k K ∧ ∀ c, st.conn? k = some c → c.isClosing = true →
      c.pfn = .httpCb → c.isResp = false → ∀ s : Server, (∀ d ∈ s.conns, d.ptr ≠ k) →
        K (websocks (if c.isOpen then turns else [])) s
  | _ => True

inductive Took [Nlohmann] (R : Server → ConnPtr → Bool → FactoryRun → Prop) (st : Server) :
    Action → Server → Prop where
  | inners {a s} (h : Inners (delivered st a) R st s) : Took R st a s
  | accept {tlsOk s} (h : Inner none R st.accept s) : Took R st (.accept tlsOk) s
  | clock {now} (hnow : st.now ≤ now) : Took R st (.clock now) { st with now := now }
  | tick : Took R st .tick (st.probes st.reached st.now)
  | close {k turns c t s} (hc : st.conn? k = some c) (hclosing : c.isClosing = true)
      (hcloses : Closes st c t) (h : Inners none R t s) : Took R st (.close k turns) s.free

theorem Took.effects [Nlohmann] {a : Action} (h : Took R st a s) (hdetached : st.detached = none) :
    Effects (delivered st a) R st s := by
  cases h with
  | inners hinners => exact hinners.effects
  | accept hinner => exact (Relation.ReflTransGen.single (.accept hdetached)).tail (.inner hinner)
  | clock hnow => exact .single (.clock hnow)
  | tick => exact probes_effects rfl st.reached
  | close hc hclosing hcloses hinners =>
      have hclose : Effect none R st _ :=
        .close (Server.mem_conns_of_conn? hdetached hc) hdetached hcloses
      exact ((Relation.ReflTransGen.single hclose).trans hinners.effects).tail .free

theorem Took.detached_none [Nlohmann] {a : Action} (h : Took R st a s)
    (hdetached : st.detached = none) : s.detached = none := by
  cases h with
  | inners hinners => exact hinners.detached_none hdetached
  | accept hinner => exact hinner.detached_none hdetached
  | clock hnow => exact hdetached
  | tick =>
      have hwiring := congrArg Wiring.detached (wiring_probes st st.reached st.now)
      simpa [Server.wiring, hdetached] using hwiring
  | close => rfl

/-- The action closes a connection on which something is found late. -/
inductive ClosesLate (R : Server → ConnPtr → Bool → FactoryRun → Prop) (st : Server) :
    Action → Fault → Prop where
  | close {k turns c p} (hc : st.conn? k = some c) (hclosing : c.isClosing = true)
      (hopen : c.isOpen = true) (h : Late R st k c turns p) :
      ClosesLate R st (.close k turns) (.deadContext p)

def Finishes [Nlohmann] (R : Server → ConnPtr → Bool → FactoryRun → Prop) (st : Server)
    (a : Action) : Outcome Server Exn Fault Unit → Prop
  | .ret _ s => Took R st a s
  | .throw _ _ => False
  | .fault f => Excused (delivered st a) R st f ∨ ClosesLate R st a f

theorem Ends.finishes [Nlohmann] {a : Action} {out : Outcome Server Exn Fault Unit}
    (h : Ends (delivered st a) R st out) : Finishes R st a out := by
  cases out with
  | ret _ t => exact .inners h
  | throw e t => exact h
  | fault f => exact .inl h

theorem Reads.finishes [Nlohmann] {a : Action} {out : Outcome Server Exn Fault Unit}
    (h : Reads R k st out) (hdetached : st.detached = none) (ha : delivered st a = none) :
    Finishes R st a out := by
  cases out with
  | ret _ t => exact .inners (ha ▸ h)
  | throw e t => exact h
  | fault f =>
      obtain ⟨p, s, rfl, hs, hstale⟩ := h
      have hdangling := hstale.dangling (hs.detached_none hdetached)
      exact .inl (.inr ⟨s, ha ▸ hs.effects, hdangling⟩)

theorem onConn_run {test : Connection → Bool} {c : Connection} (hc : st.conn? k = some c)
    (htest : test c = true) (x : Cpp Unit) : (onConn k test x).run st = x.run st := by
  rw [onConn, bind_of_ret (run_get st), hc, Option.any_some, if_pos htest]

theorem onConn_finishes [Nlohmann] {a : Action} {test : Connection → Bool} {x : Cpp Unit}
    (h : ∀ c, st.conn? k = some c → test c = true → Finishes R st a (x.run st)) :
    Finishes R st a ((onConn k test x).run st) := by
  rw [onConn, bind_of_ret (run_get st)]
  cases hc : st.conn? k with
  | none => exact .inners .refl
  | some c =>
      cases htest : test c with
      | true => simpa [htest] using h c hc htest
      | false =>
          simp only [Option.any_some, htest, Bool.false_eq_true, if_false]
          exact .inners .refl

theorem perform_finishes [Nlohmann] (hwf : st.Wf) (hdetached : st.detached = none)
    {a : Action} (hjoins : Joins R st a) : Finishes R st a ((perform a).run st) := by
  have hset : ∀ {a k} {f : Connection → Connection}, (∀ c : Connection, c.SameAs (f c)) →
      Finishes R st a ((setConn k f).run st) :=
    fun hf => (setConn_runs hf).ends.finishes
  cases a with
  | accept tlsOk =>
      rw [perform, bind_of_ret (run_get st)]
      split
      · obtain ⟨s, hrun, hs⟩ := acceptConn_run none R st tlsOk
        rw [hrun]
        exact .accept hs
      · exact .inners .refl
  | handshake k ok =>
      refine onConn_finishes fun c hc htest => ?_
      have hhandshake : Runs none R st (mgTlsHandshake k ok) := by
        cases ok with
        | true =>
            exact (setConn_runs (f := fun c => { c with isTlsHs := false }) fun _ =>
              ⟨rfl, rfl⟩).bind fun _ => mgNotify_runs hdetached
        | false => exact mgError_runs hdetached
      exact Ends.finishes (a := .handshake k ok) hhandshake.ends
  | http k turns =>
      refine onConn_finishes fun c hc htest => ?_
      obtain ⟨K, hpending, hK⟩ := hjoins
      obtain ⟨hopen, hpfn⟩ : c.isOpen = true ∧ c.pfn = .httpCb := by simpa using htest
      have hreads := httpCb_reads hpending turns (by simp [hc])
        fun hresp => hK c hc hopen hpfn (by simpa [hc] using hresp)
      exact hreads.finishes hdetached rfl
  | fileDone k =>
      refine onConn_finishes fun c hc htest => ?_
      exact hset fun _ => ⟨rfl, rfl⟩
  | ws k frame =>
      refine onConn_finishes fun c hc htest => ?_
      have hmessage : ∀ j, (frame.message c.frag).bind Nlohmann.parse = some j →
          delivered st (.ws k frame) = some (k, j) := by
        intro j hj
        rw [delivered, hc, Option.bind_some, if_pos htest, hj]
        rfl
      have hends := mgWsCb_ends hwf hdetached hc hmessage
      exact hends.mono.finishes
  | tick =>
      rw [perform, bind_of_ret (run_get st)]
      rcases st.reached_valid_or with hall | ⟨p, hp, hinvalid⟩
      · rw [timerEvent_run hall]
        exact .tick
      · obtain ⟨f, hf⟩ := timerEvent_fault hp hinvalid st.now
        rw [hf]
        exact .inl (.of_dangling .refl (dangling_of_reached hp hinvalid))
  | clock now =>
      by_cases hnow : st.now ≤ now
      · have hrun : (perform (.clock now)).run st = .ret () { st with now := now } := by
          simp [perform, hnow]
        rw [hrun]
        exact .clock hnow
      · have hrun : (perform (.clock now)).run st = .ret () st := by
          simp [perform, hnow]
        rw [hrun]
        exact .inners .refl
  | drained k =>
      refine onConn_finishes fun c hc htest => ?_
      exact hset fun _ => ⟨rfl, rfl⟩
  | error k =>
      refine onConn_finishes fun c hc htest => ?_
      exact hset fun _ => ⟨rfl, rfl⟩
  | notify k => exact (mgNotify_runs hdetached).ends.finishes
  | close k turns =>
      refine onConn_finishes fun c hc htest => ?_
      obtain ⟨K, hpending, hK⟩ := hjoins
      rw [bind_of_ret (run_get st), hc, Option.any_some]
      rcases mgCloseConn_cases (m := none) hpending hwf hdetached hc
          (fun hpfn hresp s hs => hK c hc htest hpfn hresp s hs) with
        ⟨t, s, hrun, hcloses, hs⟩ | ⟨p, hrun, hlate⟩ | ⟨f, hrun, hf⟩
      · rw [hrun]
        exact .close hc htest hcloses hs
      · rw [hrun]
        cases hopen : c.isOpen with
        | true => exact .inr (.close hc htest hopen (by simpa [hopen] using hlate))
        | false => exact absurd (by simp [hopen]) hlate.turns
      · rw [hrun]
        exact .inl hf

/-! ## Steps and runs -/

theorem step_took [Nlohmann] {a : Action} (hwf : st.Wf) (hdetached : st.detached = none)
    (hjoins : Joins R st a) (h : step st a = .ok s) : Took R st a s := by
  have hfinishes := perform_finishes hwf hdetached hjoins
  rw [step] at h
  cases hrun : (perform a).run st with
  | ret _ t =>
      rw [hrun] at h hfinishes
      cases h
      exact hfinishes
  | throw e t => rw [hrun] at hfinishes; exact hfinishes.elim
  | fault f => rw [hrun] at h; cases h

theorem step_effects [Nlohmann] {a : Action} (hwf : st.Wf) (hdetached : st.detached = none)
    (hjoins : Joins R st a) (h : step st a = .ok s) : Effects (delivered st a) R st s :=
  (step_took hwf hdetached hjoins h).effects hdetached

/-- A step that does not complete has one of three reasons. -/
theorem step_excused [Nlohmann] {f : Fault} {a : Action} (hwf : st.Wf)
    (hdetached : st.detached = none) (hjoins : Joins R st a) (h : step st a = .error f) :
    Excused (delivered st a) R st f ∨ ClosesLate R st a f := by
  have hfinishes := perform_finishes hwf hdetached hjoins
  rw [step] at h
  cases hrun : (perform a).run st with
  | ret _ t => rw [hrun] at h; cases h
  | throw e t => rw [hrun] at hfinishes; exact hfinishes.elim
  | fault g =>
      rw [hrun] at h hfinishes
      cases h
      exact hfinishes

theorem pending_true : Pending (fun _ _ _ _ => True) k fun _ _ => True :=
  ⟨fun _ _ _ _ _ => trivial, fun _ _ _ _ _ _ => ⟨trivial, trivial⟩⟩

theorem joins_true (a : Action) : Joins (fun _ _ _ _ => True) st a := by
  cases a with
  | http k turns => exact ⟨_, pending_true, fun _ _ _ _ _ => trivial⟩
  | close k turns => exact ⟨_, pending_true, fun _ _ _ _ _ _ _ => trivial⟩
  | _ => trivial

theorem initial_wf : initial.Wf where
  wiring := by
    constructor <;> simp [initial, Server.wiring, Wiring.allocated, Connection.wire]
  tables := nofun

/-- Reachable servers are well formed, and no connection is halfway closed. -/
theorem reachable_wf [Nlohmann] (h : Reachable st) : st.Wf ∧ st.detached = none := by
  refine h.invariant (I := fun s => s.Wf ∧ s.detached = none) ⟨initial_wf, rfl⟩
    fun s s' a _ hs _ hstep => ?_
  have htook := step_took hs.1 hs.2 (joins_true a) hstep
  exact ⟨hs.1.effects (htook.effects hs.2), htook.detached_none hs.2⟩

end

end Mgws
