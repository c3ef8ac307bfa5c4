import Mgws.Proofs.Names
import Mathlib.Data.Set.Function
/-!
# Ids identify sessions

`GetId` keeps 32 bits of a 64-bit counter that every accepted connection
advances.  Two sessions share an id exactly when one was made on a connection
accepted a multiple of 2^32 connections after that of the other, so ids stay
distinct as long as no session is made while another one holds its id.
-/

namespace Mgws

open Lib Program

/-! ## The connections with a session -/

namespace Wiring

variable (w : Wiring)

def held : Set ConnPtr := {k | (∃ p, w.owner p = some k) ∧ k ∈ w.conns.map (·.ptr)}

/-- No session was made for a connection still to come, and the connections with
a session have different ids. -/
structure Told : Prop where
  bound : ∀ p k, w.owner p = some k → k ≤ w.nextid
  injOn : Set.InjOn sessionId w.held

variable {w} {w' : Wiring} {k : ConnPtr}

theorem Told.of_subset (h : w.Told) (howner : ∀ p k, w'.owner p = some k → w.owner p = some k)
    (hnextid : w.nextid ≤ w'.nextid) (hsub : w'.held ⊆ w.held) : w'.Told :=
  ⟨fun p k hk => (h.bound p k (howner p k hk)).trans hnextid, h.injOn.mono hsub⟩

theorem conns_ptrs_join (k : ConnPtr) (hasKey : Bool) (run : FactoryRun) :
    (w.join k hasKey run).conns.map (·.ptr) = w.conns.map (·.ptr) := by
  rw [conns_join, List.map_map]
  exact List.map_congr_left fun c _ => c.joined_ptr _ _ _ _

theorem held_join {l : ConnPtr} {hasKey : Bool} {run : FactoryRun}
    (hl : l ∈ (w.join k hasKey run).held) : l ∈ w.held ∨ run.made = true ∧ l = k := by
  obtain ⟨⟨p, hp⟩, hmem⟩ := hl
  rw [conns_ptrs_join] at hmem
  rw [owner_join] at hp
  split at hp
  · next hnew => exact .inr ⟨hnew.1, (Option.some.inj hp).symm⟩
  · exact .inl ⟨⟨p, hp⟩, hmem⟩

/-- A new session keeps the ids distinct when no other connection holds its id. -/
theorem Told.join (h : w.Told) (hk : k ≤ w.nextid) (hasKey : Bool) {run : FactoryRun}
    (hclash : run.made = true → k ∈ w.conns.map (·.ptr) →
      ∀ l ∈ w.held, l ≠ k → sessionId l ≠ sessionId k) :
    (w.join k hasKey run).Told := by
  constructor
  · intro p l hl
    rw [nextid_join]
    rw [owner_join] at hl
    split at hl
    · cases hl
      exact hk
    · exact h.bound p l hl
  · intro a ha b hb hid
    have hptr : ∀ l ∈ (w.join k hasKey run).held, l ∈ w.conns.map (·.ptr) := by
      intro l hl
      have hmem := hl.2
      rwa [conns_ptrs_join] at hmem
    rcases held_join ha with hold | ⟨hrun, rfl⟩
    · rcases held_join hb with hold' | ⟨hrun, rfl⟩
      · exact h.injOn hold hold' hid
      · by_contra hne
        exact hclash hrun (hptr b hb) a hold hne hid
    · rcases held_join hb with hold' | ⟨-, rfl⟩
      · by_contra hne
        exact hclash hrun (hptr a ha) b hold' (Ne.symm hne) hid.symm
      · rfl

theorem Told.unlink (h : w.Told) (k : ConnPtr) : (w.unlink k).Told := by
  refine h.of_subset (fun _ _ hk => hk) le_rfl ?_
  rintro l ⟨hp, hl⟩
  obtain ⟨c, hc, rfl⟩ := List.mem_map.mp hl
  exact ⟨hp, List.mem_map_of_mem (List.mem_filter.mp hc).1⟩

theorem Told.delete (h : w.Told) (p : SessionPtr) : (w.delete p).Told := by
  have howner : ∀ q k, (w.delete p).owner q = some k → w.owner q = some k := by
    intro q k hk
    simp only [Wiring.delete] at hk
    split at hk
    · cases hk
    · exact hk
  refine h.of_subset howner le_rfl ?_
  rintro l ⟨⟨q, hq⟩, hl⟩
  exact ⟨⟨q, howner q l hq⟩, hl⟩

theorem Told.accept (h : w.Told) : w.accept.Told := by
  refine h.of_subset (fun _ _ hk => hk) (Nat.le_succ _) ?_
  rintro l ⟨⟨p, hp⟩, hl⟩
  refine ⟨⟨p, hp⟩, ?_⟩
  rcases List.mem_cons.mp hl with rfl | hold
  · have hbound := h.bound p _ hp
    exact absurd hbound (Nat.not_succ_le_self _)
  · exact hold

end Wiring

/-! ## Requests that keep the ids distinct -/

/-- A session is made on a connection of the list only when no other connection
with a session has the same id. -/
def Unheld (st : Server) (k : ConnPtr) (_ : Bool) (run : FactoryRun) : Prop :=
  run.made = true → k ∈ st.wiring.conns.map (·.ptr) →
    ∀ l ∈ st.wiring.held, l ≠ k → sessionId l ≠ sessionId k

section

variable {m : Option (ConnPtr × Json)} {st s : Server}

theorem pending_unheld (k : ConnPtr) :
    Pending Unheld k fun ws st => (∃ x ∈ ws, x.2.made = true) →
      ∀ l ∈ st.wiring.held, l ≠ k → sessionId l ≠ sessionId k where
  inner ws s t hinner hK := by
    rwa [Inners.wiring_eq (.single hinner)]
  websock hasKey run ws s _ hK := by
    constructor
    · intro hmade _
      exact hK ⟨(hasKey, run), List.mem_cons_self, hmade⟩
    · rintro ⟨x, hmem, hmade⟩ l hl hne
      rw [Server.wiring_websock] at hl
      rcases Wiring.held_join hl with hold | ⟨-, rfl⟩
      · exact hK ⟨x, List.mem_cons_of_mem _ hmem, hmade⟩ l hold hne
      · exact absurd rfl hne

/-- What is served after the connection has left the list makes no session that
counts. -/
theorem pending_unlinked (k : ConnPtr) :
    Pending Unheld k fun _ st => k ∉ st.wiring.conns.map (·.ptr) where
  inner ws s t hinner hK := by
    rwa [Inners.wiring_eq (.single hinner)]
  websock hasKey run ws s _ hK := by
    refine ⟨fun _ hmem => absurd hmem hK, ?_⟩
    rwa [Server.wiring_websock, Wiring.conns_ptrs_join]

theorem Effect.told (h : Effect m Unheld st s) (hwf : st.Wf) (hst : st.wiring.Told) :
    s.wiring.Told := by
  cases h with
  | inner hinner =>
      rcases hinner.wiring with hw | ⟨k, hasKey, run, hk, hclash, hw⟩
      · rw [hw]
        exact hst
      · rw [Server.conn?_isSome_wiring] at hk
        obtain ⟨c, hc, rfl⟩ := List.mem_map.mp hk
        rw [hw]
        exact hst.join (hwf.wiring.bound c hc) hasKey hclash
  | close hc hdetached hcloses =>
      cases hcloses with
      | plain =>
          rw [Server.wiring_unlink]
          exact hst.unlink _
      | session =>
          rw [wiring_broadcast, Server.wiring_delete, Server.wiring_unlink]
          exact (hst.unlink _).delete _
  | free => exact ⟨hst.bound, hst.injOn⟩
  | accept => exact hst.accept
  | clock => exact hst
  | probe =>
      rw [wiring_probe]
      exact hst

theorem Effects.told (h : Effects m Unheld st s) (hwf : st.Wf) (hst : st.wiring.Told) :
    s.wiring.Told :=
  (h.invariant (I := fun t => t.Wf ∧ t.wiring.Told) ⟨hwf, hst⟩ fun _ _ heffect ht =>
    ⟨ht.1.effect heffect, heffect.told ht.1 ht.2⟩).2

/-! ## Distinct ids -/

/-- Two sessions that are alive, on different connections, are told different
ids. -/
def Server.Distinct (st : Server) : Prop :=
  ∀ p q x y m n, st.heap p = some x → st.heap q = some y → x.connection ≠ y.connection →
    (Session.getId p).run st = .ret m st → (Session.getId q).run st = .ret n st → m ≠ n

/-- A read serves no request for `/websock` that makes a session, or no session
that is alive on another connection has the low 32 bits of the number of this
one. -/
def Unclashing (st : Server) : Action → Prop
  | .http k turns => ∀ c, st.conn? k = some c → c.isOpen = true → c.pfn = .httpCb →
      c.isResp = false → (∃ x ∈ websocks turns, x.2.made = true) →
        ∀ p s, st.heap p = some s → st.Valid p → s.connection ≠ k →
          sessionId s.connection ≠ sessionId k
  | _ => True

theorem valid_of_getId {p : SessionPtr} {n : Nat}
    (h : (Session.getId p).run st = .ret n st) : st.Valid p ∧ st.idOf p = n := by
  by_cases hp : st.Valid p
  · rw [getId_run hp] at h
    injection h with hid
    exact ⟨hp, hid⟩
  · obtain ⟨f, hf⟩ := getId_fault hp
    rw [hf] at h
    cases h

theorem mem_held_iff (hdetached : st.detached = none) {k : ConnPtr} :
    k ∈ st.wiring.held ↔ ∃ p s, st.heap p = some s ∧ st.Valid p ∧ s.connection = k := by
  have hallocated : st.wiring.allocated = st.wiring.conns := by
    simp [Wiring.allocated, Server.wiring, hdetached]
  constructor
  · rintro ⟨⟨p, hp⟩, hk⟩
    obtain ⟨s, hs, rfl⟩ := Option.map_eq_some_iff.mp hp
    refine ⟨p, s, hs, ⟨s, hs, ?_⟩, rfl⟩
    rwa [Server.conn?_isSome_wiring, hallocated]
  · rintro ⟨p, s, hs, ⟨s', hs', hconn⟩, rfl⟩
    rw [hs] at hs'
    cases hs'
    rw [Server.conn?_isSome_wiring, hallocated] at hconn
    exact ⟨⟨p, Server.owner_of_heap hs⟩, hconn⟩

theorem distinct_of_told (hdetached : st.detached = none) (h : st.wiring.Told) :
    st.Distinct := by
  rintro p q x y m n hx hy hne hm hn rfl
  obtain ⟨hp, hpid⟩ := valid_of_getId hm
  obtain ⟨hq, hqid⟩ := valid_of_getId hn
  have hxheld := (mem_held_iff hdetached).mpr ⟨p, x, hx, hp, rfl⟩
  have hyheld := (mem_held_iff hdetached).mpr ⟨q, y, hy, hq, rfl⟩
  refine hne (h.injOn hxheld hyheld ?_)
  have hxid : st.idOf p = sessionId x.connection := by rw [Server.idOf, hx, Option.elim]
  have hyid : st.idOf q = sessionId y.connection := by rw [Server.idOf, hy, Option.elim]
  rw [← hxid, ← hyid, hpid, hqid]

/-- Up to 2^32 connections no id is given twice. -/
theorem distinct_of_accepted [Nlohmann] (h : Reachable st) (hcount : st.accepted < 2 ^ 32) :
    st.Distinct := by
  obtain ⟨hwf, -⟩ := reachable_wf h
  rintro p q x y m n hx hy hne hm hn rfl
  have hrange : ∀ {r : SessionPtr} {z : Session}, st.heap r = some z → st.Valid r →
      st.idOf r = sessionId z.connection ∧ 0 < z.connection ∧ z.connection ≤ 2 ^ 32 := by
    rintro r z hz ⟨z', hz', hconn⟩
    rw [hz] at hz'
    cases hz'
    exact ⟨by rw [Server.idOf, hz, Option.elim], ptr_range hwf hcount hconn⟩
  obtain ⟨hp, hpid⟩ := valid_of_getId hm
  obtain ⟨hq, hqid⟩ := valid_of_getId hn
  obtain ⟨hxid, hxrange⟩ := hrange hx hp
  obtain ⟨hyid, hyrange⟩ := hrange hy hq
  exact hne (eq_of_sessionId hxrange hyrange (by rw [← hxid, ← hyid, hpid, hqid]))

theorem joins_unheld (hdetached : st.detached = none) {a : Action} (h : Unclashing st a) :
    Joins Unheld st a := by
  cases a with
  | http k turns =>
      refine ⟨_, pending_unheld k, fun c hc hopen hpfn hresp hserves l hl hne => ?_⟩
      obtain ⟨p, s, hs, hp, rfl⟩ := (mem_held_iff hdetached).mp hl
      exact h c hc hopen hpfn hresp hserves p s hs hp hne
  | close k turns =>
      refine ⟨_, pending_unlinked k, fun c _ _ _ _ s hgone hmem => ?_⟩
      obtain ⟨w, hw, hptr⟩ := List.mem_map.mp hmem
      obtain ⟨d, hd, rfl⟩ := List.mem_map.mp hw
      exact hgone d hd hptr
  | _ => trivial

variable [Nlohmann]

/-- In every run in which no session is made while another one holds its id, the
sessions that are alive have different ids throughout. -/
theorem always_distinct {es : List Action}
    (hmeets : Transition.Meets step Unclashing initial es) :
    Transition.Always step Server.Distinct initial es := by
  have htold : Transition.Always step
      (fun s => s.Wf ∧ s.detached = none ∧ s.wiring.Told) initial es := by
    refine Transition.Always.of_meets (A := fun _ => True) .init (fun _ _ => trivial)
      ⟨initial_wf, rfl, ?_⟩ ?_ hmeets
    · constructor <;> simp [initial, Server.wiring, Wiring.held]
    · intro s t a _ hs _ hC hstep
      obtain ⟨hwf, hdetached, hst⟩ := hs
      have htook := step_took hwf hdetached (joins_unheld hdetached hC) hstep
      have heffects := htook.effects hdetached
      exact ⟨hwf.effects heffects, htook.detached_none hdetached, heffects.told hwf hst⟩
  exact htold.mono fun s hs => distinct_of_told hs.2.1 hs.2.2

end

theorem always_distinct_joining :
    letI := parserOf "" .null
    Transition.Always step Server.Distinct initial (joining 2 ++ joining 3) := by
  let _ := parserOf "" .null
  refine always_distinct ?_
  rintro _ ⟨⟩
  refine ⟨trivial, ?_⟩
  rintro _ ⟨⟩
  refine ⟨trivial, ?_⟩
  rintro _ ⟨⟩
  refine ⟨?_, ?_⟩
  · rintro c - - - - - p s ⟨⟩
  rintro _ ⟨⟩
  refine ⟨trivial, ?_⟩
  rintro _ ⟨⟩
  refine ⟨trivial, ?_⟩
  rintro _ ⟨⟩
  refine ⟨?_, trivial⟩
  rintro c - - - - - p s hs - -
  cases p with
  | zero =>
      cases hs
      decide
  | succ p => cases hs

/-! ## The counter wraps -/

def Server.Listens (st : Server) : Prop :=
  ∃ c ∈ st.conns, c.isListening = true ∧ c.isClosing = false

def Server.greet (st : Server) : Server :=
  st.accept.updateConn (st.nextid + 1) fun c => { c with isTlsHs := true }

def visit (k : ConnPtr) : List Action := [.accept true, .error k, .close k []]

def visits : Nat → ConnPtr → List Action
  | 0, _ => []
  | n + 1, k => visit k ++ visits n (k + 1)

/-- Connections are counted, and none is halfway closed. -/
structure Server.Settles (st : Server) : Prop where
  listens : st.Listens
  detached : st.detached = none
  bound : ∀ c ∈ st.conns, c.ptr ≤ st.nextid

section

variable {st : Server} {k : ConnPtr} {c : Connection}

theorem conn?_greet_isSome (hk : (st.conn? k).isSome) : (st.greet.conn? k).isSome := by
  obtain ⟨c, hc, rfl⟩ := Server.conn?_isSome_iff.mp hk
  have hmem : c ∈ st.accept.allocated := List.mem_cons_of_mem _ hc
  have haccept := Server.conn?_isSome_iff.mpr ⟨c, hmem, rfl⟩
  have hmark : Inner none NoJoin st.accept st.greet := .conn fun _ => ⟨rfl, rfl⟩
  exact (hmark.conn?_isSome _).mpr haccept

theorem conn?_greet (st : Server) :
    ∃ c, st.greet.conn? (st.nextid + 1) = some c ∧ c.isTlsHs = true ∧ c.fnData = .manager ∧
      c.isListening = false ∧ c.pfn = .httpCb ∧ c.isResp = false := by
  have haccept : ∃ c, st.accept.conn? (st.nextid + 1) = some c ∧ c.fnData = .manager ∧
      c.isListening = false ∧ c.pfn = .httpCb ∧ c.isResp = false := by
    simp [Server.conn?, Server.allocated, Server.accept]
  obtain ⟨c, hc, hplain⟩ := haccept
  refine ⟨{ c with isTlsHs := true }, ?_, rfl, hplain⟩
  rw [Server.greet, Server.conn?_updateConn_self, hc, Option.map_some]
  exact fun _ => rfl

variable [Nlohmann]

theorem step_accept (h : st.Listens) : step st (.accept true) = .ok st.greet := by
  have hany : (st.conns.any fun c => c.isListening && !c.isClosing) = true := by
    obtain ⟨c, hc, hlistening, hclosing⟩ := h
    exact List.any_eq_true.mpr ⟨c, hc, by simp [hlistening, hclosing]⟩
  have hrun : (perform (.accept true)).run st = .ret () st.greet := by
    rw [perform, bind_of_ret (run_get st), if_pos hany]
    obtain ⟨c, hc, hctx⟩ := conn?_accept_self st
    exact mgCall_live hc (hctx ▸ trivial) (.accept true)
  rw [step, hrun]

theorem step_handshake (hc : st.conn? k = some c) (htls : c.isTlsHs = true)
    (hlive : st.Live c.fnData) :
    step st (.handshake k true) = .ok (st.updateConn k fun c => { c with isTlsHs := false }) := by
  have hdone : (st.updateConn k fun c => { c with isTlsHs := false }).conn? k =
      some { c with isTlsHs := false } := by
    rw [Server.conn?_updateConn_self, hc, Option.map_some]
    exact fun _ => rfl
  have hrun : (mgTlsHandshake k true).run st =
      .ret () (st.updateConn k fun c => { c with isTlsHs := false }) := mgNotify_live hdone hlive
  rw [step, perform, onConn_run hc htls, hrun]

theorem step_websock (hc : st.conn? k = some c) (hopen : c.isOpen = true)
    (hpfn : c.pfn = .httpCb) (hresp : c.isResp = false) (hlive : st.Live c.fnData) :
    step st (.http k [.message (.websock true .returns)]) =
      .ok ((st.updateConn k fun c => { c with isResp := true }).websock k true .returns) := by
  have hasked : (st.updateConn k fun c => { c with isResp := true }).conn? k =
      some { c with isResp := true } := by
    rw [Server.conn?_updateConn_self, hc, Option.map_some]
    exact fun _ => rfl
  have hset : (setConn k fun c => { c with isResp := true }).run st =
      .ret () (st.updateConn k fun c => { c with isResp := true }) := rfl
  have hcall := (mgCall_live hasked hlive (.httpMsg (.websock true .returns))).trans
    (websock_run (by simp [hasked]) _ true .returns)
  have hloop : (httpCb k [.message (.websock true .returns)]).run st =
      .ret () ((st.updateConn k fun c => { c with isResp := true }).websock k true .returns) := by
    rw [httpCb, bind_of_ret (run_get st), hc, Option.any_some, hresp]
    exact (bind_of_ret hset).trans (bind_of_ret hcall)
  rw [step, perform, onConn_run hc (by simp [hopen, hpfn]), hloop]

theorem step_error (hc : st.conn? k = some c) :
    step st (.error k) = .ok (st.updateConn k fun c => { c with isClosing := true }) := by
  rw [step, perform, onConn_run hc rfl]
  rfl

theorem step_close_plain (hc : st.conn? k = some c) (hclosing : c.isClosing = true)
    (hpfn : c.pfn = .httpCb) (hctx : c.fnData = .manager) :
    step st (.close k []) = .ok (st.unlink k).free := by
  have hunlinked := conn?_unlink hc
  have hcall : (mgCall k .close).run (st.unlink k) = .ret () (st.unlink k) := by
    rw [mgCall_live hunlinked (hctx ▸ trivial), hctx]
    rfl
  have hclose : (pfnClose k []).run (st.unlink k) = .ret () (st.unlink k) := by
    rw [pfnClose, bind_of_ret (run_get _), hunlinked, Option.map_some, hpfn]
    rfl
  have hrun : (mgCloseConn k []).run st = .ret () (st.unlink k).free :=
    (bind_of_ret hcall).trans (bind_of_ret hclose)
  rw [step, perform, onConn_run hc hclosing, bind_of_ret (run_get st), ite_self, hrun]

omit [Nlohmann] in
theorem filter_updateConn {f : Connection → Connection} (hf : ∀ c, (f c).ptr = c.ptr) :
    (st.updateConn k f).conns.filter (fun c => c.ptr ≠ k) =
      st.conns.filter fun c => c.ptr ≠ k := by
  rw [Server.updateConn]
  induction st.conns with
  | nil => rfl
  | cons c cs ih =>
      rw [List.map_cons]
      by_cases hk : c.ptr = k
      · rw [if_pos hk, List.filter_cons_of_neg (by simp [hf, hk]),
          List.filter_cons_of_neg (by simp [hk]), ih]
      · rw [if_neg hk, List.filter_cons_of_pos (by simp [hk]),
          List.filter_cons_of_pos (by simp [hk]), ih]

/-- A client that connects and goes leaves nothing but a higher counter. -/
theorem visit_run (h : st.Settles) :
    Transition.run step st (visit (st.nextid + 1)) = .ok { st with nextid := st.nextid + 1 } := by
  obtain ⟨c, hc, -, hctx, -, hpfn, -⟩ := conn?_greet st
  let closing := st.greet.updateConn (st.nextid + 1) fun c => { c with isClosing := true }
  have hclosing : closing.conn? (st.nextid + 1) = some { c with isClosing := true } := by
    rw [Server.conn?_updateConn_self, hc, Option.map_some]
    exact fun _ => rfl
  have hconns : closing.conns.filter (fun c => c.ptr ≠ st.nextid + 1) = st.conns := by
    have hold : st.conns.filter (fun c => c.ptr ≠ st.nextid + 1) = st.conns := by
      refine List.filter_eq_self.mpr fun d hd => ?_
      exact decide_eq_true (Nat.lt_succ_of_le (h.bound d hd)).ne
    rw [filter_updateConn, Server.greet, filter_updateConn, Server.accept,
      List.filter_cons_of_neg (by simp), hold] <;> exact fun _ => rfl
  have hfree : (closing.unlink (st.nextid + 1)).free = { st with nextid := st.nextid + 1 } := by
    show ({ st with
      nextid := st.nextid + 1
      conns := closing.conns.filter fun c => c.ptr ≠ st.nextid + 1
      detached := none } : Server) = _
    rw [hconns, ← h.detached]
  simp only [visit, Transition.run, step_accept h.listens, step_error hc]
  rw [step_close_plain hclosing rfl hpfn hctx, hfree]

theorem visits_run (n : Nat) (h : st.Settles) :
    Transition.run step st (visits n (st.nextid + 1)) =
      .ok { st with nextid := st.nextid + n } := by
  induction n generalizing st with
  | zero => rfl
  | succ n ih =>
      have hnext : Server.Settles { st with nextid := st.nextid + 1 } :=
        ⟨h.listens, h.detached, fun c hc => (h.bound c hc).trans (Nat.le_succ _)⟩
      rw [visits, Transition.run_append (visit_run h), ih hnext]
      simp only [Nat.add_assoc, Nat.add_comm 1 n]

theorem joining_run (h : st.Listens) :
    ∃ s, Transition.run step st (joining (st.nextid + 1)) = .ok s ∧
      (∀ q, s.heap q = if q = st.nextSession then some (Peer.create (st.nextid + 1) st.now)
        else st.heap q) ∧
      (s.conn? (st.nextid + 1)).isSome ∧ ∀ k, (st.conn? k).isSome → (s.conn? k).isSome := by
  obtain ⟨c, hc, htls, hctx, hlistening, hpfn, hresp⟩ := conn?_greet st
  let opened := st.greet.updateConn (st.nextid + 1) fun c => { c with isTlsHs := false }
  let asked := opened.updateConn (st.nextid + 1) fun c => { c with isResp := true }
  have hopened : opened.conn? (st.nextid + 1) = some { c with isTlsHs := false } := by
    rw [Server.conn?_updateConn_self, hc, Option.map_some]
    exact fun _ => rfl
  have hconn : ∀ k, (st.greet.conn? k).isSome →
      ((asked.websock (st.nextid + 1) true .returns).conn? k).isSome := by
    intro k hk
    have hinners : Inners none (fun _ _ _ _ => True) st.greet
        (asked.websock (st.nextid + 1) true .returns) := by
      have hmark₁ : Inner none (fun _ _ _ _ => True) st.greet opened := .conn fun _ => ⟨rfl, rfl⟩
      have hmark₂ : Inner none (fun _ _ _ _ => True) opened asked := .conn fun _ => ⟨rfl, rfl⟩
      have hself : (asked.conn? (st.nextid + 1)).isSome :=
        (hmark₂.conn?_isSome _).mpr (by rw [hopened]; rfl)
      exact ((Relation.ReflTransGen.single hmark₁).tail hmark₂).tail (.websock hself trivial)
    exact (hinners.conn?_isSome k).mpr hk
  refine ⟨asked.websock (st.nextid + 1) true .returns, ?_, ?_, ?_, fun k hk => ?_⟩
  · have hwebsock := step_websock hopened (by simp [Connection.isOpen, hlistening]) hpfn hresp
      (show opened.Live c.fnData from hctx ▸ trivial)
    simp only [joining, connect, Transition.run, step_accept h,
      step_handshake hc htls (hctx ▸ trivial), List.map_cons, List.map_nil]
    rw [hwebsock]
  · intro q
    rw [Server.heap_websock]
    simp only [FactoryRun.made, true_and]
    rfl
  · exact hconn _ (by rw [hc]; rfl)
  · exact hconn k (conn?_greet_isSome hk)

end

/-- The 2^32nd connection after that of a session gets the id of the session. -/
theorem not_distinct_of_wrap :
    ¬∀ [Nlohmann] (es : List Action), Transition.Always step Server.Distinct initial es := by
  intro hall
  let _ := parserOf "" .null
  have hfirst : ∃ st x, Transition.run step initial (joining 2) = .ok st ∧ st.nextid = 2 ∧
      st.nextSession = 1 ∧ st.heap 0 = some x ∧ x.connection = 2 ∧ (st.conn? 2).isSome ∧
      st.Listens :=
    ⟨_, _, rfl, rfl, rfl, rfl, rfl, rfl, _, .tail _ (.head _), rfl, rfl⟩
  obtain ⟨st, x, hst, hnextid, hnext, hx, hptr, hconn, hlistens⟩ := hfirst
  obtain ⟨hwf, hdetached⟩ := reachable_wf (Transition.reachable_of_run _ hst)
  have hsettles : st.Settles := ⟨hlistens, hdetached, fun c hc =>
    hwf.wiring.bound c.wire (Wiring.mem_allocated_of_mem_conns (List.mem_map_of_mem hc))⟩
  let s : Server := { st with nextid := st.nextid + (2 ^ 32 - 1) }
  have hs := visits_run (2 ^ 32 - 1) hsettles
  have hlistens' : s.Listens := hlistens
  obtain ⟨t, ht, hheap, hnew, hold⟩ := joining_run hlistens'
  have hnextid' : s.nextid + 1 = 2 + 2 ^ 32 := by
    show st.nextid + (2 ^ 32 - 1) + 1 = _
    rw [hnextid]
    omega
  rw [hnextid'] at ht hheap hnew
  have hrun : Transition.run step initial
      (joining 2 ++ (visits (2 ^ 32 - 1) (st.nextid + 1) ++ joining (2 + 2 ^ 32))) = .ok t := by
    rw [Transition.run_append hst, Transition.run_append hs, ht]
  have hx' : t.heap 0 = some x := by
    rw [hheap, if_neg (by rw [hnext]; decide), hx]
  have hy' : t.heap 1 = some (Peer.create (2 + 2 ^ 32) s.now) := by
    rw [hheap, if_pos hnext.symm]
  have hp : t.Valid 0 := ⟨x, hx', by rw [hptr]; exact hold 2 hconn⟩
  have hq : t.Valid 1 := ⟨_, hy', hnew⟩
  have hpid : t.idOf 0 = 2 := by
    rw [Server.idOf, hx', Option.elim, hptr]
    rfl
  have hqid : t.idOf 1 = 2 := by
    rw [Server.idOf, hy', Option.elim]
    show sessionId (2 + 2 ^ 32) = 2
    decide
  refine (hall _).last hrun 0 1 x _ 2 2 hx' hy' ?_ (hpid ▸ getId_run hp) (hqid ▸ getId_run hq) rfl
  rw [hptr]
  show 2 ≠ 2 + 2 ^ 32
  decide

end Mgws
