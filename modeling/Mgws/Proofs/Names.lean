import Mgws.Proofs.Lookup
/-!
# Who changes a name

The name of a session is written through a lookup by id.  As long as ids are
unique the lookup leads back to the session that received the message, so a name
changes only by a message on the session's own connection.
-/

namespace Mgws

open Lib Program

namespace Server

variable (st : Server)

def name? (p : SessionPtr) : Option String := (st.heap p).map (·.userName)

/-- The connections accepted so far.  The first number went to the listener. -/
def accepted : Nat := st.nextid - 1

end Server

section

variable {st s : Server} {k : ConnPtr} {p q r : SessionPtr} {c d : Connection}
  {m : Option (ConnPtr × Json)} {R : Server → ConnPtr → Bool → FactoryRun → Prop}

theorem name?_congr (h : s.heap = st.heap) : s.name? = st.name? := by
  unfold Server.name?
  rw [h]

theorem name?_updateSession {f : Session → Session}
    (hf : ∀ x, (f x).userName = x.userName) : (st.updateSession q f).name? = st.name? := by
  funext r
  by_cases hr : r = q
  · subst hr
    simp only [Server.name?, Server.heap_updateSession_self, Option.map_map, Function.comp_def, hf]
  · simp only [Server.name?, Server.heap_updateSession_ne hr]

theorem name?_probe (ms : Int) : (st.probe p ms).name? = st.name? := by
  rw [Server.probe]
  cases st.heap p with
  | none => rfl
  | some x =>
      simp only [Option.elim]
      split
      · show ((st.updateConn x.connection _).updateSession p _).name? = _
        rw [name?_updateSession]
        · rfl
        · exact fun _ => rfl
      · rw [name?_updateSession]
        · rfl
        · exact fun _ => rfl

theorem name?_rename (name : String) (hq : st.Valid q) :
    (st.rename q name).name? r = if r = q then some name else st.name? r := by
  show ((st.updateSession q _).heap r).map _ = _
  split
  · next hr =>
      subst hr
      obtain ⟨x, hx, -⟩ := hq
      rw [Server.heap_updateSession_self, hx]
      rfl
  · next hr =>
      rw [Server.heap_updateSession_ne hr]
      rfl

theorem name?_websock (hasKey : Bool) (run : FactoryRun) (hr : r ≠ st.nextSession) :
    (st.websock k hasKey run).name? r = st.name? r := by
  unfold Server.name?
  rw [Server.heap_websock, if_neg fun hnew => hr hnew.2]

theorem Inner.name?_cases (h : Inner m R st s) :
    s.name? = st.name? ∨
    (∃ k hasKey run, R st k hasKey run ∧ s = st.websock k hasKey run) ∨
    ∃ k j c p q name, m = some (k, j) ∧ c ∈ st.conns ∧ c.ptr = k ∧ c.fnData = .session p ∧
      st.Valid p ∧ (∀ r ∈ st.reached, st.Valid r) ∧ j.IsLocalIdEvent (st.idOf p) name ∧
      q ∈ st.reached ∧ st.idOf q = st.idOf p ∧
      ∀ r, s.name? r = if r = q then some name else st.name? r := by
  cases h with
  | queue | conn => exact .inl rfl
  | session hf => exact .inl (name?_updateSession fun x => (hf x).userName)
  | pong => exact .inl (name?_updateSession fun _ => rfl)
  | @rename k j c p q name hm hc hk hctx hvalid hall hsmall hevent hq hid =>
      refine .inr (.inr ⟨k, j, c, p, q, name, hm, hc, hk, hctx, hvalid, hall, hevent, hq, hid,
        fun r => ?_⟩)
      have hheap : ((st.rename q name).tell p localIdChanged).broadcast.heap =
          (st.rename q name).heap := heap_broadcast.trans (heap_tell _)
      rw [name?_congr hheap, name?_rename name (hall q hq)]
  | @websock k hasKey run hk hR => exact .inr (.inl ⟨k, hasKey, run, hR, rfl⟩)

/-! ## Actions that deliver no message -/

/-- Without a message, a session keeps its name as long as it exists. -/
theorem Effect.name?_of_none (h : Effect none R st s) :
    st.nextSession ≤ s.nextSession ∧
      ∀ r < st.nextSession, s.name? r = st.name? r ∨ s.name? r = none := by
  cases h with
  | inner hinner =>
      have hnext : st.nextSession ≤ s.nextSession := by
        show st.wiring.nextSession ≤ s.wiring.nextSession
        rcases hinner.wiring with hw | ⟨k, hasKey, run, -, -, hw⟩
        · rw [hw]
        · rw [hw, Wiring.nextSession_join]
          split
          · exact le_rfl
          · exact Nat.le_succ _
      refine ⟨hnext, fun r hr => .inl ?_⟩
      rcases hinner.name?_cases with hsame | ⟨k, hasKey, run, -, rfl⟩ | ⟨k, j, -, -, -, -, hm, -⟩
      · rw [hsame]
      · exact name?_websock hasKey run hr.ne
      · cases hm
  | @close _ c hc hdetached hcloses =>
      cases hcloses with
      | plain => exact ⟨le_rfl, fun r _ => .inl rfl⟩
      | @session p hctx hvalid hall =>
          have hnext : ((st.unlink c.ptr).delete p).broadcast.nextSession = st.nextSession :=
            congrArg Wiring.nextSession wiring_broadcast
          refine ⟨hnext.ge, fun r _ => ?_⟩
          rw [name?_congr heap_broadcast]
          by_cases hr : r = p
          · exact .inr (by simp [Server.name?, Server.delete, hr])
          · exact .inl (by simp [Server.name?, Server.delete, Server.unlink, hr])
  | free | accept | clock => exact ⟨le_rfl, fun r _ => .inl rfl⟩
  | @probe p =>
      have hnext : (st.probe p st.now).nextSession = st.nextSession :=
        congrArg Wiring.nextSession (wiring_probe (p := p) st.now)
      exact ⟨hnext.ge, fun r _ => .inl (by rw [name?_probe])⟩

theorem Effects.name?_of_none (h : Effects none R st s) (hr : r < st.nextSession) :
    s.name? r = st.name? r ∨ s.name? r = none := by
  have hinv := h.invariant
    (I := fun t => st.nextSession ≤ t.nextSession ∧ (t.name? r = st.name? r ∨ t.name? r = none))
    ⟨le_rfl, .inl rfl⟩ fun t u heffect ht => ?_
  · exact hinv.2
  · obtain ⟨hnext, hnames⟩ := heffect.name?_of_none
    refine ⟨ht.1.trans hnext, ?_⟩
    rcases hnames r (lt_of_lt_of_le hr ht.1) with hsame | hnone
    · rw [hsame]
      exact ht.2
    · exact .inr hnone

/-! ## Unique ids -/

/-- Up to 2^32 connections, the low 32 bits of an id determine it. -/
theorem eq_of_sessionId {a b : Nat} (ha : 0 < a ∧ a ≤ 2 ^ 32) (hb : 0 < b ∧ b ≤ 2 ^ 32)
    (h : sessionId a = sessionId b) : a = b := by
  unfold sessionId at h
  omega

theorem ptr_range (hwf : st.Wf) (hcount : st.accepted < 2 ^ 32) (hk : (st.conn? k).isSome) :
    0 < k ∧ k ≤ 2 ^ 32 := by
  obtain ⟨c, hc, rfl⟩ := Server.conn?_isSome_iff.mp hk
  have hmem : c.wire ∈ st.wiring.allocated := Server.mem_allocated_wiring.mpr ⟨c, hc, rfl⟩
  have hpos : 0 < c.ptr := hwf.wiring.pos c.wire hmem
  have hbound : c.ptr ≤ st.nextid := hwf.wiring.bound c.wire hmem
  have hnextid : st.nextid ≤ 2 ^ 32 := by
    unfold Server.accepted at hcount
    omega
  exact ⟨hpos, hbound.trans hnextid⟩

/-- A session with the id of another one is that session. -/
theorem eq_of_idOf (hwf : st.Wf) (hcount : st.accepted < 2 ^ 32) (hc : c ∈ st.conns)
    (hctx : c.fnData = .session p) (hp : st.Valid p) (hq : q ∈ st.reached) (hqv : st.Valid q)
    (hid : st.idOf q = st.idOf p) : q = p := by
  obtain ⟨d, hd, hattached⟩ := mem_walk hq
  have hdq := Connection.fnData_of_attached hattached
  have hrange : ∀ e ∈ st.conns, 0 < e.ptr ∧ e.ptr ≤ 2 ^ 32 :=
    fun e he => ptr_range hwf hcount (by rw [hwf.conn?_of_mem he]; rfl)
  rw [idOf_eq hwf hd hdq hqv, idOf_eq hwf hc hctx hp] at hid
  have hptr := eq_of_sessionId (hrange d hd) (hrange c hc) hid
  obtain rfl := hwf.eq_of_ptr hd hc hptr
  rw [hctx] at hdq
  injection hdq with hsame
  exact hsame.symm

/-! ## The owner -/

/-- What the effects of a message have done to the names: nothing, or they have
given the session of the connection the name that the message asks for. -/
def Renamed (st s : Server) (m : Option (ConnPtr × Json)) : Prop :=
  s.name? = st.name? ∨
    ∃ k j c p name, m = some (k, j) ∧ c ∈ st.conns ∧ c.ptr = k ∧ c.fnData = .session p ∧
      j.IsLocalIdEvent (st.idOf p) name ∧
      ∀ r, s.name? r = if r = p then some name else st.name? r

theorem Inners.renamed (h : Inners m NoJoin st s) (hwf : st.Wf)
    (hcount : st.accepted < 2 ^ 32) : Renamed st s m := by
  have hinv := h.invariant (I := fun t => t.Wf ∧ t.wiring = st.wiring ∧ Renamed st t m)
    ⟨hwf, rfl, .inl rfl⟩ ?_
  · exact hinv.2.2
  intro t u hinner ⟨ht, hwiring, hrenamed⟩
  have hwiring' : u.wiring = st.wiring :=
    (Inners.wiring_eq (.single hinner)).trans hwiring
  refine ⟨ht.inner hinner, hwiring', ?_⟩
  rcases hinner.name?_cases with hsame | ⟨_, _, _, hfalse, -⟩ |
    ⟨k, j, c, p, q, name, hm, hc, hk, hctx, hp, hall, hevent, hq, hid, hnames⟩
  · rw [Renamed, hsame]
    exact hrenamed
  · exact hfalse.elim
  have hcount' : t.accepted < 2 ^ 32 := by
    have hnextid : t.nextid = st.nextid := congrArg Wiring.nextid hwiring
    rwa [Server.accepted, hnextid]
  obtain rfl := eq_of_idOf ht hcount' hc hctx hp hq (hall q hq) hid
  obtain ⟨d, hd, hdc⟩ := Server.exists_wire_of_wiring_eq hwiring hc
  have hdk : d.ptr = k := (congrArg Wire.ptr hdc).trans hk
  have hdctx : d.fnData = .session q := (congrArg Wire.fnData hdc).trans hctx
  refine .inr ⟨k, j, d, q, name, hm, hd, hdk, hdctx, idOf_congr hwiring ▸ hevent, fun r => ?_⟩
  rw [hnames r]
  split
  · rfl
  · next hr =>
      -- an earlier message can only have come on the same connection
      rcases hrenamed with hsame | ⟨k', j', e, p', name', hm', he, hek, hectx, -, hnames'⟩
      · rw [hsame]
      · have hmk : k' = k := by
          rw [hm] at hm'
          cases hm'
          rfl
        obtain rfl := hwf.eq_of_ptr he hd (hek.trans (hmk.trans hdk.symm))
        rw [hdctx] at hectx
        injection hectx with hpq
        rw [hnames' r, if_neg (hpq ▸ hr)]

variable [Nlohmann] {a : Action}

theorem delivered_eq_none_or (st : Server) (a : Action) :
    delivered st a = none ∨ ∃ k frame, a = .ws k frame := by
  cases a with
  | ws k frame => exact .inr ⟨k, frame, rfl⟩
  | _ => exact .inl rfl

/-- The name of a session changes only when a `LocalIdEvent` with its own id is
delivered on its own connection; it becomes the name in the message, and no
other name changes. -/
theorem name_changed_by_owner (h : Reachable st) (hstep : step st a = .ok s)
    (hcount : s.accepted < 2 ^ 32) {x y : Session} (hx : st.heap p = some x)
    (hy : s.heap p = some y) (hne : y.userName ≠ x.userName) :
    ∃ k frame c j, a = .ws k frame ∧ st.conn? k = some c ∧ c.fnData = .session p ∧
      delivered st a = some (k, j) ∧ j.IsLocalIdEvent (st.idOf p) y.userName ∧
      ∀ r, r ≠ p → s.name? r = st.name? r := by
  obtain ⟨hwf, hdetached⟩ := reachable_wf h
  have hnamex : st.name? p = some x.userName := by rw [Server.name?, hx]; rfl
  have hnamey : s.name? p = some y.userName := by rw [Server.name?, hy]; rfl
  have hchanged : s.name? p ≠ st.name? p := by
    rw [hnamex, hnamey]
    exact fun hsame => hne (Option.some.inj hsame)
  rcases delivered_eq_none_or st a with hnone | ⟨k, frame, rfl⟩
  · have heffects := step_effects hwf hdetached (joins_true a) hstep
    rw [hnone] at heffects
    have hold := hwf.wiring.ownerFresh p _ (Server.owner_of_heap hx)
    rcases heffects.name?_of_none hold with hsame | hdead
    · exact absurd hsame hchanged
    · rw [hnamey] at hdead
      cases hdead
  · have hjoins : Joins NoJoin st (.ws k frame) := trivial
    have htook := step_took hwf hdetached hjoins hstep
    cases htook with
    | inners hinners =>
        have hcount' : st.accepted < 2 ^ 32 := by
          have hnextid : s.nextid = st.nextid := congrArg Wiring.nextid hinners.wiring_eq
          rwa [Server.accepted, ← hnextid]
        rcases hinners.renamed hwf hcount' with
          hsame | ⟨k', j, c, p', name, hm, hc, hck, hctx, hevent, hnames⟩
        · exact absurd (congrFun hsame p) hchanged
        · obtain rfl : p = p' := by
            by_contra hp
            exact hchanged (by rw [hnames p, if_neg hp])
          have hname : y.userName = name := by
            rw [hnames p, if_pos rfl] at hnamey
            exact (Option.some.inj hnamey).symm
          obtain rfl := eq_of_delivered hm
          refine ⟨k', frame, c, j, rfl, hck ▸ hwf.conn?_of_mem hc, hctx, hm, hname ▸ hevent,
            fun r hr => ?_⟩
          rw [hnames r, if_neg hr]

end

theorem name_changed_joined :
    letI := parserOf renameText renameMsg
    ∃ st s c j, Transition.run step initial (joining 2) = .ok st ∧
      step st (.ws 2 (textFrame renameText)) = .ok s ∧ s.name? 0 = some "ann" ∧
      st.conn? 2 = some c ∧ c.fnData = .session 0 ∧
      delivered st (.ws 2 (textFrame renameText)) = some (2, j) ∧
      j.IsLocalIdEvent (st.idOf 0) "ann" := by
  let _ := parserOf renameText renameMsg
  have hrun : ∃ st s x y, Transition.run step initial (joining 2) = .ok st ∧
      step st (.ws 2 (textFrame renameText)) = .ok s ∧ s.nextid = 2 ∧ st.heap 0 = some x ∧
      s.heap 0 = some y ∧ y.userName = "ann" ∧ x.userName = "" :=
    ⟨_, _, _, _, rfl, rfl, rfl, rfl, rfl, rfl, rfl⟩
  obtain ⟨st, s, x, y, hst, hstep, hnextid, hx, hy, hann, hempty⟩ := hrun
  have hcount : s.accepted < 2 ^ 32 := by
    rw [Server.accepted, hnextid]
    omega
  have hne : y.userName ≠ x.userName := by
    rw [hann, hempty]
    decide
  obtain ⟨k, frame, c, j, ha, hc, hctx, hdelivered, hevent, -⟩ :=
    name_changed_by_owner (Transition.reachable_of_run _ hst) hstep hcount hx hy hne
  cases ha
  refine ⟨st, s, c, j, hst, hstep, ?_, hc, hctx, hdelivered, hann ▸ hevent⟩
  rw [Server.name?, hy, ← hann]
  rfl

end Mgws
