import Mgws.Proofs.Dispatch
/-!
# Effects and the wiring

Each effect either keeps the wiring or changes it in one of its five ways, so
what the changes of the wiring preserve holds of every server.
-/

namespace Mgws

open Lib Program

namespace Server

variable {st : Server} {k : ConnPtr} {p : SessionPtr}

/-! ## The effects that change the wiring -/

theorem wiring_updateWire {f : Connection → Connection} {g : Wire → Wire}
    (hf : ∀ c, (f c).wire = g c.wire) :
    (st.updateConn k f).wiring = st.wiring.updateWire k g := by
  have hwire : ∀ c : Connection, (if c.ptr = k then f c else c).wire =
      if c.wire.ptr = k then g c.wire else c.wire := by
    intro c
    by_cases hk : c.ptr = k
    · rw [if_pos hk, if_pos (by exact hk), hf]
    · rw [if_neg hk, if_neg (by exact hk)]
  simp only [wiring, updateConn, Wiring.updateWire, List.map_map, Option.map_map,
    Function.comp_def, hwire]

theorem wiring_upgrade (hasKey : Bool) :
    (st.upgrade k hasKey).wiring = st.wiring.upgrade k hasKey := by
  have hframe : ∀ frame, ((st.updateConn k fun c =>
      { c with pfn := .wsCb, frag := [] }).queue k frame).wiring = st.wiring := by
    intro frame
    rw [wiring_queue, wiring_updateConn]
    exact fun _ => rfl
  cases hasKey with
  | true =>
      simp only [upgrade, if_true, Wiring.upgrade, Bool.or_true]
      rw [wiring_updateWire (g := fun c => { c with isWebsocket := true }) fun _ => rfl, hframe]
  | false =>
      have hsame : st.wiring.upgrade k false = st.wiring := by
        refine Wiring.ext ?_ ?_ rfl rfl rfl <;> simp [Wiring.upgrade, Wiring.updateWire]
      rw [hsame]
      simp only [upgrade, Bool.false_eq_true, if_false]
      rw [wiring_updateConn, wiring_updateConn, hframe] <;> exact fun _ => rfl

variable (st k) in
theorem wiring_fnData (ctx : Context) :
    (st.updateConn k fun c => { c with fnData := ctx }).wiring =
      st.wiring.updateWire k fun c => { c with fnData := ctx } :=
  wiring_updateWire fun _ => rfl

theorem wiring_create : (st.create k).wiring = st.wiring.attach k true := by
  have hconn := wiring_fnData st k (.session st.nextSession)
  have hconns := congrArg Wiring.conns hconn
  have hdetached := congrArg Wiring.detached hconn
  refine Wiring.ext hconns hdetached rfl rfl ?_
  funext q
  simp only [wiring, create, Wiring.attach, true_and]
  split <;> rfl

theorem wiring_abandon : (st.abandon k).wiring = st.wiring.attach k false := by
  have hconn := wiring_fnData st k (.session st.nextSession)
  have hconns := congrArg Wiring.conns hconn
  have hdetached := congrArg Wiring.detached hconn
  refine Wiring.ext hconns hdetached rfl rfl ?_
  funext q
  simp [wiring, abandon, Wiring.attach, updateConn]

theorem wiring_websock (hasKey : Bool) (run : FactoryRun) :
    (st.websock k hasKey run).wiring = st.wiring.join k hasKey run := by
  cases run with
  | returns => rw [websock, wiring_tell, wiring_create, wiring_upgrade, Wiring.join]
  | throwsEarly => exact wiring_upgrade hasKey
  | throwsLate => rw [websock, wiring_abandon, wiring_upgrade, Wiring.join]
  | throwsAfter => rw [websock, wiring_create, wiring_upgrade, Wiring.join]

theorem wiring_unlink : (st.unlink k).wiring = st.wiring.unlink k := by
  refine Wiring.ext ?_ ?_ rfl rfl rfl
  · simp only [wiring, unlink, Wiring.unlink, List.filter_map]
    rfl
  · simp only [Wiring.unlink, allocated_wiring, List.find?_map]
    rfl

theorem wiring_delete : (st.delete p).wiring = st.wiring.delete p := by
  refine Wiring.ext rfl rfl rfl rfl ?_
  funext q
  simp only [wiring, delete, Wiring.delete]
  split <;> rfl

theorem wiring_accept : st.accept.wiring = st.wiring.accept := rfl

end Server

theorem Inner.wiring {m : Option (ConnPtr × Json)}
    {R : Server → ConnPtr → Bool → FactoryRun → Prop} {st st' : Server}
    (h : Inner m R st st') :
    st'.wiring = st.wiring ∨
      ∃ k hasKey run, (st.conn? k).isSome ∧ R st k hasKey run ∧
        st'.wiring = st.wiring.join k hasKey run := by
  cases h with
  | queue hframe => exact .inl (Server.wiring_queue _)
  | conn hf => exact .inl (Server.wiring_updateConn fun c => (hf c).wire)
  | session hf => exact .inl (Server.wiring_updateSession fun s => (hf s).connection)
  | pong => exact .inl (Server.wiring_updateSession fun _ => rfl)
  | rename =>
      exact .inl (wiring_broadcast.trans ((wiring_tell _).trans (wiring_rename _)))
  | websock hk hR => exact .inr ⟨_, _, _, hk, hR, Server.wiring_websock _ _⟩

/-! ## Well-formed servers -/

def Server.Tables (st : Server) : Prop :=
  ∀ p s, st.heap p = some s → ∀ key,
    (s.pmd.lookup key).join = (Peer.dispatch.lookup key).join

structure Server.Wf (st : Server) : Prop where
  wiring : st.wiring.Wf
  tables : st.Tables

/-- The session that a connection's context names was made for it. -/
theorem Server.Wf.connection_eq {st : Server} (h : st.Wf) {c : Connection} {p : SessionPtr}
    {s : Session} (hc : c ∈ st.conns) (hctx : c.fnData = .session p)
    (hs : st.heap p = some s) : s.connection = c.ptr := by
  have hmem : c.wire ∈ st.wiring.allocated :=
    Wiring.mem_allocated_of_mem_conns (List.mem_map_of_mem hc)
  exact h.wiring.owner _ hmem p _ hctx (Server.owner_of_heap hs)

theorem Server.Wf.nodup_conns {st : Server} (h : st.Wf) : (st.conns.map (·.ptr)).Nodup := by
  have hnodup := h.wiring.nodup
  rw [Wiring.allocated, List.map_append] at hnodup
  simpa [Server.wiring, List.map_map, Function.comp_def, Connection.wire] using
    hnodup.of_append_left

theorem Server.Wf.eq_of_ptr {st : Server} (h : st.Wf) {c d : Connection} (hc : c ∈ st.conns)
    (hd : d ∈ st.conns) (hptr : c.ptr = d.ptr) : c = d :=
  List.inj_on_of_nodup_map h.nodup_conns hc hd hptr

theorem Server.Wf.eq_of_fnData {st : Server} (h : st.Wf) {c d : Connection} {p : SessionPtr}
    (hc : c ∈ st.conns) (hd : d ∈ st.conns) (hcp : c.fnData = .session p)
    (hdp : d.fnData = .session p) : c = d := by
  have hwire : ∀ x ∈ st.conns, x.wire ∈ st.wiring.allocated := fun x hx =>
    Wiring.mem_allocated_of_mem_conns (List.mem_map_of_mem hx)
  exact h.eq_of_ptr hc hd
    (h.wiring.inj c.wire (hwire c hc) d.wire (hwire d hd) p hcp hdp)

theorem Server.Wf.conn?_of_mem {st : Server} (h : st.Wf) {c : Connection} (hc : c ∈ st.conns) :
    st.conn? c.ptr = some c := by
  obtain ⟨d, hd⟩ := Option.isSome_iff_exists.mp
    (Server.conn?_isSome_iff.mpr ⟨c, List.mem_append_left _ hc, rfl⟩)
  have hnodup : (st.allocated.map (·.ptr)).Nodup := by
    have := h.wiring.nodup
    rwa [Server.allocated_wiring, List.map_map] at this
  have hsame : d = c := List.inj_on_of_nodup_map hnodup (Server.mem_allocated_of_conn? hd)
    (List.mem_append_left _ hc) (Server.ptr_of_conn? hd)
  rw [hd, hsame]

theorem Server.Tables.updateSession {st : Server} (h : st.Tables) {p : SessionPtr}
    {f : Session → Session}
    (hf : ∀ s key, ((f s).pmd.lookup key).join = (s.pmd.lookup key).join) :
    (st.updateSession p f).Tables := by
  intro q s hs key
  by_cases hq : q = p
  · subst hq
    rw [heap_updateSession_self] at hs
    obtain ⟨s', hs', rfl⟩ := Option.map_eq_some_iff.mp hs
    rw [hf, h q s' hs' key]
  · rw [heap_updateSession_ne hq] at hs
    exact h q s hs key

theorem Server.Tables.congr {st st' : Server} (h : st.Tables) (hheap : st'.heap = st.heap) :
    st'.Tables := by
  intro p s hs
  exact h p s (hheap ▸ hs)

theorem Server.Tables.websock {st : Server} (h : st.Tables) (k : ConnPtr) (hasKey : Bool)
    (run : FactoryRun) : (st.websock k hasKey run).Tables := by
  intro p s hs key
  rw [Server.heap_websock] at hs
  split at hs
  · cases hs
    rfl
  · exact h p s hs key

theorem Server.Tables.probe {st : Server} (h : st.Tables) (p : SessionPtr) (ms : Int) :
    (st.probe p ms).Tables := by
  rw [Server.probe]
  cases st.heap p with
  | none => exact h
  | some s =>
      simp only [Option.elim]
      split
      · have hmark : (st.updateConn s.connection fun c => { c with isClosing := true }).Tables := h
        exact hmark.updateSession fun _ _ => rfl
      · have hping : (st.queue s.connection (.ping Session.heartbeatPayload)).Tables := h
        exact hping.updateSession fun _ _ => rfl

section

variable {m : Option (ConnPtr × Json)} {R : Server → ConnPtr → Bool → FactoryRun → Prop}
  {st st' : Server}

theorem Server.Tables.inner (h : st.Tables) (hinner : Inner m R st st') : st'.Tables := by
  cases hinner with
  | queue | conn => exact h.congr rfl
  | session hf => exact h.updateSession fun s => (hf s).pmd
  | pong => exact h.updateSession fun _ _ => rfl
  | rename =>
      refine Server.Tables.congr ?_ heap_broadcast
      refine Server.Tables.congr ?_ (heap_tell _)
      exact Server.Tables.updateSession h fun _ _ => rfl
  | websock => exact h.websock _ _ _

theorem Server.Wf.inner (h : st.Wf) (hinner : Inner m R st st') : st'.Wf := by
  refine ⟨?_, h.tables.inner hinner⟩
  rcases hinner.wiring with hw | ⟨k, hasKey, run, -, -, hw⟩
  · rw [hw]
    exact h.wiring
  · rw [hw]
    exact h.wiring.join k hasKey run

theorem Server.Tables.delete (h : st.Tables) (p : SessionPtr) : (st.delete p).Tables := by
  intro q s hs
  simp only [Server.delete] at hs
  split at hs
  · cases hs
  · exact h q s hs

/-- Every effect keeps a server well formed. -/
theorem Server.Wf.effect (h : st.Wf) (heffect : Effect m R st st') : st'.Wf := by
  cases heffect with
  | inner hinner => exact h.inner hinner
  | close hc hdetached hcloses =>
      cases hcloses with
      | plain => exact ⟨Server.wiring_unlink ▸ h.wiring.unlink _, h.tables⟩
      | session =>
          refine ⟨?_, (Server.Tables.delete h.tables _).congr heap_broadcast⟩
          rw [wiring_broadcast, Server.wiring_delete, Server.wiring_unlink]
          exact (h.wiring.unlink _).delete _
  | free => exact ⟨h.wiring.free, h.tables⟩
  | accept => exact ⟨h.wiring.accept, h.tables⟩
  | clock => exact ⟨h.wiring, h.tables⟩
  | probe =>
      refine ⟨?_, h.tables.probe _ _⟩
      rw [wiring_probe]
      exact h.wiring

theorem Server.Wf.effects (h : st.Wf) (heffects : Effects m R st st') : st'.Wf :=
  heffects.invariant h fun _ _ heffect hs => hs.effect heffect

theorem Inner.conn?_isSome (h : Inner m R st st') (k : ConnPtr) :
    (st'.conn? k).isSome ↔ (st.conn? k).isSome := by
  rw [Server.conn?_isSome_wiring, Server.conn?_isSome_wiring]
  rcases h.wiring with hw | ⟨k, hasKey, run, -, -, hw⟩
  · rw [hw]
  · rw [hw, Wiring.ptrs_join]

theorem Inners.conn?_isSome (h : Inners m R st st') (k : ConnPtr) :
    (st'.conn? k).isSome ↔ (st.conn? k).isSome :=
  h.invariant (I := fun t => (t.conn? k).isSome ↔ (st.conn? k).isSome) Iff.rfl
    fun _ _ hinner ht => (hinner.conn?_isSome k).trans ht

end

end Mgws
