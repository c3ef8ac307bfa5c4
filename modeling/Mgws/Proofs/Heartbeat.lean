import Mgws.Proofs.Enumeration
import Mgws.Proofs.Lookup
/-!
# When the timer gives up on a session

The timer compares the time with the last PONG, but only sends a PING to a
session that the enumeration reaches.  No session is marked unprobed exactly when
each is reached in time after its last PONG.
-/

namespace Mgws

open Lib Program

/-- No session was marked by the timer without a PING since its last PONG. -/
def Probed (st : Server) : Prop := ∀ x ∈ st.vanished, 1 ≤ x.2

/-- A session that the timer reaches for the first time since its last PONG, or
since its creation, had that at most five seconds ago. -/
def ReachedInTime (st : Server) : Action → Prop
  | .tick => ∀ p ∈ st.reached, ∀ x, st.heap p = some x → x.ticks = 0 →
      st.now - x.lastPongTime ≤ Session.maxHeartbeatSkips
  | _ => True

/-! ## One timer event -/

def Session.probed (x : Session) (ms : Int) : Session :=
  if maxHeartbeatSkips < ms - x.lastPongTime then { x with ticks := x.ticks + 1 }
  else { x with pings := x.pings + 1, ticks := x.ticks + 1 }

def Server.marked (st : Server) (ms : Int) (p : SessionPtr) : Option (SessionPtr × Nat) :=
  (st.heap p).bind fun x =>
    if Session.maxHeartbeatSkips < ms - x.lastPongTime then some (p, x.pings) else none

section

variable {st s : Server} {p q r : SessionPtr} {m : Option (ConnPtr × Json)}
  {R : Server → ConnPtr → Bool → FactoryRun → Prop}

theorem heap_probe (ms : Int) :
    (st.probe p ms).heap r = if r = p then (st.heap r).map (·.probed ms) else st.heap r := by
  rw [Server.probe]
  cases hx : st.heap p with
  | none =>
      split
      · next hr => rw [hr, Option.elim, hx, Option.map_none]
      · rfl
  | some x =>
      simp only [Option.elim]
      by_cases hr : r = p
      · subst hr
        rw [if_pos rfl, hx, Option.map_some, Session.probed]
        split
        · show ((st.updateConn x.connection _).updateSession r _).heap r = _
          rw [Server.heap_updateSession_self]
          exact congrArg _ hx
        · rw [Server.heap_updateSession_self]
          exact congrArg _ hx
      · rw [if_neg hr]
        split
        · exact Server.heap_updateSession_ne hr
        · exact Server.heap_updateSession_ne hr

theorem vanished_probe (ms : Int) :
    (st.probe p ms).vanished = st.vanished ++ (st.marked ms p).toList := by
  rw [Server.probe, Server.marked]
  cases st.heap p with
  | none => exact (List.append_nil _).symm
  | some x =>
      simp only [Option.elim, Option.bind_some]
      split
      · rfl
      · exact (List.append_nil _).symm

/-- A timer event counts once on each session that it reaches. -/
theorem heap_probes (ps : List SessionPtr) (hps : ps.Nodup) (ms : Int) :
    (st.probes ps ms).heap r =
      if r ∈ ps then (st.heap r).map (·.probed ms) else st.heap r := by
  induction ps generalizing st with
  | nil => rfl
  | cons p ps ih =>
      rw [List.nodup_cons] at hps
      show ((st.probe p ms).probes ps ms).heap r = _
      rw [ih hps.2, heap_probe]
      by_cases hr : r = p
      · subst hr
        simp [hps.1]
      · simp [hr]

theorem vanished_probes (ps : List SessionPtr) (hps : ps.Nodup) (ms : Int) :
    (st.probes ps ms).vanished = st.vanished ++ ps.filterMap (st.marked ms) := by
  induction ps generalizing st with
  | nil => exact (List.append_nil _).symm
  | cons p ps ih =>
      rw [List.nodup_cons] at hps
      have hrest : ps.filterMap ((st.probe p ms).marked ms) = ps.filterMap (st.marked ms) := by
        apply List.filterMap_congr
        intro q hq
        have hne : q ≠ p := fun hqp => hps.1 (hqp ▸ hq)
        rw [Server.marked, heap_probe, if_neg hne, Server.marked]
      show ((st.probe p ms).probes ps ms).vanished = _
      rw [ih hps.2, vanished_probe, hrest, List.append_assoc, List.filterMap_cons]
      cases st.marked ms p <;> rfl

/-! ## What is counted -/

/-- A session that the timer has reached since its last PONG was sent a PING since
then, and the other way round. -/
def Counted (st : Server) : Prop :=
  ∀ p x, st.heap p = some x → (x.ticks = 0 ↔ x.pings = 0)

theorem Counted.congr (h : Counted st) (hheap : s.heap = st.heap) : Counted s := by
  unfold Counted
  rw [hheap]
  exact h

theorem Counted.updateSession (h : Counted st) {f : Session → Session}
    (hf : ∀ x, (x.ticks = 0 ↔ x.pings = 0) → ((f x).ticks = 0 ↔ (f x).pings = 0)) :
    Counted (st.updateSession q f) := by
  intro r x hx
  by_cases hr : r = q
  · subst hr
    rw [Server.heap_updateSession_self] at hx
    obtain ⟨y, hy, rfl⟩ := Option.map_eq_some_iff.mp hx
    exact hf y (h r y hy)
  · rw [Server.heap_updateSession_ne hr] at hx
    exact h r x hx

theorem vanished_tell (msg : Json) : (st.tell p msg).vanished = st.vanished := by
  rw [Server.tell]
  cases st.heap p <;> rfl

theorem vanished_tells (ps : List SessionPtr) (msg : Json) :
    (st.tells ps msg).vanished = st.vanished := by
  induction ps generalizing st with
  | nil => rfl
  | cons p ps ih => exact ih.trans (vanished_tell msg)

theorem Counted.websock (h : Counted st) (k : ConnPtr) (hasKey : Bool) (run : FactoryRun) :
    Counted (st.websock k hasKey run) := by
  intro r x hx
  rw [Server.heap_websock] at hx
  split at hx
  · cases hx
    exact Iff.rfl
  · exact h r x hx

theorem vanished_websock (k : ConnPtr) (hasKey : Bool) (run : FactoryRun) :
    (st.websock k hasKey run).vanished = st.vanished := by
  cases run with
  | returns => exact (vanished_tell _).trans (Server.vanished_upgrade hasKey)
  | throwsEarly | throwsLate | throwsAfter => exact Server.vanished_upgrade hasKey

theorem Inner.counted (h : Inner m R st s) (hst : Counted st) : Counted s := by
  cases h with
  | queue | conn => exact hst.congr rfl
  | session hf =>
      refine hst.updateSession fun x hx => ?_
      rw [(hf x).ticks, (hf x).pings]
      exact hx
  | pong => exact hst.updateSession fun _ _ => Iff.rfl
  | @rename k j c p q name =>
      have hrename : Counted (st.rename q name) := hst.updateSession fun _ hx => hx
      exact hrename.congr (heap_broadcast.trans (heap_tell _))
  | websock => exact hst.websock _ _ _

theorem Closes.counted {c : Connection} (h : Closes st c s) (hst : Counted st) :
    Counted s := by
  cases h with
  | plain => exact hst.congr rfl
  | @session p =>
      have hdelete : Counted ((st.unlink c.ptr).delete p) := by
        intro r x hx
        simp only [Server.delete] at hx
        split at hx
        · cases hx
        · exact hst r x hx
      exact hdelete.congr heap_broadcast

theorem Inners.counted (h : Inners m R st s) (hst : Counted st) : Counted s :=
  h.invariant hst fun _ _ hinner ht => hinner.counted ht

/-! ## What is marked -/

theorem Inner.vanished_eq (h : Inner m R st s) : s.vanished = st.vanished := by
  cases h with
  | queue | conn | session | pong => rfl
  | rename => exact (vanished_tells _ _).trans (vanished_tell _)
  | websock => exact vanished_websock _ _ _

theorem Inners.vanished_eq (h : Inners m R st s) : s.vanished = st.vanished :=
  h.invariant (I := fun t => t.vanished = st.vanished) rfl
    fun _ _ hinner ht => hinner.vanished_eq.trans ht

theorem Closes.vanished_eq {c : Connection} (h : Closes st c s) :
    s.vanished = st.vanished := by
  cases h with
  | plain => rfl
  | session => exact vanished_tells _ _

/-! ## A tick -/

theorem Server.Wf.nodup_reached (hwf : st.Wf) : st.reached.Nodup := by
  rw [reached_eq_front]
  exact hwf.attached_nodup.sublist ((List.takeWhile_sublist _).filterMap _)

/-- A tick keeps the sessions probed exactly when it reaches them in time. -/
theorem tick_probed [Nlohmann] (hwf : st.Wf) (hst : Counted st) (hprobed : Probed st) :
    Probed (st.probes st.reached st.now) ↔ ReachedInTime st .tick := by
  have hmarked : Probed (st.probes st.reached st.now) ↔
      ∀ p ∈ st.reached, ∀ x, st.heap p = some x →
        Session.maxHeartbeatSkips < st.now - x.lastPongTime → 1 ≤ x.pings := by
    unfold Probed
    rw [vanished_probes _ hwf.nodup_reached]
    constructor
    · intro h p hp x hx hlate
      have hmem : (p, x.pings) ∈ st.reached.filterMap (st.marked st.now) :=
        List.mem_filterMap.mpr ⟨p, hp, by simp [Server.marked, hx, hlate]⟩
      exact h _ (List.mem_append_right _ hmem)
    · intro h y hy
      rcases List.mem_append.mp hy with hy | hy
      · exact hprobed y hy
      · obtain ⟨p, hp, hmark⟩ := List.mem_filterMap.mp hy
        obtain ⟨x, hx, hmark⟩ := Option.bind_eq_some_iff.mp hmark
        split at hmark
        · next hlate =>
            cases hmark
            exact h p hp x hx hlate
        · cases hmark
  rw [hmarked]
  constructor
  · intro h p hp x hx hticks
    by_contra hlate
    have hpings := h p hp x hx (by omega)
    have hnone := (hst p x hx).mp hticks
    omega
  · intro h p hp x hx hlate
    by_contra hpings
    have hticks : x.ticks = 0 := (hst p x hx).mpr (by omega)
    have htime := h p hp x hx hticks
    omega

theorem tick_counted (hwf : st.Wf) (hst : Counted st)
    (hprobed : Probed (st.probes st.reached st.now)) :
    Counted (st.probes st.reached st.now) := by
  intro r x hx
  rw [heap_probes _ hwf.nodup_reached] at hx
  split at hx
  · next hr =>
      obtain ⟨y, hy, rfl⟩ := Option.map_eq_some_iff.mp hx
      unfold Session.probed
      split
      · next hlate =>
          have hmem : (r, y.pings) ∈ (st.probes st.reached st.now).vanished := by
            rw [vanished_probes _ hwf.nodup_reached]
            apply List.mem_append_right
            exact List.mem_filterMap.mpr ⟨r, hr, by simp [Server.marked, hy, hlate]⟩
          have hpings : 1 ≤ y.pings := hprobed _ hmem
          constructor
          · intro hticks
            exact absurd hticks (Nat.succ_ne_zero _)
          · intro hnone
            simp only at hnone
            omega
      · constructor
        · intro hticks
          exact absurd hticks (Nat.succ_ne_zero _)
        · intro hnone
          exact absurd hnone (Nat.succ_ne_zero _)
  · exact hst r x hx

/-! ## Steps and runs -/

variable [Nlohmann] {a : Action}

theorem step_tick (h : step st .tick = .ok s) : s = st.probes st.reached st.now := by
  have hrun : (perform .tick).run st = (SessionManager.timerEvent st.now).run st :=
    bind_of_ret (run_get st)
  rw [step, hrun] at h
  rcases st.reached_valid_or with hall | ⟨p, hp, hinvalid⟩
  · rw [timerEvent_run hall] at h
    cases h
    rfl
  · obtain ⟨f, hf⟩ := timerEvent_fault hp hinvalid st.now
    rw [hf] at h
    cases h

theorem step_vanished (h : Reachable st) (ha : a ≠ .tick) (hstep : step st a = .ok s) :
    s.vanished = st.vanished := by
  obtain ⟨hwf, hdetached⟩ := reachable_wf h
  cases step_took hwf hdetached (joins_true a) hstep with
  | inners hinners => exact hinners.vanished_eq
  | accept hinner => exact hinner.vanished_eq
  | clock => rfl
  | tick => exact absurd rfl ha
  | close hc hclosing hcloses hinners => exact hinners.vanished_eq.trans hcloses.vanished_eq

theorem step_counted (h : Reachable st) (ha : a ≠ .tick) (hstep : step st a = .ok s)
    (hst : Counted st) : Counted s := by
  obtain ⟨hwf, hdetached⟩ := reachable_wf h
  cases step_took hwf hdetached (joins_true a) hstep with
  | inners hinners => exact hinners.counted hst
  | accept hinner => exact hinner.counted (hst.congr rfl : Counted st.accept)
  | clock => exact hst.congr rfl
  | tick => exact absurd rfl ha
  | close hc hclosing hcloses hinners => exact (hinners.counted (hcloses.counted hst)).congr rfl

/-- A mark is never taken back. -/
theorem probed_of_step (h : Reachable st) (hstep : step st a = .ok s) (hs : Probed s) :
    Probed st := by
  intro x hx
  apply hs
  by_cases ha : a = .tick
  · subst ha
    rw [step_tick hstep, vanished_probes _ (reachable_wf h).1.nodup_reached]
    exact List.mem_append_left _ hx
  · rwa [step_vanished h ha hstep]

theorem reachable_counted (h : Reachable st) : Probed st → Counted st := by
  refine h.invariant (I := fun t => Probed t → Counted t) (fun _ => nofun) ?_
  intro t u a ht ih _ hstep hu
  have hcounted := ih (probed_of_step ht hstep hu)
  by_cases ha : a = .tick
  · subst ha
    rw [step_tick hstep] at hu ⊢
    exact tick_counted (reachable_wf ht).1 hcounted hu
  · exact step_counted ht ha hstep hcounted

theorem step_probed (h : Reachable st) (hprobed : Probed st) (hstep : step st a = .ok s) :
    Probed s ↔ ReachedInTime st a := by
  by_cases ha : a = .tick
  · subst ha
    rw [step_tick hstep]
    exact tick_probed (reachable_wf h).1 (reachable_counted h hprobed) hprobed
  · have hkept : Probed s := by
      rwa [Probed, step_vanished h ha hstep]
    apply iff_of_true hkept
    cases a with
    | tick => exact absurd rfl ha
    | _ => trivial

/-- A run drops no session unprobed exactly when the timer reaches every session
in time. -/
theorem always_probed_iff (es : List Action) :
    Transition.Always step Probed initial es ↔
      Transition.Meets step ReachedInTime initial es := by
  have htrue : ∀ a ∈ es, True := fun _ _ => trivial
  constructor
  · intro h
    refine Transition.Meets.of_always .init htrue ?_ h
    exact fun t u a ht hprobed _ hstep hu => (step_probed ht hprobed hstep).mp hu
  · intro h
    refine Transition.Always.of_meets .init htrue (by simp [Probed, initial]) ?_ h
    exact fun t u a ht hprobed _ htime hstep => (step_probed ht hprobed hstep).mpr htime

end

def sixSeconds : List Action :=
  (List.range 12).flatMap fun i => [.clock (500 * (i + 1)), .tick]

theorem always_probed_dropped :
    letI := parserOf "" .null
    Transition.Meets step ReachedInTime initial (joining 2 ++ sixSeconds) ∧
      ∃ st, Transition.run step initial (joining 2 ++ sixSeconds) = .ok st ∧
        st.vanished = [(0, 10), (0, 10)] := by
  let _ := parserOf "" .null
  have hdropped : ∃ st, Transition.run step initial (joining 2 ++ sixSeconds) = .ok st ∧
      st.vanished = [(0, 10), (0, 10)] :=
    ⟨_, rfl, rfl⟩
  obtain ⟨st, hrun, hvanished⟩ := hdropped
  have hprobed : Probed st := by
    rw [Probed, hvanished]
    decide
  have halways := Transition.Always.of_last .init (fun _ _ => trivial)
    (fun _ _ _ hreach _ hstep => probed_of_step hreach hstep) hrun hprobed
  exact ⟨(always_probed_iff _).mp halways, st, hrun, hvanished⟩

/-- A connection that is accepted after the upgrade of another and stays for six
seconds keeps the session from being probed. -/
theorem not_probed_of_accept :
    ¬∀ [Nlohmann] (es : List Action), Transition.Always step Probed initial es := by
  intro hall
  let _ := parserOf "" .null
  have hdropped : ∃ st, Transition.run step initial
      (joining 2 ++ [.accept true] ++ sixSeconds ++ [.error 3, .close 3 [], .tick]) = .ok st ∧
      st.vanished = [(0, 0)] :=
    ⟨_, rfl, rfl⟩
  obtain ⟨st, hrun, hvanished⟩ := hdropped
  have hprobed := (hall _).last hrun
  rw [Probed, hvanished] at hprobed
  exact absurd (hprobed (0, 0) (by simp)) (by decide)

end Mgws
