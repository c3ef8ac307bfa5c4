import Mgws.Browser.Link
import Mgws.Lib.Watchdog
import Mgws.Proofs.Sent
/-!
# The heartbeat of a page

The heartbeat of a page is a watchdog on its server.  It gives the server up when four
Heartbeats in a row are without an echo, and stops with that.
-/

namespace Mgws.Browser

open Lib Program

/-! ## The heartbeat and an event -/

inductive Pulses (c : Client) : Event → Client → Prop where
  | quiet {e c'} (hlink : c.socketClosed = false → ∀ msg, e = .message msg → msg.isLink = false)
      (hbeats : c'.beats = c.beats) (hmissed : c'.heartbeatsMissed = c.heartbeatsMissed)
      (htimers : c'.timers.Sublist c.timers) (htimer : c'.heartbeatTimer = c.heartbeatTimer) :
      Pulses c e c'
  | beats {i c'} (hi : i < c.timers.length) (hopen : c.socketClosed = false)
      (hbeats : c'.beats = c.beats ++ [c.sent.length])
      (hmissed : c'.heartbeatsMissed = c.heartbeatsMissed + 1)
      (htimers : c'.timers = if Client.heartbeatMaxMissing ≤ c.heartbeatsMissed + 1 then
        c.timers.filter fun timer => c.heartbeatTimer ≠ some timer else c.timers)
      (htimer : c'.heartbeatTimer = c.heartbeatTimer) : Pulses c (.timer i) c'
  | begins {id c'} (hbeats : c'.beats = c.beats) (hmissed : c'.heartbeatsMissed = 0)
      (htimers : c'.timers = c.timers ++ [c.nextTimer])
      (htimer : c'.heartbeatTimer = some c.nextTimer) : Pulses c (.message (.sessionID id)) c'
  | hears {id c'} (hbeats : c'.beats = c.beats) (hmissed : c'.heartbeatsMissed = 0)
      (htimers : c'.timers = c.timers) (htimer : c'.heartbeatTimer = c.heartbeatTimer) :
      Pulses c (.message (.heartbeat id)) c'

section

variable {c d : Client} {e : Event} {msgs : List Message}

theorem beats_append (h : d.sent = c.sent ++ msgs) : d.beats = c.beats ++
    ((msgs.zipIdx c.sent.length).filter fun sent => sent.1.isHeartbeat).map fun sent =>
      sent.2 := by
  rw [Client.beats, h, List.zipIdx_append, List.filter_append, List.map_append, Nat.zero_add]
  rfl

theorem beats_of_quiet (h : d.sent = c.sent ++ msgs)
    (hquiet : ∀ m ∈ msgs, m.isHeartbeat = false) : d.beats = c.beats := by
  have hnone : ((msgs.zipIdx c.sent.length).filter fun sent => sent.1.isHeartbeat) = [] := by
    rw [List.filter_eq_nil_iff]
    intro sent hsent
    rw [hquiet sent.1 (List.fst_mem_of_mem_zipIdx hsent)]
    exact Bool.false_ne_true
  rw [beats_append h, hnone, List.map_nil, List.append_nil]

theorem beats_of_sent (h : d.sent = c.sent) : d.beats = c.beats := by
  rw [Client.beats, Client.beats, h]

theorem beats_after (he : ∀ i, e ≠ .timer i) : (c.after e).beats = c.beats := by
  obtain ⟨msgs, hsent, hsaid⟩ := after_says c e
  refine beats_of_quiet hsent fun m hm => ?_
  cases hsaid m hm with
  | beats => exact absurd rfl (he _)
  | @signals _ _ inv => cases inv.fn <;> rfl
  | _ => rfl

theorem pulses_of_frame (hlink : e.isLink = false) : Pulses c e (c.after e) := by
  have hframe := frame_after (c := c) hlink
  refine .quiet ?_ (beats_after ?_) (congrArg (·.heartbeatsMissed) hframe) ?_
    (congrArg (·.heartbeatTimer) hframe)
  · rintro - msg rfl
    exact hlink
  · rintro i rfl
    cases hlink
  · rw [show (c.after e).timers = c.timers from congrArg (·.timers) hframe]

theorem lost_pulse (msgStr : String) : (c.lost msgStr).sent = c.sent ∧
    (c.lost msgStr).heartbeatsMissed = c.heartbeatsMissed ∧
    (c.lost msgStr).heartbeatTimer = c.heartbeatTimer ∧
    (c.lost msgStr).timers = c.timers.filter fun timer => c.heartbeatTimer ≠ some timer := by
  have hcore : (c.lost msgStr).core = (c.clearHeartbeat.clearRemotesTable).core := by
    rw [Client.lost, Client.core_disableButtons]
    rfl
  exact ⟨congrArg (·.sent) hcore, congrArg (·.heartbeatsMissed) hcore,
    congrArg (·.heartbeatTimer) hcore, congrArg (·.timers) hcore⟩

theorem heartbeat_open (hopen : c.socketClosed = false) :
    c.heartbeat.beats = c.beats ++ [c.sent.length] ∧
    c.heartbeat.heartbeatsMissed = c.heartbeatsMissed + 1 ∧
    c.heartbeat.heartbeatTimer = c.heartbeatTimer ∧
    c.heartbeat.timers = if Client.heartbeatMaxMissing ≤ c.heartbeatsMissed + 1 then
      c.timers.filter fun timer => c.heartbeatTimer ≠ some timer else c.timers := by
  have hsent : c.heartbeat.sent = c.sent ++ [.heartbeat c.sessionID] := by
    have hline := congrArg Line.sent (line_heartbeat (c := c))
    rwa [if_neg (by rw [hopen]; exact Bool.false_ne_true)] at hline
  have hbeats : c.heartbeat.beats = c.beats ++ [c.sent.length] := by
    rw [beats_append hsent]
    rfl
  obtain ⟨-, hmissed, htimer, htimers⟩ := lost_pulse
    (c := { c with heartbeatsMissed := c.heartbeatsMissed + 1 }) "Signaling server vanished!"
  refine ⟨hbeats, ?_⟩
  rw [Client.heartbeat, if_neg (by rw [hopen]; exact Bool.false_ne_true)]
  dsimp only [Client.send]
  split
  · exact ⟨hmissed, htimer, htimers⟩
  · exact ⟨rfl, rfl, rfl⟩

theorem pulses_timer (i : Nat) : Pulses c (.timer i) (c.after (.timer i)) := by
  have hmessage : c.socketClosed = false → ∀ msg, Event.timer i = .message msg →
      msg.isLink = false := by
    intro _ msg heq
    cases heq
  rw [Client.after]
  cases htimer : c.timers[i]? with
  | none => exact .quiet hmessage rfl rfl (List.Sublist.refl _) rfl
  | some timer =>
      have hi : i < c.timers.length := (List.getElem?_eq_some_iff.mp htimer).1
      cases hclosed : c.socketClosed with
      | true =>
          obtain ⟨hsent, hmissed, htimer, htimers⟩ := lost_pulse (c := c)
            ("Signaling server connection lost, ID: " ++ c.sessionID.repr)
          have hlost : c.heartbeat =
              c.lost ("Signaling server connection lost, ID: " ++ c.sessionID.repr) := by
            rw [Client.heartbeat, if_pos hclosed]
            rfl
          simp only [hlost]
          refine .quiet hmessage (beats_of_sent hsent) hmissed ?_ htimer
          rw [htimers]
          exact List.filter_sublist
      | false =>
          obtain ⟨hbeats, hmissed, htimer, htimers⟩ := heartbeat_open hclosed
          exact .beats hi hclosed hbeats hmissed htimers htimer

theorem after_pulses (c : Client) (e : Event) : Pulses c e (c.after e) := by
  cases hlink : e.isLink with
  | false => exact pulses_of_frame hlink
  | true =>
      cases e with
      | timer i => exact pulses_timer i
      | close wasClean =>
          have hmessage : c.socketClosed = false → ∀ msg, Event.close wasClean = .message msg →
              msg.isLink = false := by
            intro _ msg heq
            cases heq
          have hbeats := beats_after (c := c) (e := .close wasClean) (by simp)
          refine .quiet hmessage hbeats ?_ ?_ ?_
          · simp only [Client.after, Client.onClose]
            split <;> rfl
          · simp only [Client.after, Client.onClose]
            split <;> exact List.Sublist.refl _
          · simp only [Client.after, Client.onClose]
            split <;> rfl
      | message msg =>
          have hbeats := beats_after (c := c) (e := .message msg) (by simp)
          cases hclosed : c.socketClosed with
          | true =>
              have hsame : c.after (.message msg) = c := if_pos hclosed
              rw [hsame]
              refine .quiet ?_ rfl rfl (List.Sublist.refl _) rfl
              intro hopen
              rw [hclosed] at hopen
              cases hopen
          | false =>
              have hafter : c.after (.message msg) = finish ((onMessage msg).run c) :=
                if_neg (by rw [hclosed]; exact Bool.false_ne_true)
              rw [hafter] at hbeats ⊢
              cases msg with
              | sessionID id => exact .begins hbeats rfl rfl rfl
              | heartbeat id => exact .hears hbeats rfl rfl rfl
              | _ => cases hlink
      | _ => cases hlink

end

/-! ## The page and its server -/

namespace Link

def pending (s : Link) : Nat := s.toClient.countP fun msg => msg.1.isSessionID

/-- What a page and the messages around it are like in every run.  The heartbeat is begun once. -/
structure Wf (s : Link) : Prop where
  toServer : ∀ msg ∈ s.toServer, msg.2 < s.page.sent.length
  toClient : ∀ msg n, (msg, some n) ∈ s.toClient → msg.isHeartbeat ∧ n < s.page.sent.length
  echoed : ∀ n ∈ s.echoed, n < s.page.sent.length
  once : s.pending + s.page.timers.length ≤ 1
  timer : ∀ timer ∈ s.page.timers, s.page.heartbeatTimer = some timer

def watchdog (s : Link) : Watchdog Nat where
  probes := s.page.beats
  answered := s.echoed
  missed := s.page.heartbeatsMissed

/-- The heartbeat has stopped and does not begin again. -/
def Stopped (s : Link) : Prop := s.pending + s.page.timers.length = 0

section

variable {s : Link} {e : Event} {msg : Message} {echo : Option Nat}
  {rest : List (Message × Option Nat)} {arrived : List Nat}

theorem wf_start (storedName : Name) (host : String) (id : Nat) :
    (start storedName host id).Wf := by
  constructor
  · intro msg hmsg
    cases hmsg
  · intro msg n hmsg
    rcases List.mem_singleton.mp hmsg with heq
    cases heq
  · intro n hn
    cases hn
  · exact Nat.le_refl 1
  · intro timer htimer
    cases htimer

theorem Wf.dispatch (h : s.Wf) (e : Event)
    (honce : s.pending + (s.page.after e).timers.length ≤ 1) : (s.dispatch e).Wf := by
  obtain ⟨msgs, hsent, -⟩ := after_says s.page e
  have hlength : s.page.sent.length ≤ (s.page.after e).sent.length := by
    rw [hsent, List.length_append]
    exact Nat.le_add_right _ _
  constructor
  · intro msg hmsg
    rcases List.mem_append.mp hmsg with hold | hnew
    · exact Nat.lt_of_lt_of_le (h.toServer msg hold) hlength
    · exact List.snd_lt_of_mem_zipIdx (List.mem_of_mem_drop hnew)
  · intro msg n hmsg
    obtain ⟨hheartbeat, hn⟩ := h.toClient msg n hmsg
    exact ⟨hheartbeat, Nat.lt_of_lt_of_le hn hlength⟩
  · exact fun n hn => Nat.lt_of_lt_of_le (h.echoed n hn) hlength
  · exact honce
  · intro timer hmem
    change timer ∈ (s.page.after e).timers at hmem
    show (s.page.after e).heartbeatTimer = some timer
    cases after_pulses s.page e with
    | quiet _ _ _ htimers htimer => exact htimer.trans (h.timer timer (htimers.subset hmem))
    | beats _ _ _ _ htimers htimer =>
        refine htimer.trans (h.timer timer ?_)
        rw [htimers] at hmem
        split at hmem
        · exact (List.mem_filter.mp hmem).1
        · exact hmem
    | begins _ _ htimers htimer =>
        rw [htimers, List.length_append, List.length_singleton] at honce
        have hnone : s.page.timers = [] := List.eq_nil_of_length_eq_zero (by omega)
        rw [htimers, hnone] at hmem
        rw [htimer, List.mem_singleton.mp hmem]
    | hears _ _ htimers htimer =>
        rw [htimers] at hmem
        exact htimer.trans (h.timer timer hmem)

theorem timers_length_le (c : Client) (e : Event) : (c.after e).timers.length ≤ c.timers.length ∨
    ∃ id, e = .message (.sessionID id) ∧ (c.after e).timers.length = c.timers.length + 1 := by
  cases after_pulses c e with
  | quiet _ _ _ htimers _ => exact .inl htimers.length_le
  | beats _ _ _ _ htimers _ =>
      refine .inl ?_
      rw [htimers]
      split
      · exact List.length_filter_le _ _
      · exact Nat.le_refl _
  | begins _ _ htimers _ => exact .inr ⟨_, rfl, by rw [htimers, List.length_append]; rfl⟩
  | hears _ _ htimers _ => exact .inl (Nat.le_of_eq (congrArg List.length htimers))

theorem Wf.arrive (h : s.Wf) (hclient : s.toClient = (msg, echo) :: rest)
    (harrived : ∀ n ∈ arrived, echo = some n) :
    { s with toClient := rest, echoed := s.echoed ++ arrived }.Wf := by
  constructor
  · exact h.toServer
  · exact fun msg n hmem => h.toClient msg n (hclient ▸ List.mem_cons_of_mem _ hmem)
  · intro n hn
    rcases List.mem_append.mp hn with hold | hnew
    · exact h.echoed n hold
    · refine (h.toClient msg n ?_).2
      rw [hclient, harrived n hnew]
      exact List.mem_cons_self
  · have honce := h.once
    rw [pending, hclient, List.countP_cons] at honce
    exact Nat.le_trans (Nat.add_le_add_right (Nat.le_add_right _ _) _) honce
  · exact h.timer

/-- The SessionIDs on their way and the timers do not become more. -/
theorem pending_deliver (hclient : s.toClient = (msg, echo) :: rest) :
    (rest.countP fun msg => msg.1.isSessionID) + (s.page.after (.message msg)).timers.length ≤
      s.pending + s.page.timers.length := by
  rw [pending, hclient, List.countP_cons]
  rcases timers_length_le s.page (.message msg) with hle | ⟨id, hmsg, heq⟩
  · omega
  · cases hmsg
    have hsession : (Message.sessionID id, echo).1.isSessionID = true := rfl
    rw [heq, if_pos hsession]
    omega

/-- The server sends no SessionID but the first. -/
theorem countP_sessionID (queue : List (Message × Option Nat)) (hmsg : msg.isSessionID = false) :
    ((queue ++ [(msg, echo)]).countP fun msg => msg.1.isSessionID) =
      queue.countP fun msg => msg.1.isSessionID := by
  rw [List.countP_append, List.countP_singleton, hmsg]
  rfl

theorem not_isSessionID_of_isHeartbeat (h : msg.isHeartbeat) : msg.isSessionID = false := by
  cases msg with
  | heartbeat => rfl
  | _ => cases h

theorem pending_after (s : Link) (a : Act) :
    (s.after a).pending + (s.after a).page.timers.length ≤ s.pending + s.page.timers.length := by
  cases a with
  | event e =>
      rw [Link.after]
      cases he : e.isMessage with
      | true => exact Nat.le_refl _
      | false =>
          show s.pending + (s.page.after e).timers.length ≤ _
          rcases timers_length_le s.page e with hle | ⟨id, rfl, -⟩
          · exact Nat.add_le_add_left hle _
          · cases he
  | serve =>
      rw [Link.after]
      cases s.toServer with
      | nil => exact Nat.le_refl _
      | cons sent queue =>
          obtain ⟨msg, n⟩ := sent
          refine Nat.add_le_add_right (Nat.le_of_eq ?_) _
          simp only [pending]
          split
          · next hheartbeat => exact countP_sessionID _ (not_isSessionID_of_isHeartbeat hheartbeat)
          · rw [List.append_nil]
  | push msg =>
      rw [Link.after]
      cases hsession : msg.isSessionID with
      | true => exact Nat.le_refl _
      | false => exact Nat.add_le_add_right (Nat.le_of_eq (countP_sessionID _ hsession)) _
  | deliver =>
      rw [Link.after]
      cases hclient : s.toClient with
      | nil => exact Nat.le_refl _
      | cons oldest rest => exact pending_deliver hclient

theorem Wf.after (h : s.Wf) (a : Act) : (s.after a).Wf := by
  have honce := Nat.le_trans (pending_after s a) h.once
  cases a with
  | event e =>
      rw [Link.after] at honce ⊢
      cases he : e.isMessage with
      | true => exact h
      | false =>
          rw [he] at honce
          exact h.dispatch e honce
  | serve =>
      rw [Link.after] at honce ⊢
      cases hserver : s.toServer with
      | nil => exact h
      | cons sent queue =>
          obtain ⟨msg, n⟩ := sent
          simp only [hserver] at honce ⊢
          have hn : n < s.page.sent.length := h.toServer (msg, n) (by simp [hserver])
          refine ⟨fun msg hmsg => h.toServer msg (by simp [hserver, hmsg]), ?_, h.echoed, honce,
            h.timer⟩
          intro msg' n' hmem
          rcases List.mem_append.mp hmem with hold | hnew
          · exact h.toClient msg' n' hold
          · split at hnew
            · next hheartbeat =>
                cases List.mem_singleton.mp hnew
                exact ⟨hheartbeat, hn⟩
            · cases hnew
  | push msg =>
      rw [Link.after] at honce ⊢
      cases hsession : msg.isSessionID with
      | true => exact h
      | false =>
          rw [hsession] at honce
          refine ⟨h.toServer, ?_, h.echoed, honce, h.timer⟩
          intro msg' n hmem
          rcases List.mem_append.mp hmem with hold | hnew
          · exact h.toClient msg' n hold
          · cases List.mem_singleton.mp hnew
  | deliver =>
      rw [Link.after] at honce ⊢
      cases hclient : s.toClient with
      | nil => exact h
      | cons oldest rest =>
          obtain ⟨msg, echo⟩ := oldest
          simp only [hclient] at honce ⊢
          refine (h.arrive hclient ?_).dispatch (.message msg) honce
          intro n hn
          split at hn
          · cases hn
          · exact Option.mem_toList.mp hn

theorem Wf.echo_eq_none (h : s.Wf) (hclient : s.toClient = (msg, echo) :: rest)
    (hother : msg.isLink = false) : echo = none := by
  cases echo with
  | none => rfl
  | some n =>
      have hheartbeat := (h.toClient msg n (by simp [hclient])).1
      cases msg with
      | heartbeat => cases hother
      | _ => cases hheartbeat

/-- A message that arrives on an open socket answers the probe that it echoes. -/
theorem watchdog_deliver (h : s.Wf) (hclient : s.toClient = (msg, echo) :: rest)
    (hopen : s.page.socketClosed = false) :
    Watchdog.Step s.watchdog ⟨(s.page.after (.message msg)).beats, s.echoed ++ echo.toList,
      (s.page.after (.message msg)).heartbeatsMissed⟩ := by
  cases after_pulses s.page (.message msg) with
  | quiet hlink hbeats hmissed =>
      have hecho := h.echo_eq_none hclient (hlink hopen msg rfl)
      rw [hbeats, hmissed, hecho, Option.toList_none, List.append_nil]
      exact .idle
  | begins hbeats hmissed =>
      rw [hbeats, hmissed]
      exact .answer echo.toList
  | hears hbeats hmissed =>
      rw [hbeats, hmissed]
      exact .answer echo.toList

/-- The link takes the steps of its watchdog. -/
theorem watchdog_after (h : s.Wf) (a : Act) : Watchdog.Step s.watchdog (s.after a).watchdog := by
  cases a with
  | event e =>
      rw [Link.after]
      cases he : e.isMessage with
      | true => exact .idle
      | false =>
          show Watchdog.Step s.watchdog ⟨(s.page.after e).beats, s.echoed,
            (s.page.after e).heartbeatsMissed⟩
          cases after_pulses s.page e with
          | quiet _ hbeats hmissed =>
              rw [hbeats, hmissed]
              exact .idle
          | beats _ _ hbeats hmissed =>
              rw [hbeats, hmissed]
              exact .probe s.page.sent.length fun hmem => absurd (h.echoed _ hmem) (Nat.lt_irrefl _)
          | begins => cases he
          | hears => cases he
  | serve =>
      rw [Link.after]
      cases s.toServer <;> exact .idle
  | push msg =>
      rw [Link.after]
      split <;> exact .idle
  | deliver =>
      rw [Link.after]
      cases hclient : s.toClient with
      | nil => exact .idle
      | cons oldest rest =>
          obtain ⟨msg, echo⟩ := oldest
          show Watchdog.Step s.watchdog ⟨(s.page.after (.message msg)).beats,
            s.echoed ++ (if s.page.socketClosed then [] else echo.toList),
            (s.page.after (.message msg)).heartbeatsMissed⟩
          cases hclosed : s.page.socketClosed with
          | true =>
              have hsame : s.page.after (.message msg) = s.page := if_pos hclosed
              rw [hsame, if_pos rfl, List.append_nil]
              exact .idle
          | false =>
              rw [if_neg Bool.false_ne_true]
              exact watchdog_deliver h hclient hclosed

/-! ## Giving up -/

theorem Stopped.after (h : s.Stopped) (a : Act) :
    (s.after a).Stopped ∧ (s.after a).page.beats = s.page.beats := by
  have htimers : s.page.timers.length = 0 := Nat.eq_zero_of_add_eq_zero_left h
  have hbeats : ∀ e, (s.page.after e).beats = s.page.beats := by
    intro e
    cases after_pulses s.page e with
    | beats hi => exact absurd hi (by rw [htimers]; exact Nat.not_lt_zero _)
    | quiet _ hbeats => exact hbeats
    | begins hbeats => exact hbeats
    | hears hbeats => exact hbeats
  refine ⟨Nat.le_zero.mp (h ▸ pending_after s a), ?_⟩
  cases a with
  | event e =>
      rw [Link.after]
      split
      · rfl
      · exact hbeats e
  | serve =>
      rw [Link.after]
      cases s.toServer <;> rfl
  | push msg =>
      rw [Link.after]
      split <;> rfl
  | deliver =>
      rw [Link.after]
      cases s.toClient with
      | nil => rfl
      | cons oldest rest => exact hbeats (.message oldest.1)

theorem Stopped.not_declares (h : s.Stopped) (a : Act) : ¬s.Declares a := by
  have htimers : s.page.timers.length = 0 := Nat.eq_zero_of_add_eq_zero_left h
  intro hdeclares
  cases a with
  | event e =>
      cases e with
      | timer i => exact absurd hdeclares.1 (by rw [htimers]; exact Nat.not_lt_zero _)
      | _ => exact hdeclares
  | _ => exact hdeclares

theorem Stopped.run {s' : Link} {acts : List Act} (h : s.Stopped)
    (hrun : Transition.run step s acts = .ok s') :
    s'.Stopped ∧ s'.page.beats = s.page.beats := by
  induction acts generalizing s with
  | nil =>
      cases hrun
      exact ⟨h, rfl⟩
  | cons a acts ih =>
      obtain ⟨hstopped, hbeats⟩ := h.after a
      obtain ⟨hlast, hsame⟩ := ih hstopped hrun
      exact ⟨hlast, hsame.trans hbeats⟩

/-- The tick that gives the server up is the last one. -/
theorem Wf.stopped (h : s.Wf) {a : Act} (hdeclares : s.Declares a) : (s.after a).Stopped := by
  cases a with
  | event e =>
      cases e with
      | timer i =>
          obtain ⟨hi, hopen, hmissed⟩ := hdeclares
          have honce := h.once
          have hafter : (s.page.after (.timer i)).timers = [] := by
            rw [Client.after, List.getElem?_eq_getElem hi]
            obtain ⟨-, -, -, htimers⟩ := heartbeat_open hopen
            rw [htimers, if_pos hmissed, List.filter_eq_nil_iff]
            intro timer hmem
            simp [h.timer timer hmem]
          show s.pending + (s.page.after (.timer i)).timers.length = 0
          rw [hafter, List.length_nil]
          omega
      | _ => exact hdeclares.elim
  | _ => exact hdeclares.elim

theorem sound_start (storedName : Name) (host : String) (id : Nat) :
    (start storedName host id).watchdog.Sound :=
  Watchdog.sound_of_missed rfl

theorem reachable_wf {storedName : Name} {host : String} {id : Nat}
    (h : Transition.Reachable step (start storedName host id) s) : s.Wf ∧ s.watchdog.Sound := by
  refine h.invariant (I := fun s => s.Wf ∧ s.watchdog.Sound)
    ⟨wf_start storedName host id, sound_start storedName host id⟩ ?_
  rintro s s' a - ⟨hwf, hsound⟩ - hstep
  cases hstep
  exact ⟨hwf.after a, hsound.step (watchdog_after hwf a)⟩

end

end Link

/-! ## What the user sees -/

section

variable {c : Client}

theorem output_print_inj {what what' : String}
    (h : (c.print what).output = (c.print what').output) : what = what' := by
  have hline : what ++ "<br>" = what' ++ "<br>" := (String.append_right_inj _).mp h
  exact (String.append_left_inj _).mp hline

theorem output_ne_print (what : String) : c.output ≠ (c.print what).output := by
  intro h
  have hlength := congrArg String.length h
  rw [Client.print, Client.puts, String.length_append, String.length_append] at hlength
  have hline : "<br>".length = 4 := rfl
  omega

/-- The page prints that the server has vanished exactly when it declares so. -/
theorem Link.declares_iff_prints (s : Link) (i : Nat) :
    s.Declares (.event (.timer i)) ↔
      (s.after (.event (.timer i))).page.output =
        (s.page.print "Signaling server vanished!").output := by
  have hlost : ∀ n : Nat, "Signaling server connection lost, ID: " ++ n.repr ≠
      "Signaling server vanished!" := by
    intro n h
    have hchars := congrArg (fun s => s.toList[17]?) h
    simp [String.toList_append] at hchars
  show _ ↔ (s.page.after (.timer i)).output = _
  rw [Client.after]
  cases htimer : s.page.timers[i]? with
  | none =>
      refine iff_of_false (fun hdeclares => ?_) (output_ne_print _)
      exact absurd hdeclares.1 (Nat.not_lt.mpr (List.getElem?_eq_none_iff.mp htimer))
  | some timer =>
      have hi : i < s.page.timers.length := (List.getElem?_eq_some_iff.mp htimer).1
      show _ ↔ s.page.heartbeat.output = _
      rw [Client.heartbeat]
      cases hclosed : s.page.socketClosed with
      | true =>
          refine iff_of_false (fun hdeclares => ?_) fun hprinted => ?_
          · exact absurd (hclosed.symm.trans hdeclares.2.1) (by decide)
          · exact hlost _ (output_print_inj hprinted)
      | false =>
          have hdeclares : s.Declares (.event (.timer i)) ↔
              Client.heartbeatMaxMissing ≤ s.page.heartbeatsMissed + 1 :=
            ⟨fun h => h.2.2, fun h => ⟨hi, hclosed, h⟩⟩
          rw [hdeclares, if_neg Bool.false_ne_true]
          dsimp only [Client.send]
          split
          · next hmissed => exact iff_of_true hmissed rfl
          · next hfew => exact iff_of_false hfew (output_ne_print _)

end

/-- The page declares at most once, and only when the last four Heartbeats that it has sent are
without an echo.  It sends no Heartbeat after the tick that does. -/
theorem declares_unechoed (storedName : Name) (host : String) (id : Nat) (acts : List Link.Act)
    (s : Link) (a : Link.Act)
    (hrun : Transition.run Link.step (Link.start storedName host id) acts = .ok s)
    (hdeclares : s.Declares a) :
    (4 ≤ s.page.beats.length ∧
      ∀ n ∈ s.page.beats.drop (s.page.beats.length - 4), n ∉ s.echoed) ∧
    ∀ acts' s', Transition.run Link.step (s.after a) acts' = .ok s' →
      s'.page.beats = (s.after a).page.beats ∧ ∀ a', ¬s'.Declares a' := by
  obtain ⟨hwf, hsound⟩ := Link.reachable_wf (Transition.reachable_of_run acts hrun)
  have hmissed : 4 ≤ s.watchdog.missed := by
    cases a with
    | event e =>
        cases e with
        | timer i => exact Nat.le_of_succ_le_succ hdeclares.2.2
        | _ => exact hdeclares.elim
    | _ => exact hdeclares.elim
  refine ⟨hsound.recent hmissed, fun acts' s' hrun' => ?_⟩
  obtain ⟨hstopped, hbeats⟩ := (hwf.stopped hdeclares).run hrun'
  exact ⟨hbeats, fun a' => hstopped.not_declares a'⟩

theorem declares_unechoed_silent : ∃ s, Transition.run Link.step (Link.start .null "" 2)
    (.deliver :: List.replicate 4 (.event (.timer 0))) = .ok s ∧
    (∀ n ∈ s.page.beats.drop (s.page.beats.length - 4), n ∉ s.echoed) ∧
    ∀ acts' s', Transition.run Link.step (s.after (.event (.timer 0))) acts' = .ok s' →
      s'.page.beats = [2, 3, 4, 5, 6] := by
  have hrun : ∃ s, Transition.run Link.step (Link.start .null "" 2)
      (.deliver :: List.replicate 4 (.event (.timer 0))) = .ok s ∧
      s.page.timers.length = 1 ∧ s.page.socketClosed = false ∧ s.page.heartbeatsMissed = 4 ∧
      (s.after (.event (.timer 0))).page.beats = [2, 3, 4, 5, 6] :=
    ⟨_, rfl, rfl, rfl, rfl, rfl⟩
  obtain ⟨s, hrun, htimers, hopen, hmissed, hbeats⟩ := hrun
  have hdeclares : s.Declares (.event (.timer 0)) :=
    ⟨by rw [htimers]; decide, hopen, by rw [hmissed]; decide⟩
  obtain ⟨⟨-, hunechoed⟩, hlast⟩ := declares_unechoed _ _ _ _ s _ hrun hdeclares
  exact ⟨s, hrun, hunechoed, fun acts' s' hrun' => ((hlast acts' s' hrun').1).trans hbeats⟩

end Mgws.Browser
