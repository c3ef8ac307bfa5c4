import Mgws.Proofs.Line
/-!
# What an event does to a call

Each event does one of a few things to the line of a page.  `Did` lists them, and
what is said about calls is derived from the list.
-/

namespace Mgws.Browser

open Lib Program

/-! ## All that an event can do -/

inductive Did (c : Client) : Event → Line → Prop where
  | nothing {e} (msgs : List Message) (hmsgs : ∀ m ∈ msgs, m.isSignal = false) :
      Did c e (c.line.send msgs)
  | selected {i tr} (hrow : c.rows[i]? = some tr) :
      Did c (.rowClick i) { c.line with callState := .identified }
  | dialled (henabled : c.callDisabled = false) :
      Did c .callClick { c.line with callState := .calling, peerRemoteId := c.remoteId }
  | hungUp (henabled : c.hangupDisabled = false) (hstream : c.localStream.isSome) :
      Did c .hangupClick (c.line.ended.send c.hangupMessages)
  | rang {userName targetId sessionId session} :
      Did c (.message (.call userName targetId sessionId session))
        { c.line with callState := .ringing, peerRemoteId := .num sessionId }
  | released {userName targetId} (hstream : c.localStream.isSome) :
      Did c (.message (.hangup userName targetId)) c.line.ended
  | vanished {sessions} (hgone : c.Vanishes sessions) (hstream : c.localStream.isSome) :
      Did c (.message (.sessionsChanged sessions)) c.line.ended
  | connected : Did c (.connectionState "connected") { c.line with callState := .connected }
  | signalled {i sdp inv number description n session} (hinv : c.suspended[i]? = some inv)
      (hawaits : inv.awaits = .localDescription number description)
      (hpeer : c.peerRemoteId.number? = some n) :
      Did c (.settle i (.resolved sdp)) (c.lineSignalled inv n session)

section

variable {c d : Client} {e : Event}

theorem Line.send_nil (l : Line) : l.send [] = l := by simp [Line.send]

theorem Did.same {l : Line} (h : l = c.line) : Did c e l := by
  have hnothing : Did c e (c.line.send []) := .nothing [] (by simp)
  rwa [Line.send_nil, ← h] at hnothing

theorem click_line {disabled : Bool} {listener : Js Unit} {l : Line}
    (hline : (finish (listener.run c)).line = l) :
    (c.click disabled listener).line = if disabled then c.line else l := by
  rw [Client.click]
  split
  · rfl
  · rw [line_congr (Client.core_onControlsClick _), hline]

theorem line_onTableRowClickEvent (tr : Row) :
    (c.onTableRowClickEvent tr).line = { c.line with callState := .identified } :=
  congrArg Client.line (c.core_onTableRowClickEvent tr)

theorem line_rowClick {i : Nat} {tr : Row} (hrow : c.rows[i]? = some tr) :
    (c.after (.rowClick i)).line = { c.line with callState := .identified } := by
  rw [Client.after, hrow]
  exact (line_congr (Client.core_onControlsClick _)).trans (line_onTableRowClickEvent tr)

theorem line_hangupClick (c : Client) :
    (c.after .hangupClick).line = c.line ∨ c.hangupDisabled = false ∧ c.localStream.isSome ∧
      (c.after .hangupClick).line = c.line.ended.send c.hangupMessages := by
  rw [Client.after]
  cases hstream : c.localStream with
  | none =>
      rw [click_line (line_hangup_none hstream), ite_self]
      exact .inl rfl
  | some stream =>
      rw [click_line (line_hangup_some hstream)]
      cases c.hangupDisabled with
      | true => exact .inl rfl
      | false => exact .inr ⟨rfl, rfl, rfl⟩

theorem line_send (msg : Message) : (c.send msg).line = c.line.send [msg] := rfl

def Client.lost (c : Client) (msgStr : String) : Client :=
  (((c.print msgStr).clearHeartbeat).clearRemotesTable).disableButtons

theorem line_lost (msgStr : String) :
    (c.lost msgStr).line = c.line ∧ (c.lost msgStr).sessionID = c.sessionID := by
  have hclear : ∀ d : Client, d.clearHeartbeat.clearRemotesTable.line = d.line ∧
      d.clearHeartbeat.clearRemotesTable.sessionID = d.sessionID := fun _ => ⟨rfl, rfl⟩
  rw [Client.lost, line_congr (Client.core_disableButtons _), (hclear _).1]
  exact ⟨rfl, (congr_core (·.sessionID) (fun _ => rfl) (Client.core_disableButtons _)).trans
    (hclear _).2⟩

theorem line_heartbeat : c.heartbeat.line =
    if c.socketClosed then c.line else c.line.send [.heartbeat c.sessionID] := by
  have hsend : ∀ d : Client, d.line = c.line ∧ d.sessionID = c.sessionID →
      (d.send (.heartbeat d.sessionID)).line = c.line.send [.heartbeat c.sessionID] := by
    rintro d ⟨hline, hid⟩
    rw [line_send, hline, hid]
  have hmissed : ∀ n, { c with heartbeatsMissed := n }.line = c.line := fun _ => rfl
  rw [Client.heartbeat]
  split
  · exact (line_lost _).1
  · dsimp only
    apply hsend
    split
    · obtain ⟨hline, hid⟩ := line_lost
        (c := { c with heartbeatsMissed := c.heartbeatsMissed + 1 }) "Signaling server vanished!"
      exact ⟨hline.trans (hmissed _), hid⟩
    · exact ⟨hmissed _, rfl⟩

theorem line_onIceCandidateEvent (candidate : Option String) : ∃ msgs : List Message,
    (∀ m ∈ msgs, m.isSignal = false) ∧
      (finish ((onIceCandidateEvent candidate).run c)).line = c.line.send msgs := by
  cases candidate with
  | none => exact ⟨[], by simp, (Line.send_nil _).symm⟩
  | some candidate =>
      rw [onIceCandidateEvent, bind_of_ret (run_get c), Id.toString]
      cases c.peerRemoteId.number? with
      | none => exact ⟨[], by simp, (Line.send_nil _).symm⟩
      | some n =>
          exact ⟨[.iceCandidate c.userName n.repr candidate], by simp [Message.isSignal], rfl⟩

theorem line_onConnectionStateChange (state : String) :
    (c.onConnectionStateChange state).line =
      if state = "connected" then { c.line with callState := .connected } else c.line := by
  rw [Client.onConnectionStateChange]
  split
  · exact line_setCallState .connected
  · rfl

theorem onMessage_did (msg : Message) :
    Did c (.message msg) (finish ((onMessage msg).run c)).line := by
  cases msg with
  | sessionID id =>
      have hline : (c.onSessionID id).line =
          c.line.send [.registerSession id "0.1" c.storedName, .localIdEvent id c.userName] := by
        simp [Line.send, Client.line, Client.onSessionID, Client.peerRegisterSession,
          Client.sendLocalIdEvent, Client.beginHeartbeat, Client.send]
      show Did c _ (c.onSessionID id).line
      rw [hline]
      exact .nothing _ (by simp [Message.isSignal])
  | sessionsChanged sessions =>
      show Did c _ (finish ((onSessionsChangedMessage sessions).run c)).line
      by_cases hgone : c.Vanishes sessions
      · rw [line_onSessionsChangedMessage_vanishes hgone, Client.lineEnded]
        split
        · next hstream => exact .vanished hgone hstream
        · exact .same rfl
      · exact .same (line_onSessionsChangedMessage_keeps hgone)
  | call userName targetId sessionId session =>
      show Did c _ (finish ((onCallMessage userName sessionId session).run c)).line
      rw [line_onCallMessage]
      exact .rang
  | answer userName targetId sessionId session =>
      exact .same ((keepsLine_setRemoteDescription session).finish c)
  | hangup userName targetId =>
      show Did c _ (finish (onHangupMessage.run c)).line
      rw [line_onHangupMessage, Client.lineEnded]
      split
      · next hstream => exact .released hstream
      · exact .same rfl
  | registerSession | localIdEvent | localIdChanged | iceCandidate | heartbeat | other =>
      exact .same rfl

theorem after_settle {i : Nat} {inv : Invocation} (hinv : c.suspended[i]? = some inv)
    (settled : Settled) : c.after (.settle i settled) =
      finish ((resume inv settled).run { c with suspended := c.suspended.eraseIdx i }) := by
  rw [Client.after, hinv]

theorem line_settle {i n number : Nat} {inv : Invocation} {description : Description}
    {pc : PeerConnection} (sdp : String) (hinv : c.suspended[i]? = some inv)
    (hawaits : inv.awaits = .localDescription number description)
    (hpeer : c.peerRemoteId.number? = some n) (hpc : c.pc = some pc) :
    ∃ session, (c.after (.settle i (.resolved sdp))).line = c.lineSignalled inv n session := by
  obtain ⟨session, hline⟩ := line_resume_some
    (c := { c with suspended := c.suspended.eraseIdx i }) sdp hawaits hpeer hpc
  exact ⟨session, by rw [after_settle hinv, hline]; rfl⟩

/-- The settlement of an awaited operation changes nothing or sends the message of the
invocation. -/
theorem line_settled {i : Nat} {inv : Invocation} (hinv : c.suspended[i]? = some inv)
    (settled : Settled) : (c.after (.settle i settled)).line = c.line ∨
      ∃ sdp number description n session, settled = .resolved sdp ∧
        inv.awaits = .localDescription number description ∧ c.peerRemoteId.number? = some n ∧
        (c.after (.settle i settled)).line = c.lineSignalled inv n session := by
  by_cases hlast : ∃ number description sdp, inv.awaits = .localDescription number description ∧
    settled = .resolved sdp
  · obtain ⟨number, description, sdp, hawaits, rfl⟩ := hlast
    have hnone (hnone : c.peerRemoteId.number? = none ∨ c.pc = none) :
        (c.after (.settle i (.resolved sdp))).line = c.line := by
      rw [after_settle hinv]
      exact line_resume_none
        (c := { c with suspended := c.suspended.eraseIdx i }) sdp hawaits hnone
    cases hpeer : c.peerRemoteId.number? with
    | none => exact .inl (hnone (.inl hpeer))
    | some n =>
        cases hpc : c.pc with
        | none => exact .inl (hnone (.inr hpc))
        | some pc =>
            obtain ⟨session, hline⟩ := line_settle sdp hinv hawaits hpeer hpc
            exact .inr ⟨sdp, number, description, n, session, rfl, hawaits, rfl, hline⟩
  · have hkeeps : Keeps Client.line (resume inv settled) :=
      keepsLine_resume fun number description sdp hawaits hsettled =>
        hlast ⟨number, description, sdp, hawaits, hsettled⟩
    rw [after_settle hinv]
    exact .inl (hkeeps.finish { c with suspended := c.suspended.eraseIdx i })

theorem settle_did {i : Nat} {inv : Invocation} (hinv : c.suspended[i]? = some inv)
    (settled : Settled) : Did c (.settle i settled) (c.after (.settle i settled)).line := by
  rcases line_settled hinv settled with
    hsame | ⟨sdp, number, description, n, session, rfl, hawaits, hpeer, hline⟩
  · exact .same hsame
  · rw [hline]
    exact .signalled hinv hawaits hpeer

/-- An event does one of the things that `Did` lists. -/
theorem after_did (c : Client) (e : Event) : Did c e (c.after e).line := by
  cases e with
  | rowClick i =>
      cases hrow : c.rows[i]? with
      | none =>
          rw [Client.after, hrow]
          exact .same rfl
      | some tr =>
          rw [line_rowClick hrow]
          exact .selected hrow
  | callClick =>
      rw [Client.after, click_line line_call]
      split
      · exact .same rfl
      · next henabled => exact .dialled (Bool.eq_false_iff.mpr henabled)
  | answerClick =>
      rw [Client.after, click_line (keepsLine_answer.finish c), ite_self]
      exact .same rfl
  | hangupClick =>
      rcases line_hangupClick c with hsame | ⟨henabled, hstream, hline⟩
      · exact .same hsame
      · rw [hline]
        exact .hungUp henabled hstream
  | controlsClick => exact .same (line_congr (Client.core_onControlsClick c))
  | message msg =>
      simp only [Client.after]
      split
      · exact .same rfl
      · exact onMessage_did msg
  | settle i settled =>
      cases hinv : c.suspended[i]? with
      | none =>
          rw [Client.after, hinv]
          exact .same rfl
      | some inv => exact settle_did hinv settled
  | userMedia granted =>
      refine .same ?_
      simp only [Client.after, Client.onUserMedia]
      split
      · rfl
      · split <;> rfl
  | connectionState state =>
      rw [Client.after, line_onConnectionStateChange]
      split
      · next hstate =>
          rw [hstate]
          exact .connected
      · exact .same rfl
  | iceCandidate candidate =>
      obtain ⟨msgs, hmsgs, hline⟩ := line_onIceCandidateEvent (c := c) candidate
      rw [Client.after, hline]
      exact .nothing msgs hmsgs
  | iceCandidateError text => exact .same rfl
  | ended i =>
      simp only [Client.after]
      split
      · exact .same rfl
      · exact .same (line_congr (Client.core_onEnded c _))
  | timer i =>
      simp only [Client.after]
      split
      · exact .same rfl
      · rw [line_heartbeat]
        split
        · exact .same rfl
        · exact .nothing [.heartbeat c.sessionID] (by simp [Message.isSignal])
  | close wasClean =>
      refine .same ?_
      simp only [Client.after, Client.onClose]
      split <;> rfl

/-! ## The rest of a page -/

/-- The page without its user interface and its call.  The invocations that are suspended are
part of it. -/
def Client.rest (c : Client) : Client :=
  { c.core with
    pc := none
    peerRemoteId := .undefined
    peerRemoteUserName := .undefined
    callState := .idle
    remoteId := .undefined
    remotes := []
    rows := []
    selectedRow := none
    connections := 0
    mediaRequests := 0
    closed := []
    sent := []
    addressed := [] }

theorem rest_congr (h : d.core = c.core) : d.rest = c.rest :=
  congr_core Client.rest (fun _ => rfl) h

theorem rest_setCallState (state : CallState) : (c.setCallState state).rest = c.rest :=
  congrArg (·.rest) (c.core_setCallState state)

theorem rest_onTableRowClickEvent (tr : Row) : (c.onTableRowClickEvent tr).rest = c.rest :=
  congrArg (·.rest) (c.core_onTableRowClickEvent tr)

theorem rest_highlightOnById (id : Id) : (c.highlightOnById id).rest = c.rest := by
  rcases c.core_highlightOnById id with hsame | ⟨n, -, hset⟩
  · exact congrArg (·.rest) hsame
  · exact congrArg (·.rest) hset

theorem Keeps.of_rest {α β : Type} {x : Js α} (h : Keeps Client.rest x) (view : Client → β)
    (hview : ∀ c, view c.rest = view c) : Keeps view x := by
  refine keeps_of_finish fun c => ?_
  rw [← hview (Browser.finish (x.run c)), h.finish, hview]

theorem keepsRest_endCall : Keeps Client.rest endCall := by
  refine keeps_of_finish fun c => ?_
  cases hstream : c.localStream with
  | none => rw [endCall_run_none hstream, finish]
  | some stream =>
      rw [endCall_run_some hstream]
      exact congr_replacePc Client.rest fun _ _ _ _ _ _ => rfl

theorem keepsRest_announce (ringing calling connected : String) :
    Keeps Client.rest (modify (·.announce ringing calling connected)) :=
  .modify fun c => rest_congr (c.core_announce _ _ _)

theorem keepsRest_hangup : Keeps Client.rest hangup :=
  (keepsRest_announce _ _ _).bind fun _ => keepsRest_endCall.bind fun _ =>
    keeps_get.bind fun _ => (keeps_ofExcept _).bind fun _ => .modify fun _ => rfl

theorem keepsRest_addTracks : Keeps Client.rest addTracks := keeps_addTracks fun _ _ _ => rfl

theorem keepsRest_signal (started : Id)
    (msg : Name → String → Nat → Option Description → Message) :
    Keeps Client.rest (signal started msg) :=
  keeps_get.bind fun _ => (keeps_ofExcept _).bind fun _ => keeps_getPc.bind fun _ =>
    .modify fun _ => rfl

theorem keepsRest_onIceCandidateEvent (candidate : Option String) :
    Keeps Client.rest (onIceCandidateEvent candidate) := by
  cases candidate with
  | none => exact keeps_pure _
  | some candidate =>
      exact keeps_get.bind fun _ => (keeps_ofExcept _).bind fun _ => .modify fun _ => rfl

theorem keepsRest_setRemoteDescription (session : Option Description) :
    Keeps Client.rest (setRemoteDescription session) :=
  keeps_setRemoteDescription (fun _ _ _ => rfl) session

theorem rest_foldl_addRow (sessions : List Entry) (c : Client) :
    (sessions.foldl Client.addRow c).rest = c.rest := by
  obtain ⟨remotes, hfold⟩ := foldl_addRow sessions c
  rw [hfold]
  rfl

theorem keepsRest_onSessionsChangedMessage (sessions : List Entry) :
    Keeps Client.rest (onSessionsChangedMessage sessions) := by
  have hdetect : Keeps Client.rest (detectVanishedSession sessions) := by
    refine keeps_get.bind fun c => ?_
    split
    · split
      · exact Keeps.bind (.modify fun _ => rfl) fun _ => Keeps.bind (.modify fun _ => rfl) fun _ =>
          keepsRest_endCall
      · exact keeps_pure _
    · exact keeps_pure _
  exact hdetect.bind fun _ => .modify fun c => rest_foldl_addRow sessions c.clearRemotesTable

def Message.isLink : Message → Bool
  | sessionID _ | heartbeat _ => true
  | _ => false

theorem keepsRest_onMessage {msg : Message} (hmsg : msg.isLink = false) :
    Keeps Client.rest (onMessage msg) := by
  cases msg with
  | sessionID | heartbeat => cases hmsg
  | sessionsChanged sessions => exact keepsRest_onSessionsChangedMessage sessions
  | call userName targetId sessionId session =>
      refine Keeps.bind (.modify fun c => ?_) fun _ => Keeps.bind (.modify fun _ => rfl) fun _ =>
        Keeps.bind (.modify fun _ => rfl) fun _ => keepsRest_setRemoteDescription session
      exact rest_setCallState (c := c.setPeerRemoteId (.num sessionId)) .ringing
  | answer userName targetId sessionId session => exact keepsRest_setRemoteDescription session
  | hangup userName targetId =>
      exact (keepsRest_announce _ _ _).bind fun _ => keepsRest_endCall
  | localIdChanged | iceCandidate => exact keeps_pure _
  | registerSession | localIdEvent | other => exact .modify fun _ => rfl

def Event.isLink : Event → Bool
  | message msg => msg.isLink
  | timer _ | close _ => true
  | _ => false

def Event.isAsync : Event → Bool
  | callClick | answerClick | settle .. | userMedia _ => true
  | _ => false

theorem rest_click {disabled : Bool} {listener : Js Unit} (h : Keeps Client.rest listener) :
    (c.click disabled listener).rest = c.rest := by
  rw [Client.click]
  split
  · rfl
  · rw [rest_congr (Client.core_onControlsClick _), h.finish]

theorem rest_after (hlink : e.isLink = false) (hasync : e.isAsync = false) :
    (c.after e).rest = c.rest := by
  cases e with
  | callClick | answerClick | settle | userMedia => cases hasync
  | timer | close => cases hlink
  | rowClick i =>
      rw [Client.after]
      cases c.rows[i]? with
      | none => rfl
      | some tr =>
          exact (rest_congr (Client.core_onControlsClick _)).trans (rest_onTableRowClickEvent tr)
  | hangupClick => exact rest_click keepsRest_hangup
  | controlsClick => exact rest_congr c.core_onControlsClick
  | message msg =>
      rw [Client.after]
      split
      · rfl
      · exact (keepsRest_onMessage hlink).finish c
  | connectionState state =>
      rw [Client.after, Client.onConnectionStateChange]
      split
      · exact rest_setCallState .connected
      · rfl
  | iceCandidate candidate => exact (keepsRest_onIceCandidateEvent candidate).finish c
  | iceCandidateError text => rfl
  | ended i =>
      rw [Client.after]
      cases c.sources[i]? with
      | none => rfl
      | some source => exact rest_congr (c.core_onEnded source)

theorem keepsSuspended_onMessage (msg : Message) : Keeps (·.suspended) (onMessage msg) := by
  cases hmsg : msg.isLink with
  | false => exact (keepsRest_onMessage hmsg).of_rest (·.suspended) fun _ => rfl
  | true =>
      cases msg with
      | sessionID | heartbeat => exact .modify fun _ => rfl
      | _ => cases hmsg

theorem meets_cons {C : Client → Event → Prop} {es : List Event} :
    Transition.Meets step C c (e :: es) ↔ C c e ∧ Transition.Meets step C (c.after e) es := by
  constructor
  · exact fun h => h _ rfl
  · intro h c' hstep
    cases hstep
    exact h

/-! ## The connections of a page -/

/-- The connection in use is open, and those that were made are numbered in order. -/
structure Numbered (l : Line) : Prop where
  current : ∃ n, l.pc = some n ∧ n < l.connections ∧ n ∉ l.closed
  closed : ∀ n ∈ l.closed, n < l.connections

theorem Numbered.ended {l : Line} (h : Numbered l) : Numbered l.ended := by
  obtain ⟨n, hpc, hlt, -⟩ := h.current
  have hclosed : ∀ m ∈ l.closed ++ [n], m < l.connections := by
    intro m hm
    rcases List.mem_append.mp hm with hm | hm
    · exact h.closed m hm
    · rw [List.mem_singleton.mp hm]
      exact hlt
  rw [Line.ended, hpc]
  constructor
  · refine ⟨l.connections, rfl, Nat.lt_succ_self _, fun hmem => ?_⟩
    exact absurd (hclosed _ hmem) (Nat.lt_irrefl _)
  · exact fun m hm => Nat.lt_succ_of_lt (hclosed m hm)

theorem Numbered.did {l : Line} (h : Numbered c.line) (hdid : Did c e l) : Numbered l := by
  cases hdid with
  | hungUp => exact ⟨h.ended.current, h.ended.closed⟩
  | released | vanished => exact h.ended
  | _ => exact ⟨h.current, h.closed⟩

theorem loaded_line (storedName : Name) (host : String) : (loaded storedName host).line =
    { callState := .idle, peerRemoteId := .undefined, pc := some 0, connections := 1, closed := [],
      sent := [], addressed := [] } := rfl

theorem reachable_numbered (h : Reachable c) : Numbered c.line := by
  obtain ⟨storedName, host, hrun⟩ := h
  refine hrun.invariant (I := fun c => Numbered c.line) ?_ fun c c' e _ hnumbered _ hstep => ?_
  · rw [loaded_line]
    exact ⟨⟨0, rfl, by decide, by simp⟩, by simp⟩
  · cases hstep
    exact hnumbered.did (after_did c e)

end

end Mgws.Browser
