import Mgws.Proofs.Endings
/-!
# What a page shows

The buttons, the selection and the sounds of a page are its panel.  The handlers write
to it from many places; the panel itself is a small machine with a handful of moves,
and each event amounts to a few of them.
-/

namespace Mgws.Browser

open Lib Program

/-- The part of a page that its user sees and hears.  A source is seen by its number and
its tone. -/
structure Panel where
  callState : CallState
  remoteId : Id
  peerRemoteId : Id
  callDisabled : Bool
  answerDisabled : Bool
  hangupDisabled : Bool
  sources : List (Nat × Tone)
  nextSource : Nat

def CallState.tone? : CallState → Option Tone
  | calling => some .remoteRing
  | ringing => some .telephoneRing
  | idle | identified | connected => none

namespace Panel

variable (p : Panel)

def play (tone : Tone) : Panel :=
  { p with sources := p.sources ++ [(p.nextSource, tone)], nextSource := p.nextSource + 1 }

def drop (number : Nat) : Panel :=
  { p with sources := p.sources.filter fun source => source.1 ≠ number }

def select (id : Id) : Panel := { p with remoteId := id, callDisabled := false }

def disableButtons : Panel :=
  { p with callDisabled := true, answerDisabled := true, hangupDisabled := true }

/-- The buttons for a state.  Call is enabled in Idle when a session is selected. -/
def buttons (state : CallState) : Panel :=
  { p with
    callDisabled := !(state = .identified || state = .idle && p.remoteId.truthy)
    answerDisabled := state ≠ .ringing
    hangupDisabled := !state.active }

def display (state : CallState) : Panel :=
  match state.tone? with
  | none => p.buttons state
  | some tone => (p.buttons state).play tone

def enter (state : CallState) : Panel := { p with callState := state }.display state

variable (state : CallState)

@[simp] theorem enter_callState : (p.enter state).callState = state := by cases state <;> rfl

@[simp] theorem enter_remoteId : (p.enter state).remoteId = p.remoteId := by cases state <;> rfl

@[simp] theorem enter_peerRemoteId : (p.enter state).peerRemoteId = p.peerRemoteId := by
  cases state <;> rfl

@[simp] theorem enter_callDisabled : (p.enter state).callDisabled =
    !(state = .identified || state = .idle && p.remoteId.truthy) := by
  cases state <;> rfl

@[simp] theorem enter_answerDisabled :
    (p.enter state).answerDisabled = decide (state ≠ .ringing) := by
  cases state <;> rfl

@[simp] theorem enter_hangupDisabled : (p.enter state).hangupDisabled = !state.active := by
  cases state <;> rfl

end Panel

def Client.panel (c : Client) : Panel where
  callState := c.callState
  remoteId := c.remoteId
  peerRemoteId := c.peerRemoteId
  callDisabled := c.callDisabled
  answerDisabled := c.answerDisabled
  hangupDisabled := c.hangupDisabled
  sources := c.sources.map fun source => (source.number, source.tone)
  nextSource := c.nextSource

namespace Client

variable (c : Client)

/-! ## The user interface -/

@[simp] theorem panel_print (what : String) : (c.print what).panel = c.panel := rfl

@[simp] theorem panel_setControlsVisible (visible : Bool) :
    (c.setControlsVisible visible).panel = c.panel := rfl

@[simp] theorem panel_disableCall (disable : Bool) :
    (c.disableCall disable).panel = { c.panel with callDisabled := disable } := rfl

@[simp] theorem panel_disableAnswer (disable : Bool) :
    (c.disableAnswer disable).panel = { c.panel with answerDisabled := disable } := rfl

@[simp] theorem panel_disableHangup (disable : Bool) :
    (c.disableHangup disable).panel = { c.panel with hangupDisabled := disable } := rfl

@[simp] theorem panel_disableButtons : c.disableButtons.panel = c.panel.disableButtons := rfl

@[simp] theorem panel_play (tone : Tone) : (c.play tone).panel = c.panel.play tone := by
  cases tone <;> simp [play, panel, Panel.play]

@[simp] theorem panel_stop (tone : Tone) : (c.stop tone).panel = c.panel := by
  rw [stop]
  cases c.sound tone with
  | none => rfl
  | some number =>
      have hsource : ∀ source : Source,
          ((if source.number = number then { source with stopped := true } else source).number,
            (if source.number = number then { source with stopped := true } else source).tone) =
          (source.number, source.tone) := by
        intro source
        split <;> rfl
      simp [panel, Function.comp_def, hsource]

@[simp] theorem panel_onControlsClick : c.onControlsClick.panel = c.panel := by
  rw [onControlsClick]
  split <;> rfl

theorem panel_announce (ringing calling connected : String) :
    (c.announce ringing calling connected).panel = c.panel := by
  simp only [announce]
  split <;> rfl

theorem panel_updateCallStateUI (state : CallState) :
    (c.updateCallStateUI state).panel = c.panel.display state := by
  cases state with
  | idle =>
      have hcleared : (((c.setControlsVisible true).disableButtons.stop .remoteRing).stop
          .telephoneRing).panel = c.panel.disableButtons := by
        rw [panel_stop, panel_stop]
        rfl
      have hremote := congrArg Panel.remoteId hcleared
      simp only [updateCallStateUI]
      rw [show (((c.setControlsVisible true).disableButtons.stop .remoteRing).stop
        .telephoneRing).remoteId = c.remoteId from hremote]
      cases htruthy : c.remoteId.truthy with
      | false =>
          rw [if_neg Bool.false_ne_true, hcleared]
          simp [Panel.display, CallState.tone?, Panel.buttons, Panel.disableButtons, panel, htruthy,
            CallState.active]
      | true =>
          rw [if_pos rfl, showIdentified]
          simp only [panel_disableHangup, panel_disableAnswer, panel_disableCall,
            panel_setControlsVisible, hcleared]
          simp [Panel.display, CallState.tone?, Panel.buttons, Panel.disableButtons, panel, htruthy,
            CallState.active]
  | _ =>
      simp [updateCallStateUI, showIdentified, Panel.display, CallState.tone?, Panel.buttons,
        CallState.active]

theorem panel_setCallState (state : CallState) :
    (c.setCallState state).panel = c.panel.enter state :=
  panel_updateCallStateUI _ state

/-- The buttons are shown for Idle over and over. -/
theorem panel_replacePc : c.replacePc.panel = c.panel.enter .idle := by
  have hidle : ∀ p : Panel, (p.display .idle).enter .idle = p.enter .idle := fun _ => rfl
  rw [replacePc, panel_setCallState]
  cases hpc : c.pc with
  | none => rfl
  | some pc =>
      have hclosed : (c.closePc pc).panel = c.panel := rfl
      have hmade : (c.closePc pc).makePeerConnection.initLocalStream.panel =
          (c.closePc pc).resetCallState.panel := rfl
      simp only
      rw [resetCallState, panel_updateCallStateUI, hidle, hmade, resetCallState,
        panel_updateCallStateUI, hidle, hclosed]

def highlighted (id : Id) : Id :=
  c.rows.foldl (fun remoteId row => if id.number? = some row.id then .text row.id else remoteId) id

theorem number?_highlighted (id : Id) : (c.highlighted id).number? = id.number? := by
  have hfold : ∀ (rows : List Row) (remoteId : Id), remoteId.number? = id.number? →
      (rows.foldl (fun remoteId row =>
        if id.number? = some row.id then .text row.id else remoteId) remoteId).number? =
          id.number? := by
    intro rows
    induction rows with
    | nil => exact fun _ h => h
    | cons row rows ih =>
        intro remoteId h
        rw [List.foldl_cons]
        apply ih
        split
        · next hid => exact hid.symm
        · exact h
  exact hfold c.rows id rfl

theorem panel_highlightOnById (id : Id) :
    ((c.updateRemoteId id).highlightOnById id).panel = c.panel.select (c.highlighted id) := by
  have hfold : ∀ (rows : List Row) (d : Client) (remoteId : Id),
      d.panel = c.panel.select remoteId →
      (rows.foldl (fun c row => if id.number? = some row.id then c.highlight row else c) d).panel =
        c.panel.select (rows.foldl (fun remoteId row =>
          if id.number? = some row.id then .text row.id else remoteId) remoteId) := by
    intro rows
    induction rows with
    | nil => exact fun _ _ h => h
    | cons row rows ih =>
        intro d remoteId h
        rw [List.foldl_cons, List.foldl_cons]
        apply ih
        split
        · show d.panel.select (.text row.id) = _
          rw [h]
          rfl
        · exact h
  exact hfold c.rows _ id rfl

theorem panel_onTableRowClickEvent (tr : Row) :
    (c.onTableRowClickEvent tr).panel = (c.panel.select (.text tr.id)).enter .identified := by
  rw [onTableRowClickEvent, panel_setCallState]
  cases c.selectedRow <;> rfl

def panelEnded (source : Source) : Panel :=
  if c.callState = .connected ∨ c.callState = .idle then c.panel.drop source.number
  else (c.panel.drop source.number).play source.tone

theorem panel_onEnded (source : Source) : (c.onEnded source).panel = c.panelEnded source := by
  have hdropped : ∀ d : Client,
      d = { c with sources := c.sources.filter fun s => s.number ≠ source.number } →
      d.panel = c.panel.drop source.number ∧ d.callState = c.callState := by
    rintro d rfl
    refine ⟨?_, rfl⟩
    simp [panel, Panel.drop, List.filter_map, Function.comp_def]
  obtain ⟨hpanel, hstate⟩ := hdropped _ rfl
  simp only [onEnded, abortTone, panelEnded]
  split
  · exact (panel_stop _ _).trans hpanel
  · rw [← hpanel]
    exact panel_play _ _

end Client

section

variable {c : Client}

/-! ## Handlers -/

theorem keepsPanel_addTracks : Keeps Client.panel addTracks := keeps_addTracks fun _ _ _ => rfl

theorem keepsPanel_await (fn : AsyncFn) (started : Id) (awaits : PeerConnection → Awaited) :
    Keeps Client.panel (await fn started awaits) :=
  keeps_getPc.bind fun _ => .modify fun _ => rfl

theorem keepsPanel_orFail {x : Js Unit} (hx : Keeps Client.panel x) :
    Keeps Client.panel (orFail x) :=
  hx.orFail fun _ _ => rfl

theorem keepsPanel_answer : Keeps Client.panel answer :=
  keepsPanel_addTracks.bind fun _ => keeps_get.bind fun _ => keepsPanel_await _ _ _

theorem keepsPanel_signal (started : Id)
    (msg : Name → String → Nat → Option Description → Message) :
    Keeps Client.panel (signal started msg) :=
  keeps_get.bind fun _ => (keeps_ofExcept _).bind fun _ => keeps_getPc.bind fun _ =>
    .modify fun _ => rfl

/-- Call was clicked.  The button that `SetCallState` disables is enabled again. -/
def Client.panelDialled (c : Client) : Panel :=
  ({ c.panel with peerRemoteId := c.remoteId }.enter .calling).select c.remoteId

theorem panel_call : (finish (call.run c)).panel = c.panelDialled := by
  have hadd : Keeps Client.panel (tryCatch addTracks fun err =>
      modify (·.print ("caught error: " ++ err.toText))) :=
    keepsPanel_addTracks.tryCatch fun _ => .modify fun _ => rfl
  have hrest := hadd.bind fun _ =>
    keepsPanel_orFail (keepsPanel_await .call c.remoteId fun _ => .creation)
  have hdialled : c.dialled.panel =
      ((c.setPeerRemoteId c.remoteId).setCallState .calling).panel.select
        ((c.setPeerRemoteId c.remoteId).setCallState .calling).panel.remoteId := rfl
  rw [call_run, hrest.finish, hdialled, Client.panel_setCallState]
  rfl

/-- A handler that ends the call does so when there is a local stream. -/
theorem panel_endCall :
    (finish (endCall.run c)).panel =
      if c.localStream.isSome then c.panel.enter .idle else c.panel := by
  cases hstream : c.localStream with
  | none =>
      rw [endCall_run_none hstream]
      rfl
  | some stream =>
      rw [endCall_run_some hstream]
      exact c.panel_replacePc

def Client.panelHungUp (c : Client) : Panel :=
  if c.localStream.isSome then c.panel.enter .idle else c.panel

theorem panel_onHangupMessage : (finish (onHangupMessage.run c)).panel = c.panelHungUp := by
  show (finish (endCall.run (c.announce _ _ _))).panel = _
  rw [panel_endCall, localStream_announce, Client.panel_announce]
  rfl

theorem panel_hangup : (finish (hangup.run c)).panel = c.panelHungUp := by
  have htail : Keeps Client.panel (do
      let c ← get
      let targetId ← ofExcept c.peerRemoteId.toString
      modify (·.send (.hangup c.userName targetId)) : Js Unit) :=
    keeps_get.bind fun _ => (keeps_ofExcept _).bind fun _ => .modify fun _ => rfl
  rw [hangup_run, Client.panelHungUp]
  cases hstream : c.localStream with
  | none =>
      rw [bind_of_throw (endCall_run_none ((localStream_announce _ _ _).trans hstream))]
      exact c.panel_announce _ _ _
  | some stream =>
      rw [bind_of_ret (endCall_run_some ((localStream_announce _ _ _).trans hstream)),
        htail.finish, Client.panel_replacePc, Client.panel_announce]
      rfl

def Client.panelRung (c : Client) (sessionId : Nat) : Panel :=
  { c.panel with peerRemoteId := .num sessionId }.enter .ringing

theorem panel_onCallMessage (userName : Name) (sessionId : Nat) (session : Option Description) :
    (finish ((onCallMessage userName sessionId session).run c)).panel = c.panelRung sessionId := by
  have hset : Keeps Client.panel (setRemoteDescription session) :=
    keeps_setRemoteDescription (fun _ _ _ => rfl) session
  show (finish ((setRemoteDescription session).run (c.rung userName sessionId))).panel = _
  rw [hset.finish]
  exact (c.setPeerRemoteId (.num sessionId)).panel_setCallState .ringing

instance (c : Client) (sessions : List Entry) : Decidable (c.Vanishes sessions) :=
  inferInstanceAs (Decidable (_ ∧ _))

def Client.panelListed (c : Client) (sessions : List Entry) : Panel :=
  if c.Vanishes sessions then
    if c.localStream.isSome then { c.panel with remoteId := .null }.enter .idle
    else { c.panel with remoteId := .null }
  else c.panel

theorem panel_foldl_addRow (sessions : List Entry) (c : Client) :
    (sessions.foldl Client.addRow c).panel = c.panel := by
  obtain ⟨remotes, hfold⟩ := foldl_addRow sessions c
  rw [hfold]
  rfl

theorem panel_onSessionsChangedMessage (sessions : List Entry) :
    (finish ((onSessionsChangedMessage sessions).run c)).panel = c.panelListed sessions := by
  have hdeselected : c.deselected.panel = { c.panel with remoteId := .null } := rfl
  have hlist : ∀ d : Client, (sessions.foldl Client.addRow d.clearRemotesTable).panel = d.panel :=
    fun d => panel_foldl_addRow sessions _
  rw [onSessionsChangedMessage, Client.panelListed]
  split
  · next hgone =>
      have hdetect := detectVanishedSession_run_vanishes hgone
      cases hstream : c.localStream with
      | none =>
          rw [bind_of_throw (hdetect.trans (endCall_run_none hstream))]
          exact hdeselected
      | some stream =>
          rw [bind_of_ret (hdetect.trans (endCall_run_some hstream))]
          exact (hlist _).trans ((Client.panel_replacePc _).trans (by rw [hdeselected]; rfl))
  · next hgone =>
      rw [bind_of_ret (detectVanishedSession_run_keeps hgone)]
      exact hlist c

def Client.panelTold (c : Client) : Message → Panel
  | .sessionsChanged sessions => c.panelListed sessions
  | .call _ _ sessionId _ => c.panelRung sessionId
  | .hangup .. => c.panelHungUp
  | _ => c.panel

theorem panel_onMessage (msg : Message) :
    (finish ((onMessage msg).run c)).panel = c.panelTold msg := by
  cases msg with
  | sessionsChanged sessions => exact panel_onSessionsChangedMessage sessions
  | call userName targetId sessionId session => exact panel_onCallMessage userName sessionId session
  | answer userName targetId sessionId session =>
      exact (keeps_setRemoteDescription (fun _ _ _ => rfl) session).finish c
  | hangup => exact panel_onHangupMessage
  | _ => rfl

/-! ## After an await -/

def Awaited.isLast : Awaited → Bool
  | localDescription .. => true
  | creation => false

/-- The panel when an Answer is on its way.  The selection is the peer. -/
def Client.panelAnswered (c : Client) : Panel :=
  { c.panel.select (c.highlighted c.peerRemoteId) with
    answerDisabled := c.answerDisabled || c.peerRemoteId.number?.isSome && c.pc.isSome }

theorem panel_answering : c.answering.panel = c.panel.select (c.highlighted c.peerRemoteId) :=
  c.panel_highlightOnById c.peerRemoteId

theorem panel_resume_answer {inv : Invocation} (sdp : String) (hfn : inv.fn = .answer)
    (hlast : inv.awaits.isLast) :
    (finish ((resume inv (.resolved sdp)).run c)).panel = c.panelAnswered := by
  cases hawaits : inv.awaits with
  | creation =>
      rw [hawaits] at hlast
      cases hlast
  | localDescription number description =>
      obtain ⟨d, hd⟩ : ∃ d, d = c.describe number description := ⟨_, rfl⟩
      have hpanel : d.answering.panel = c.panel.select (c.highlighted c.peerRemoteId) := by
        rw [panel_answering, hd]
        rfl
      have hpeer : d.answering.peerRemoteId = c.peerRemoteId := congrArg Panel.peerRemoteId hpanel
      have hanswer : d.answering.answerDisabled = c.answerDisabled :=
        congrArg Panel.answerDisabled hpanel
      have hpc : d.answering.pc.isSome = c.pc.isSome := by
        rw [agrees_answering.2, hd]
        exact Option.isSome_map
      rw [resume, hfn, hawaits]
      simp only [resumeAnswer_run]
      rw [← hd, Client.panelAnswered, ← hpanel, ← hpeer, ← hpc, ← hanswer]
      by_cases hsome : d.answering.peerRemoteId.number?.isSome ∧ d.answering.pc.isSome
      · obtain ⟨n, hn⟩ := Option.isSome_iff_exists.mp hsome.1
        obtain ⟨pc, hpc⟩ := Option.isSome_iff_exists.mp hsome.2
        rw [bind_of_ret (signal_run_some _ _ hn hpc), hn, hpc, Option.isSome_some,
          Option.isSome_some, Bool.and_self, Bool.or_true]
        rfl
      · have hnone : d.answering.peerRemoteId.number? = none ∨ d.answering.pc = none := by
          rw [not_and_or, Option.not_isSome_iff_eq_none, Option.not_isSome_iff_eq_none] at hsome
          exact hsome
        have hfalse : (d.answering.peerRemoteId.number?.isSome && d.answering.pc.isSome) =
            false := by
          rwa [← Bool.not_eq_true, Bool.and_eq_true]
        rw [bind_of_throw (signal_run_none _ _ hnone), hfalse, Bool.or_false]
        rfl

theorem keepsPanel_resume {inv : Invocation} {settled : Settled}
    (h : ∀ sdp, settled = .resolved sdp → ¬(inv.fn = .answer ∧ inv.awaits.isLast)) :
    Keeps Client.panel (resume inv settled) := by
  rw [resume]
  cases settled with
  | rejected reason =>
      cases inv.fn with
      | call =>
          have hfail : Keeps Client.panel (orFail (raise (.rejected reason))) :=
            keepsPanel_orFail (keeps_raise _)
          cases inv.awaits <;> exact hfail
      | answer =>
          have hfail : Keeps Client.panel (raise (.rejected reason) : Js Unit) := keeps_raise _
          cases inv.awaits <;> exact hfail
  | resolved sdp =>
      have hnot := h sdp rfl
      cases hfn : inv.fn with
      | call =>
          cases hawaits : inv.awaits with
          | creation => exact keepsPanel_orFail (keepsPanel_await _ _ _)
          | localDescription number description =>
              exact Keeps.bind (.modify fun _ => rfl) fun _ =>
                keepsPanel_orFail (keepsPanel_signal _ _)
      | answer =>
          cases hawaits : inv.awaits with
          | creation => exact keepsPanel_await _ _ _
          | localDescription number description =>
              exact absurd ⟨hfn, by rw [hawaits]; rfl⟩ hnot

/-! ## Events -/

def Client.declares (c : Client) : Event → Bool
  | .timer i =>
      i < c.timers.length &&
        (c.socketClosed || Client.heartbeatMaxMissing ≤ c.heartbeatsMissed + 1)
  | _ => false

def Client.answers (c : Client) : Event → Bool
  | .settle i (.resolved _) =>
      c.suspended[i]?.any fun inv => inv.fn = .answer && inv.awaits.isLast
  | _ => false

def Client.shows (c : Client) : Event → Panel
  | .rowClick i =>
      match c.rows[i]? with
      | none => c.panel
      | some tr => (c.panel.select (.text tr.id)).enter .identified
  | .callClick => if c.callDisabled then c.panel else c.panelDialled
  | .hangupClick => if c.hangupDisabled then c.panel else c.panelHungUp
  | .message msg => if c.socketClosed then c.panel else c.panelTold msg
  | .connectionState state =>
      if state = "connected" then c.panel.enter .connected else c.panel
  | .settle i settled => if c.answers (.settle i settled) then c.panelAnswered else c.panel
  | .ended i =>
      match c.sources[i]? with
      | none => c.panel
      | some source => c.panelEnded source
  | .timer i => if c.declares (.timer i) then c.panel.disableButtons else c.panel
  | .answerClick | .controlsClick | .userMedia _ | .iceCandidate _ | .iceCandidateError _
  | .close _ => c.panel

theorem panel_click {disabled : Bool} {listener : Js Unit} {p : Panel}
    (hpanel : (finish (listener.run c)).panel = p) :
    (c.click disabled listener).panel = if disabled then c.panel else p := by
  rw [Client.click]
  split
  · rfl
  · rw [Client.panel_onControlsClick, hpanel]

theorem panel_lost (msgStr : String) : (c.lost msgStr).panel = c.panel.disableButtons := by
  have hclear : ∀ d : Client, d.clearHeartbeat.clearRemotesTable.panel = d.panel := fun _ => rfl
  rw [Client.lost, Client.panel_disableButtons, hclear, Client.panel_print]

theorem panel_heartbeat : c.heartbeat.panel =
    if c.socketClosed || Client.heartbeatMaxMissing ≤ c.heartbeatsMissed + 1 then
      c.panel.disableButtons
    else c.panel := by
  have hsend : ∀ (d : Client) (msg : Message), (d.send msg).panel = d.panel := fun _ _ => rfl
  have hmissed : ∀ n, { c with heartbeatsMissed := n }.panel = c.panel := fun _ => rfl
  rw [Client.heartbeat]
  cases hclosed : c.socketClosed with
  | true => exact panel_lost _
  | false =>
      dsimp only
      simp only [Bool.false_or, Bool.false_eq_true, if_false, decide_eq_true_eq]
      rw [hsend]
      split
      · rw [← hmissed (c.heartbeatsMissed + 1)]
        exact panel_lost _
      · exact hmissed (c.heartbeatsMissed + 1)

theorem panel_settle (i : Nat) (settled : Settled) :
    (c.after (.settle i settled)).panel =
      if c.answers (.settle i settled) then c.panelAnswered else c.panel := by
  cases hinv : c.suspended[i]? with
  | none =>
      have hnot : c.answers (.settle i settled) = false := by
        cases settled <;> simp [Client.answers, hinv]
      rw [Client.after, hinv, hnot]
      rfl
  | some inv =>
      rw [after_settle hinv]
      cases hanswers : c.answers (.settle i settled) with
      | true =>
          cases settled with
          | rejected reason => cases hanswers
          | resolved sdp =>
              simp only [Client.answers, hinv, Option.any_some, Bool.and_eq_true,
                decide_eq_true_eq] at hanswers
              exact panel_resume_answer sdp hanswers.1 hanswers.2
      | false =>
          refine (keepsPanel_resume fun sdp hsettled hlast => ?_).finish _
          rw [hsettled, Client.answers, hinv, Option.any_some, Bool.and_eq_false_iff,
            decide_eq_false_iff_not] at hanswers
          rcases hanswers with hfn | hawaits
          · exact hfn hlast.1
          · rw [hlast.2] at hawaits
            cases hawaits

/-- The panel does what `shows` says. -/
theorem panel_after (c : Client) (e : Event) : (c.after e).panel = c.shows e := by
  cases e with
  | rowClick i =>
      rw [Client.after, Client.shows]
      cases c.rows[i]? with
      | none => rfl
      | some tr => exact (Client.panel_onControlsClick _).trans (c.panel_onTableRowClickEvent tr)
  | callClick => exact panel_click panel_call
  | answerClick =>
      rw [Client.after, panel_click (keepsPanel_answer.finish c), ite_self]
      rfl
  | hangupClick => exact panel_click panel_hangup
  | controlsClick => exact c.panel_onControlsClick
  | message msg =>
      rw [Client.after, Client.shows]
      split
      · rfl
      · exact panel_onMessage msg
  | settle i settled => exact panel_settle i settled
  | userMedia granted =>
      rw [Client.after, Client.shows, Client.onUserMedia]
      split
      · rfl
      · dsimp only
        split <;> rfl
  | connectionState state =>
      rw [Client.after, Client.shows, Client.onConnectionStateChange]
      split
      · exact Client.panel_setCallState _ .connected
      · rfl
  | iceCandidate candidate =>
      have hkeeps : Keeps Client.panel (onIceCandidateEvent candidate) := by
        cases candidate with
        | none => exact keeps_pure _
        | some candidate =>
            exact keeps_get.bind fun _ => (keeps_ofExcept _).bind fun _ => .modify fun _ => rfl
      exact hkeeps.finish c
  | iceCandidateError text => rfl
  | ended i =>
      rw [Client.after, Client.shows]
      cases c.sources[i]? with
      | none => rfl
      | some source => exact c.panel_onEnded source
  | timer i =>
      rw [Client.after, Client.shows, Client.declares]
      by_cases hi : i < c.timers.length
      · rw [List.getElem?_eq_getElem hi, decide_eq_true hi, Bool.true_and]
        exact panel_heartbeat
      · rw [List.getElem?_eq_none (Nat.not_lt.mp hi), decide_eq_false hi, Bool.false_and]
        rfl
  | close wasClean =>
      simp only [Client.after, Client.shows, Client.onClose]
      split <;> rfl

end

end Mgws.Browser
