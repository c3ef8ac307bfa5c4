import Mgws.Browser.Pair
import Mgws.Proofs.Events
/-!
# The buttons of a page in a conversation of two

A page that knows of one other session can only select that one, has it as its peer,
and has the buttons enabled only when they have somebody to act on.
-/

namespace Mgws.Browser

open Lib Program

structure Seat where
  sessionID : Nat
  socketClosed : Bool
  rows : List Row
  selectedRow : Option Row
  remoteId : Id
  peerRemoteId : Id
  callDisabled : Bool
  answerDisabled : Bool
  suspended : List Invocation

namespace Client

def seat (c : Client) : Seat where
  sessionID := c.sessionID
  socketClosed := c.socketClosed
  rows := c.rows
  selectedRow := c.selectedRow
  remoteId := c.remoteId
  peerRemoteId := c.peerRemoteId
  callDisabled := c.callDisabled
  answerDisabled := c.answerDisabled
  suspended := c.suspended

variable (c : Client)

@[simp] theorem seat_play (tone : Tone) : (c.play tone).seat = c.seat := by
  cases tone <;> rfl

@[simp] theorem seat_stop (tone : Tone) : (c.stop tone).seat = c.seat := by
  rw [stop]
  cases c.sound tone <;> rfl

@[simp] theorem seat_setControlsVisible (visible : Bool) :
    (c.setControlsVisible visible).seat = c.seat := rfl

@[simp] theorem seat_disableCall (disable : Bool) :
    (c.disableCall disable).seat = { c.seat with callDisabled := disable } := rfl

@[simp] theorem seat_disableAnswer (disable : Bool) :
    (c.disableAnswer disable).seat = { c.seat with answerDisabled := disable } := rfl

@[simp] theorem seat_disableHangup (disable : Bool) :
    (c.disableHangup disable).seat = c.seat := rfl

@[simp] theorem seat_onControlsClick : c.onControlsClick.seat = c.seat := by
  rw [onControlsClick]
  split <;> rfl

theorem seat_onEnded (source : Source) : (c.onEnded source).seat = c.seat := by
  simp only [onEnded, abortTone]
  split
  · exact seat_stop _ source.tone
  · exact seat_play _ source.tone

theorem seat_announce (ringing calling connected : String) :
    (c.announce ringing calling connected).seat = c.seat := by
  simp only [announce]
  split <;> rfl

/-- Call is enabled when a session is selected and no call is on, Answer in a call that
rings. -/
theorem seat_updateCallStateUI (state : CallState) :
    (c.updateCallStateUI state).seat =
      { c.seat with
        callDisabled := !(state = .identified || state = .idle && c.remoteId.truthy)
        answerDisabled := state ≠ .ringing } := by
  cases state with
  | idle =>
      have hremote : (((c.setControlsVisible true).disableButtons.stop .remoteRing).stop
          .telephoneRing).remoteId = c.remoteId :=
        congrArg Seat.remoteId (by simp [disableButtons] :
          (((c.setControlsVisible true).disableButtons.stop .remoteRing).stop
            .telephoneRing).seat = { c.seat with callDisabled := true, answerDisabled := true })
      simp only [updateCallStateUI, hremote]
      cases c.remoteId.truthy <;> simp [disableButtons, showIdentified]
  | _ => simp [updateCallStateUI, showIdentified]

end Client

/-- The session is `me` and knows of no other one than `other`. -/
structure Seat.Fits (s : Seat) (me other : Nat) : Prop where
  sessionID : s.sessionID = me
  socketOpen : s.socketClosed = false
  rows : ∀ row ∈ s.rows, row.id = other
  selectedRow : ∀ row, s.selectedRow = some row → row.id = other
  remoteId : ∀ n, s.remoteId.number? = some n → n = other
  peerRemoteId : ∀ n, s.peerRemoteId.number? = some n → n = other
  callEnabled : s.callDisabled = false → s.remoteId.number?.isSome
  answerEnabled : s.answerDisabled = false → s.peerRemoteId.number?.isSome
  invocations : ∀ inv ∈ s.suspended, inv.fn = .answer → s.peerRemoteId.number?.isSome

def Seated (me other : Nat) (c : Client) : Prop := c.seat.Fits me other

def Client.HasPeer (c : Client) : Prop := c.peerRemoteId.number?.isSome

section

variable {me other : Nat} {c d : Client}

theorem Seated.congr (h : Seated me other c) (hseat : d.seat = c.seat) : Seated me other d := by
  rwa [Seated, hseat]

/-! ## Writes -/

theorem Seated.updateCallStateUI (h : Seated me other c) {state : CallState}
    (hselected : state = .identified → c.remoteId.number?.isSome)
    (hring : state = .ringing → c.HasPeer) : Seated me other (c.updateCallStateUI state) := by
  rw [Seated, Client.seat_updateCallStateUI]
  refine ⟨h.sessionID, h.socketOpen, h.rows, h.selectedRow, h.remoteId, h.peerRemoteId, ?_, ?_,
    h.invocations⟩
  · intro hcall
    simp only [Bool.not_eq_false', Bool.or_eq_true, decide_eq_true_eq, Bool.and_eq_true] at hcall
    rcases hcall with hstate | ⟨-, htruthy⟩
    · exact hselected hstate
    · exact number?_of_truthy htruthy
  · intro hanswer
    exact hring (by simpa using hanswer)

theorem Seated.setCallState (h : Seated me other c) {state : CallState}
    (hselected : state = .identified → c.remoteId.number?.isSome)
    (hring : state = .ringing → c.HasPeer) : Seated me other (c.setCallState state) := by
  have hstate : Seated me other { c with callState := state } := h.congr rfl
  exact hstate.updateCallStateUI hselected hring

theorem Seated.setState (h : Seated me other c) {state : CallState}
    (hselected : state ≠ .identified) (hring : state ≠ .ringing) :
    Seated me other (c.setCallState state) :=
  h.setCallState (fun heq => absurd heq hselected) fun heq => absurd heq hring

theorem Seated.resetCallState (h : Seated me other c) : Seated me other c.resetCallState :=
  h.updateCallStateUI (fun heq => absurd heq (by decide)) fun heq => absurd heq (by decide)

theorem Seated.updateRemoteId (h : Seated me other c) {id : Id} (hid : id.number? = some other) :
    Seated me other (c.updateRemoteId id) := by
  refine ⟨h.sessionID, h.socketOpen, h.rows, h.selectedRow, fun n hn => ?_, h.peerRemoteId,
    fun _ => ?_, h.answerEnabled, h.invocations⟩
  · exact Option.some.inj (hn.symm.trans hid)
  · show id.number?.isSome
    rw [hid]
    rfl

theorem Seated.setPeerRemoteId (h : Seated me other c) {id : Id} (hid : id.number? = some other) :
    Seated me other (c.setPeerRemoteId id) := by
  have hsome : id.number?.isSome := by rw [hid]; rfl
  refine ⟨h.sessionID, h.socketOpen, h.rows, h.selectedRow, h.remoteId, fun n hn => ?_,
    h.callEnabled, fun _ => hsome, fun _ _ _ => hsome⟩
  exact Option.some.inj (hn.symm.trans hid)

theorem Seated.suspend (h : Seated me other c) {inv : Invocation}
    (hinv : inv.fn = .answer → c.HasPeer) : Seated me other (c.suspend inv) := by
  refine ⟨h.sessionID, h.socketOpen, h.rows, h.selectedRow, h.remoteId, h.peerRemoteId,
    h.callEnabled, h.answerEnabled, fun inv' hmem hfn => ?_⟩
  rcases List.mem_append.mp hmem with hold | hnew
  · exact h.invocations inv' hold hfn
  · rw [List.mem_singleton.mp hnew] at hfn
    exact hinv hfn

theorem Seated.eraseIdx (h : Seated me other c) (i : Nat) :
    Seated me other { c with suspended := c.suspended.eraseIdx i } :=
  ⟨h.sessionID, h.socketOpen, h.rows, h.selectedRow, h.remoteId, h.peerRemoteId, h.callEnabled,
    h.answerEnabled, fun inv hmem => h.invocations inv (List.mem_of_mem_eraseIdx hmem)⟩

theorem Seated.clearRemotesTable (h : Seated me other c) :
    Seated me other c.clearRemotesTable :=
  ⟨h.sessionID, h.socketOpen, by simp [Client.seat, Client.clearRemotesTable], h.selectedRow,
    h.remoteId, h.peerRemoteId, h.callEnabled, h.answerEnabled, h.invocations⟩

theorem Seated.disableAnswer (h : Seated me other c) :
    Seated me other (c.disableAnswer true) :=
  ⟨h.sessionID, h.socketOpen, h.rows, h.selectedRow, h.remoteId, h.peerRemoteId, h.callEnabled,
    fun henabled => absurd henabled Bool.true_eq_false.mp, h.invocations⟩

theorem Seated.disableButtons (h : Seated me other c) : Seated me other c.disableButtons :=
  ⟨h.sessionID, h.socketOpen, h.rows, h.selectedRow, h.remoteId, h.peerRemoteId,
    fun henabled => absurd henabled Bool.true_eq_false.mp,
    fun henabled => absurd henabled Bool.true_eq_false.mp, h.invocations⟩

theorem Seated.replacePc (h : Seated me other c) : Seated me other c.replacePc := by
  have hidle : ∀ {d : Client}, Seated me other d → Seated me other (d.setCallState .idle) :=
    fun hd => hd.setState (by decide) (by decide)
  rw [Client.replacePc]
  cases hpc : c.pc with
  | none => exact hidle h
  | some pc =>
      have hclosed : Seated me other (c.closePc pc) := h.congr rfl
      have hmade : Seated me other (c.closePc pc).makePeerConnection :=
        hclosed.resetCallState.congr rfl
      have hasked : Seated me other (c.closePc pc).makePeerConnection.initLocalStream :=
        hmade.congr rfl
      exact hidle hasked.resetCallState

theorem Seated.highlight (h : Seated me other c) {row : Row} (hrow : row.id = other) :
    Seated me other (c.highlight row) :=
  h.updateRemoteId (congrArg some hrow)

theorem Seated.highlightOnById (h : Seated me other c) (id : Id) :
    Seated me other (c.highlightOnById id) := by
  have hfold : ∀ (rows : List Row) (d : Client), (∀ row ∈ rows, row.id = other) →
      Seated me other d → Seated me other
        (rows.foldl (fun c row => if id.number? = some row.id then c.highlight row else c) d) := by
    intro rows
    induction rows with
    | nil => exact fun _ _ hd => hd
    | cons row rows ih =>
        intro d hrows hd
        rw [List.foldl_cons]
        refine ih _ (fun r hr => hrows r (by simp [hr])) ?_
        split
        · exact hd.highlight (hrows row (by simp))
        · exact hd
  exact hfold c.rows c h.rows h

theorem Seated.lost (h : Seated me other c) (msgStr : String) :
    Seated me other (c.lost msgStr) := by
  have hcleared : Seated me other (c.print msgStr).clearHeartbeat := h.congr rfl
  exact hcleared.clearRemotesTable.disableButtons

theorem Seated.heartbeat (h : Seated me other c) : Seated me other c.heartbeat := by
  rw [Client.heartbeat]
  split
  · exact h.lost _
  · have hmissed : Seated me other { c with heartbeatsMissed := c.heartbeatsMissed + 1 } :=
      h.congr rfl
    have hsend : ∀ {d : Client} (msg : Message), Seated me other d → Seated me other (d.send msg) :=
      fun _ hd => hd.congr rfl
    dsimp only
    apply hsend
    split
    · exact hmissed.lost _
    · exact hmissed

theorem Seated.onTableRowClickEvent (h : Seated me other c) {tr : Row} (htr : tr ∈ c.rows) :
    Seated me other (c.onTableRowClickEvent tr) := by
  have hother : tr.id = other := h.rows tr htr
  have hselected {d : Client} (hd : Seated me other d) :
      Seated me other (({ d with selectedRow := some tr }.highlight tr).setCallState
        .identified) := by
    have hrow : Seated me other { d with selectedRow := some tr } :=
      ⟨hd.sessionID, hd.socketOpen, hd.rows, fun row hrow => Option.some.inj hrow ▸ hother,
        hd.remoteId, hd.peerRemoteId, hd.callEnabled, hd.answerEnabled, hd.invocations⟩
    exact (hrow.highlight hother).setCallState (fun _ => rfl) fun heq => absurd heq (by decide)
  rw [Client.onTableRowClickEvent]
  cases hold : c.selectedRow with
  | none => exact hselected h
  | some row => exact hselected (h.highlight (h.selectedRow row hold))

theorem Seated.onUserMedia (h : Seated me other c) (granted : Bool) :
    Seated me other (c.onUserMedia granted) := by
  rw [Client.onUserMedia]
  split <;> exact h.congr rfl

theorem Seated.onConnectionStateChange (h : Seated me other c) (state : String) :
    Seated me other (c.onConnectionStateChange state) := by
  have hprinted : ∀ what, Seated me other (c.print what) := fun _ => h.congr rfl
  rw [Client.onConnectionStateChange]
  split
  · exact (hprinted _).setState (by decide) (by decide)
  · exact h

/-! ## Handlers -/

theorem preserves_of_keepsSeat {α : Type} {x : Js α} (h : Keeps Client.seat x) :
    Preserves (Seated me other) x :=
  h.preserves fun s => s.Fits me other

theorem preserves_hasPeer {α : Type} {x : Js α} (h : Keeps Client.seat x) :
    Preserves (fun c => Seated me other c ∧ c.HasPeer) x :=
  h.preserves fun s => s.Fits me other ∧ s.peerRemoteId.number?.isSome

theorem keepsSeat_addTracks : Keeps Client.seat addTracks :=
  keeps_addTracks fun _ _ _ => rfl

theorem keepsSeat_setRemoteDescription (session : Option Description) :
    Keeps Client.seat (setRemoteDescription session) :=
  keeps_setRemoteDescription (fun _ _ _ => rfl) session

theorem keepsSeat_signal (started : Id)
    (msg : Name → String → Nat → Option Description → Message) :
    Keeps Client.seat (signal started msg) :=
  keeps_get.bind fun _ => (keeps_ofExcept _).bind fun _ => keeps_getPc.bind fun _ =>
    .modify fun _ => rfl

theorem keepsSeat_onIceCandidateEvent (candidate : Option String) :
    Keeps Client.seat (onIceCandidateEvent candidate) := by
  cases candidate with
  | none => exact keeps_pure ()
  | some candidate =>
      exact keeps_get.bind fun _ => (keeps_ofExcept _).bind fun _ => .modify fun _ => rfl

theorem preserves_orFail {x : Js Unit} (h : Preserves (Seated me other) x) :
    Preserves (Seated me other) (orFail x) :=
  h.tryCatch fun _ => .modify fun _ hc => hc.congr rfl

/-- Nothing is asked of a page at whose end `Call` awaits. -/
theorem preserves_await_call (started : Id) (awaits : PeerConnection → Awaited) :
    Preserves (Seated me other) (await .call started awaits) :=
  (preserves_of_keepsSeat keeps_getPc).bind fun _ => .modify fun _ hc =>
    hc.suspend fun hfn => by cases hfn

theorem preserves_await_answer (started : Id) (awaits : PeerConnection → Awaited) :
    Preserves (fun c => Seated me other c ∧ c.HasPeer) (await .answer started awaits) :=
  (preserves_hasPeer keeps_getPc).bind fun _ =>
    .modify fun _ hc => ⟨hc.1.suspend fun _ => hc.2, hc.2⟩

theorem preserves_endCall : Preserves (Seated me other) endCall := by
  have hstop : Keeps Client.seat stopLocalStream := by
    refine keeps_get.bind fun c => ?_
    cases c.localStream with
    | none => exact keeps_raise _
    | some stream => exact keeps_pure ()
  exact (preserves_of_keepsSeat hstop).bind fun _ => .modify fun _ hc => hc.replacePc

theorem preserves_hangup : Preserves (Seated me other) hangup := by
  have hsend : Keeps Client.seat (do
      let c ← get
      let targetId ← ofExcept c.peerRemoteId.toString
      modify (·.send (.hangup c.userName targetId))) :=
    keeps_get.bind fun _ => (keeps_ofExcept _).bind fun _ => .modify fun _ => rfl
  exact (Preserves.modify fun c hc => hc.congr (c.seat_announce _ _ _)).bind fun _ =>
    preserves_endCall.bind fun _ => preserves_of_keepsSeat hsend

theorem preserves_onHangupMessage : Preserves (Seated me other) onHangupMessage :=
  (Preserves.modify fun c hc => hc.congr (c.seat_announce _ _ _)).bind fun _ => preserves_endCall

/-- The call button is enabled only when the other session is selected. -/
theorem Seated.number?_remoteId (h : Seated me other c) (henabled : c.callDisabled = false) :
    c.remoteId.number? = some other := by
  obtain ⟨n, hn⟩ := Option.isSome_iff_exists.mp (h.callEnabled henabled)
  obtain rfl : n = other := h.remoteId n hn
  exact hn

theorem Seated.number?_peerRemoteId (h : Seated me other c) (hpeer : c.HasPeer) :
    c.peerRemoteId.number? = some other := by
  obtain ⟨n, hn⟩ := Option.isSome_iff_exists.mp hpeer
  obtain rfl : n = other := h.peerRemoteId n hn
  exact hn

theorem Seated.dialled (h : Seated me other c) (henabled : c.callDisabled = false) :
    Seated me other c.dialled := by
  have hid := h.number?_remoteId henabled
  have hcalling : Seated me other ((c.setPeerRemoteId c.remoteId).setCallState .calling) :=
    (h.setPeerRemoteId hid).setState (by decide) (by decide)
  have hremote : ((c.setPeerRemoteId c.remoteId).setCallState .calling).remoteId = c.remoteId :=
    congrArg Seat.remoteId (Client.seat_updateCallStateUI
      { c.setPeerRemoteId c.remoteId with callState := .calling } .calling)
  have hselected := hcalling.updateRemoteId (hremote ▸ hid)
  exact hselected.congr rfl

theorem Seated.call (h : Seated me other c) (henabled : c.callDisabled = false) :
    Seated me other (finish (Browser.call.run c)) := by
  have hadd : Keeps Client.seat (tryCatch addTracks fun err =>
      modify (·.print ("caught error: " ++ err.toText))) :=
    keepsSeat_addTracks.tryCatch fun _ => .modify fun _ => rfl
  rw [call_run]
  exact finish_of_preserves ((preserves_of_keepsSeat hadd).bind fun _ =>
    preserves_orFail (preserves_await_call _ _)) (h.dialled henabled)

theorem Seated.answer (h : Seated me other c) (henabled : c.answerDisabled = false) :
    Seated me other (finish (Browser.answer.run c)) := by
  have hanswer : Preserves (fun c => Seated me other c ∧ c.HasPeer) Browser.answer :=
    (preserves_hasPeer keepsSeat_addTracks).bind fun _ =>
      (preserves_hasPeer keeps_get).bind fun _ => preserves_await_answer _ _
  exact (finish_of_preserves hanswer ⟨h, h.answerEnabled henabled⟩).1

theorem Seated.answering (h : Seated me other c) (hpeer : c.HasPeer) :
    Seated me other c.answering := by
  have hselected : Seated me other (c.updateRemoteId c.peerRemoteId) :=
    h.updateRemoteId (h.number?_peerRemoteId hpeer)
  exact (hselected.highlightOnById c.peerRemoteId).congr rfl

theorem Seated.resume (h : Seated me other c) {inv : Invocation}
    (hinv : inv.fn = .answer → c.HasPeer) (settled : Settled) :
    Seated me other (finish ((Browser.resume inv settled).run c)) := by
  rw [Browser.resume]
  cases hfn : inv.fn with
  | call =>
      refine finish_of_preserves ?_ h
      cases settled with
      | rejected reason =>
          have hfail : Preserves (Seated me other) (orFail (raise (.rejected reason))) :=
            preserves_orFail (.raise _)
          cases inv.awaits <;> exact hfail
      | resolved sdp =>
          cases inv.awaits with
          | creation => exact preserves_orFail (preserves_await_call _ _)
          | localDescription number description =>
              exact (Preserves.modify fun _ hc => hc.congr rfl).bind fun _ =>
                preserves_orFail (preserves_of_keepsSeat (keepsSeat_signal _ _))
  | answer =>
      have hpeer := hinv hfn
      cases settled with
      | rejected reason => cases inv.awaits <;> exact h
      | resolved sdp =>
          cases inv.awaits with
          | creation => exact (finish_of_preserves (preserves_await_answer _ _) ⟨h, hpeer⟩).1
          | localDescription number description =>
              have hdescribed : Seated me other (c.describe number description) := h.congr rfl
              have hsend : Preserves (Seated me other) (do
                  signal inv.started .answer
                  modify (·.disableAnswer true)) :=
                (preserves_of_keepsSeat (keepsSeat_signal _ _)).bind fun _ =>
                  .modify fun _ hc => hc.disableAnswer
              simp only [resumeAnswer_run]
              exact finish_of_preserves hsend (hdescribed.answering hpeer)

/-! ## Events -/

theorem Seated.onControlsClick (h : Seated me other c) : Seated me other c.onControlsClick :=
  h.congr c.seat_onControlsClick

theorem Seated.click (h : Seated me other c) {disabled : Bool} {listener : Js Unit}
    (hlistener : disabled = false → Seated me other (finish (listener.run c))) :
    Seated me other (c.click disabled listener) := by
  cases disabled with
  | true => exact h
  | false => exact (hlistener rfl).onControlsClick

theorem Seated.after (h : Seated me other c) {e : Event} (he : e.isLocal) :
    Seated me other (c.after e) := by
  cases e with
  | rowClick i =>
      cases htr : c.rows[i]? with
      | none => simpa only [Client.after, htr] using h
      | some tr =>
          rw [Client.after, htr]
          exact (h.onTableRowClickEvent (List.mem_of_getElem? htr)).onControlsClick
  | callClick => exact h.click h.call
  | answerClick => exact h.click h.answer
  | hangupClick => exact h.click fun _ => finish_of_preserves preserves_hangup h
  | controlsClick => exact h.onControlsClick
  | message => cases he
  | settle i settled =>
      cases hinv : c.suspended[i]? with
      | none => simpa only [Client.after, hinv] using h
      | some inv =>
          rw [after_settle hinv]
          exact (h.eraseIdx i).resume (h.invocations inv (List.mem_of_getElem? hinv)) settled
  | userMedia granted =>
      simp only [Client.after]
      split
      · exact h
      · exact h.onUserMedia granted
  | connectionState state => exact h.onConnectionStateChange state
  | iceCandidate candidate =>
      exact finish_of_preserves
        (preserves_of_keepsSeat (keepsSeat_onIceCandidateEvent candidate)) h
  | iceCandidateError text => exact h.congr rfl
  | ended i =>
      simp only [Client.after]
      split
      · exact h
      · exact h.congr (c.seat_onEnded _)
  | timer i =>
      simp only [Client.after]
      split
      · exact h
      · exact h.heartbeat
  | close => cases he

def Message.From (sender : Nat) : Message → Prop
  | sessionID _ | sessionsChanged _ => False
  | call _ _ sessionId _ => sessionId = sender
  | _ => True

theorem Seated.onCallMessage (h : Seated me other c) (userName : Name)
    (session : Option Description) :
    Seated me other (finish ((Browser.onCallMessage userName other session).run c)) := by
  have hring : Seated me other ((c.setPeerRemoteId (.num other)).setCallState .ringing) :=
    (h.setPeerRemoteId rfl).setCallState (fun heq => absurd heq (by decide)) fun _ => rfl
  have hrung : Seated me other (c.rung userName other) := hring.congr rfl
  show Seated me other (finish ((setRemoteDescription session).run (c.rung userName other)))
  exact finish_of_preserves (preserves_of_keepsSeat (keepsSeat_setRemoteDescription session)) hrung

theorem Seated.message (h : Seated me other c) {msg : Message} (hmsg : msg.From other) :
    Seated me other (c.after (.message msg)) := by
  have hopen : c.socketClosed = false := h.socketOpen
  rw [Client.after, hopen, if_neg Bool.false_ne_true]
  cases msg with
  | sessionID | sessionsChanged => exact hmsg.elim
  | call userName targetId sessionId session =>
      obtain rfl : sessionId = other := hmsg
      exact h.onCallMessage userName session
  | answer userName targetId sessionId session =>
      exact finish_of_preserves
        (preserves_of_keepsSeat (keepsSeat_setRemoteDescription session)) h
  | hangup userName targetId => exact finish_of_preserves preserves_onHangupMessage h
  | registerSession | localIdEvent | localIdChanged | iceCandidate | heartbeat | other =>
      exact h.congr rfl

end

end Mgws.Browser
