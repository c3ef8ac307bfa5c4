import Mgws.Proofs.Prepared
import Mgws.Proofs.ThirdParty
/-!
# The buttons and the selection

What the buttons of a page promise: Hangup is there in a call, Answer while it rings,
and Call when a session is selected and no call is on.
-/

namespace Mgws.Browser

open Lib Program

/-! ## Buttons and call state -/

/-- Hangup is enabled exactly in a call, Answer at most when it rings, and Call at most when no
call is on and a session is selected. -/
structure Panel.Agrees (p : Panel) : Prop where
  hangup : p.hangupDisabled = false ↔
    p.callState = .calling ∨ p.callState = .ringing ∨ p.callState = .connected
  answer : p.answerDisabled = false → p.callState = .ringing
  call : p.callDisabled = false →
    (p.callState = .idle ∨ p.callState = .identified) ∧ p.remoteId.number?.isSome

def Buttons (c : Client) : Prop := c.panel.Agrees

/-- The event enables Call in a call, or leaves it enabled with nobody to call: Call is clicked,
`Answer` goes on in a call, or the selected session leaves and there is no stream to stop. -/
def Client.Reenables (c : Client) (e : Event) : Prop :=
  e = .callClick ∧ c.callDisabled = false ∨ c.answers e ∧ c.callState.active ∨ c.Deselects e

theorem CallState.active_iff {state : CallState} :
    state.active ↔ state = .calling ∨ state = .ringing ∨ state = .connected := by
  cases state <;> decide

theorem CallState.not_active_iff {state : CallState} :
    ¬state.active ↔ state = .idle ∨ state = .identified := by
  cases state <;> decide

section

variable {c : Client} {e : Event}

theorem not_reenables (hclick : e ≠ .callClick) (hanswers : c.answers e = false)
    (hdeselects : ¬c.Deselects e) : ¬c.Reenables e := by
  rintro (⟨rfl, -⟩ | ⟨hyes, -⟩ | hdeselects')
  · exact hclick rfl
  · rw [hanswers] at hyes
    cases hyes
  · exact hdeselects hdeselects'

theorem Panel.Agrees.enter {p : Panel} {state : CallState}
    (hremote : state = .identified → p.remoteId.number?.isSome) : (p.enter state).Agrees := by
  constructor
  · rw [Panel.enter_hangupDisabled, Panel.enter_callState, Bool.not_eq_false']
    exact CallState.active_iff
  · intro henabled
    rw [Panel.enter_answerDisabled, decide_eq_false_iff_not, not_not] at henabled
    rw [Panel.enter_callState, henabled]
  · intro henabled
    rw [Panel.enter_callDisabled, Bool.not_eq_false', Bool.or_eq_true, Bool.and_eq_true,
      decide_eq_true_eq, decide_eq_true_eq] at henabled
    rw [Panel.enter_callState, Panel.enter_remoteId]
    rcases henabled with hidentified | ⟨hidle, htruthy⟩
    · exact ⟨.inr hidentified, hremote hidentified⟩
    · exact ⟨.inl hidle, number?_of_truthy htruthy⟩

theorem Panel.Agrees.leave {p : Panel} {state : CallState} (h : state ≠ .identified) :
    (p.enter state).Agrees :=
  .enter fun hstate => absurd hstate h

theorem Panel.Agrees.panelHungUp (h : c.panel.Agrees) : c.panelHungUp.Agrees := by
  rw [Client.panelHungUp]
  split
  · exact .leave (by decide)
  · exact h

/-- A call that was started can be started again. -/
theorem not_agrees_panelDialled : ¬c.panelDialled.Agrees := by
  intro h
  obtain ⟨hstate, -⟩ := h.call rfl
  rcases hstate with hidle | hidentified
  · cases hidle
  · cases hidentified

theorem agrees_panelListed_iff (h : c.panel.Agrees) {sessions : List Entry} :
    (c.panelListed sessions).Agrees ↔
      ¬(c.callDisabled = false ∧ c.Vanishes sessions ∧ c.localStream = none) := by
  rw [Client.panelListed]
  split
  · next hgone =>
      split
      · next hstream =>
          refine iff_of_true (.leave (by decide)) ?_
          rintro ⟨-, -, hnone⟩
          rw [hnone] at hstream
          cases hstream
      · next hstream =>
          constructor
          · rintro hagrees ⟨henabled, -, -⟩
            obtain ⟨-, hremote⟩ := hagrees.call henabled
            cases hremote
          · intro hnot
            refine ⟨h.hangup, h.answer, fun henabled => ?_⟩
            exact absurd ⟨henabled, hgone, Option.not_isSome_iff_eq_none.mp hstream⟩ hnot
  · next hgone => exact iff_of_true h fun hdeselects => hgone hdeselects.2.1

theorem agrees_panelAnswered_iff (h : c.panel.Agrees) (hpeer : c.peerRemoteId.number?.isSome) :
    c.panelAnswered.Agrees ↔ ¬c.callState.active := by
  rw [CallState.not_active_iff]
  constructor
  · exact fun hagrees => (hagrees.call rfl).1
  · intro hstate
    refine ⟨h.hangup, fun henabled => h.answer (Bool.or_eq_false_iff.mp henabled).1, fun _ => ?_⟩
    refine ⟨hstate, ?_⟩
    show (c.highlighted c.peerRemoteId).number?.isSome
    rwa [Client.number?_highlighted]

theorem agrees_iff_of_quiet (hagrees : (c.shows e).Agrees) (hclick : e ≠ .callClick)
    (hanswers : c.answers e = false) (hdeselects : ¬c.Deselects e) :
    (c.shows e).Agrees ↔ ¬c.Reenables e :=
  iff_of_true hagrees (not_reenables hclick hanswers hdeselects)

/-- Of the messages only a directory can enable Call out of turn. -/
theorem agrees_shows_message_iff (h : c.panel.Agrees) (msg : Message) :
    (c.shows (.message msg)).Agrees ↔ ¬c.Reenables (.message msg) := by
  cases hclosed : c.socketClosed with
  | true =>
      refine agrees_iff_of_quiet ?_ (by simp) rfl ?_
      · rwa [Client.shows, if_pos hclosed]
      · cases msg with
        | sessionsChanged sessions =>
            rintro ⟨hopen, -⟩
            rw [hclosed] at hopen
            cases hopen
        | _ => exact id
  | false =>
      have hshows : c.shows (.message msg) = c.panelTold msg := by
        rw [Client.shows, hclosed]
        rfl
      cases msg with
      | sessionsChanged sessions =>
          rw [hshows]
          refine (agrees_panelListed_iff h).trans (not_congr ?_)
          constructor
          · exact fun hdeselects => .inr (.inr ⟨hclosed, hdeselects⟩)
          · rintro (⟨hclick, -⟩ | ⟨hanswers, -⟩ | ⟨-, hdeselects⟩)
            · cases hclick
            · cases hanswers
            · exact hdeselects
      | call userName targetId sessionId session =>
          refine agrees_iff_of_quiet ?_ (by simp) rfl id
          rw [hshows, Client.panelTold, Client.panelRung]
          exact .leave (by decide)
      | hangup =>
          refine agrees_iff_of_quiet ?_ (by simp) rfl id
          rw [hshows]
          exact h.panelHungUp
      | _ =>
          refine agrees_iff_of_quiet ?_ (by simp) rfl id
          rw [hshows]
          exact h

theorem agrees_shows_settle_iff (hprepared : Prepared c) (h : c.panel.Agrees) (i : Nat)
    (settled : Settled) :
    (c.shows (.settle i settled)).Agrees ↔ ¬c.Reenables (.settle i settled) := by
  rw [Client.shows]
  cases hanswers : c.answers (.settle i settled) with
  | true =>
      rw [if_pos rfl, agrees_panelAnswered_iff h (hprepared.answers hanswers)]
      refine not_congr ⟨fun hactive => .inr (.inl ⟨hanswers, hactive⟩), ?_⟩
      rintro (⟨hclick, -⟩ | ⟨-, hactive⟩ | hdeselects)
      · cases hclick
      · exact hactive
      · exact hdeselects.elim
  | false => exact iff_of_true h (not_reenables (by simp) hanswers id)

/-- An event leaves the buttons in agreement exactly when it does not enable Call out of
turn. -/
theorem agrees_shows_iff (hprepared : Prepared c) (h : c.panel.Agrees)
    (hdeclares : c.declares e = false) : (c.shows e).Agrees ↔ ¬c.Reenables e := by
  cases e with
  | rowClick i =>
      refine agrees_iff_of_quiet ?_ (by simp) rfl id
      rw [Client.shows]
      cases c.rows[i]? with
      | none => exact h
      | some tr => exact .enter fun _ => rfl
  | callClick =>
      rw [Client.shows, Client.Reenables]
      cases hdisabled : c.callDisabled with
      | true =>
          refine iff_of_true h ?_
          rintro (⟨-, henabled⟩ | ⟨hanswers, -⟩ | hdeselects)
          · cases henabled
          · cases hanswers
          · exact hdeselects
      | false => exact iff_of_false not_agrees_panelDialled (not_not.mpr (.inl ⟨rfl, rfl⟩))
  | hangupClick =>
      refine agrees_iff_of_quiet ?_ (by simp) rfl id
      rw [Client.shows]
      split
      · exact h
      · exact h.panelHungUp
  | message msg => exact agrees_shows_message_iff h msg
  | settle i settled => exact agrees_shows_settle_iff hprepared h i settled
  | connectionState state =>
      refine agrees_iff_of_quiet ?_ (by simp) rfl id
      rw [Client.shows]
      split
      · exact .leave (by decide)
      · exact h
  | ended i =>
      refine agrees_iff_of_quiet ?_ (by simp) rfl id
      rw [Client.shows]
      cases c.sources[i]? with
      | none => exact h
      | some source =>
          simp only [Client.panelEnded]
          split <;> exact ⟨h.hangup, h.answer, h.call⟩
  | timer i =>
      refine agrees_iff_of_quiet ?_ (by simp) rfl id
      rwa [Client.shows, hdeclares]
  | answerClick | controlsClick | userMedia | iceCandidate | iceCandidateError | close =>
      exact agrees_iff_of_quiet h (by simp) rfl id

theorem buttons_loaded (storedName : Name) (host : String) : Buttons (loaded storedName host) := by
  refine ⟨iff_of_false ?_ ?_, ?_, ?_⟩
  · intro henabled
    cases henabled
  · rintro (hstate | hstate | hstate) <;> cases hstate
  · intro henabled
    cases henabled
  · intro henabled
    cases henabled

end

/-- As long as the signaling server is not given up, the buttons agree with the call state in
exactly the runs in which Call is not enabled out of turn. -/
theorem always_buttons_iff (storedName : Name) (host : String) (es : List Event)
    (hserver : Transition.Meets step (fun c e => c.declares e = false)
      (loaded storedName host) es) :
    Transition.Always step Buttons (loaded storedName host) es ↔
      Transition.Meets step (fun c e => ¬c.Reenables e) (loaded storedName host) es := by
  refine Transition.Always.iff_meets (prepared_loaded storedName host)
    (buttons_loaded storedName host) ?_ ?_ hserver
  · intro c e c' hprepared _ hreenables hstep
    cases hstep
    exact hprepared.after fun hdeselects => hreenables (.inr (.inr hdeselects))
  · intro c e c' hprepared hbuttons hdeclares hstep
    cases hstep
    rw [Buttons, panel_after]
    exact agrees_shows_iff hprepared hbuttons hdeclares

theorem always_buttons_selecting :
    Transition.Always step Buttons (loaded .null "") [.message (.sessionID 2),
      .message (.sessionsChanged [⟨2, "A"⟩, ⟨3, "B"⟩]), .rowClick 0] := by
  refine (always_buttons_iff _ _ _ (.of_forall ?_)).mpr ?_
  · intro c e he
    simp only [List.mem_cons, List.not_mem_nil, or_false] at he
    rcases he with rfl | rfl | rfl <;> rfl
  · refine meets_cons.mpr ⟨not_reenables (by simp) rfl id, meets_cons.mpr ⟨?_, ?_⟩⟩
    · refine not_reenables (by simp) rfl ?_
      rintro ⟨-, -, ⟨hcall, -⟩, -⟩
      exact hcall rfl
    · exact meets_cons.mpr ⟨not_reenables (by simp) rfl id, trivial⟩

/-- A page that is Calling can call once more. -/
theorem not_buttons_of_call :
    ¬∀ (storedName : Name) (host : String) (es : List Event),
      Transition.Meets step (fun c e => c.declares e = false) (loaded storedName host) es →
      Transition.Always step Buttons (loaded storedName host) es := by
  intro hall
  have hrun : ∃ c, Transition.run step (loaded .null "") (joined ++ [.rowClick 0, .callClick]) =
      .ok c ∧ c.callState = .calling ∧ c.callDisabled = false :=
    ⟨_, rfl, rfl, rfl⟩
  obtain ⟨c, hrun, hcalling, henabled⟩ := hrun
  have hbuttons : Buttons c := by
    refine (hall _ _ _ (.of_forall ?_)).last hrun
    intro c e he
    simp only [joined, List.cons_append, List.nil_append, List.mem_cons, List.not_mem_nil,
      or_false] at he
    rcases he with rfl | rfl | rfl | rfl | rfl <;> rfl
  obtain ⟨hstate, -⟩ := hbuttons.call henabled
  rw [show c.panel.callState = .calling from hcalling] at hstate
  rcases hstate with hidle | hidentified
  · cases hidle
  · cases hidentified

/-! ## The selection -/

/-- There is a local stream when a directory takes the selected session away in a call or from
Identified. -/
def MediaAvailable (c : Client) (e : Event) : Prop :=
  ∀ sessions, e = .message (.sessionsChanged sessions) → c.Vanishes sessions →
    c.localStream.isSome

/-- Once a directory has been processed, the selection is unset or in it, and Call calls a session
that is in it. -/
def SelectsListed (c : Client) (e : Event) : Prop :=
  ∀ sessions, e = .message (.sessionsChanged sessions) → c.socketClosed = false →
    ((c.after e).remoteId.number? = none ∨ Lists sessions (c.after e).remoteId) ∧
      ((c.after e).callDisabled = false → Lists sessions (c.after e).remoteId)

/-- The selection is unset or in the directory when it is processed in Idle. -/
def ListedInIdle (c : Client) (e : Event) : Prop :=
  ∀ sessions, e = .message (.sessionsChanged sessions) → c.socketClosed = false →
    c.callState = .idle → c.remoteId.number? = none ∨ Lists sessions c.remoteId

section

variable {c : Client} {sessions : List Entry}

theorem lists_of_not_vanishes (hstate : c.callState ≠ .idle) (h : ¬c.Vanishes sessions) :
    Lists sessions c.remoteId := by
  by_contra hnot
  exact h ⟨hstate, fun session hmem hid => hnot ⟨session, hmem, hid⟩⟩

theorem Prepared.lists_of_enabled (h : Prepared c)
    (hlisted : c.remoteId.number? = none ∨ Lists sessions c.remoteId)
    (henabled : c.callDisabled = false) : Lists sessions c.remoteId := by
  rcases hlisted with hnone | hlists
  · have hremote := h.call henabled
    rw [hnone] at hremote
    cases hremote
  · exact hlists

theorem selectsListed_iff (h : Prepared c) {e : Event} (hmedia : MediaAvailable c e) :
    SelectsListed c e ↔ ListedInIdle c e := by
  refine forall_congr' fun sessions => forall_congr' fun he => forall_congr' fun hopen => ?_
  subst he
  have hpanel : (c.after (.message (.sessionsChanged sessions))).panel =
      c.panelListed sessions := by
    rw [panel_after, Client.shows, hopen]
    rfl
  have hremote := congrArg Panel.remoteId hpanel
  have hdisabled := congrArg Panel.callDisabled hpanel
  rw [show (c.after (.message (.sessionsChanged sessions))).remoteId = _ from hremote,
    show (c.after (.message (.sessionsChanged sessions))).callDisabled = _ from hdisabled,
    Client.panelListed]
  split
  · next hgone =>
      -- The selection is dropped, and Call is disabled with it.
      rw [if_pos (hmedia sessions rfl hgone)]
      refine iff_of_true ⟨.inl rfl, fun henabled => ?_⟩ fun hidle => absurd hidle hgone.1
      cases henabled
  · next hgone =>
      constructor
      · exact fun hlisted _ => hlisted.1
      · intro hidle
        have hlisted : c.remoteId.number? = none ∨ Lists sessions c.remoteId := by
          by_cases hstate : c.callState = .idle
          · exact hidle hstate
          · exact .inr (lists_of_not_vanishes hstate hgone)
        exact ⟨hlisted, h.lists_of_enabled hlisted⟩

end

/-- With local media, the selection is in the directory after each one in exactly the runs in
which it is so whenever one arrives in Idle. -/
theorem meets_selectsListed_iff (storedName : Name) (host : String) (es : List Event)
    (hmedia : Transition.Meets step MediaAvailable (loaded storedName host) es) :
    Transition.Meets step SelectsListed (loaded storedName host) es ↔
      Transition.Meets step ListedInIdle (loaded storedName host) es := by
  refine Transition.Meets.congr_of_invariant (prepared_loaded storedName host) ?_ ?_ hmedia
  · intro c e c' hprepared hmedia hstep
    cases hstep
    refine hprepared.after ?_
    cases e with
    | message msg =>
        cases msg with
        | sessionsChanged sessions =>
            rintro ⟨-, -, hgone, hstream⟩
            have hsome := hmedia sessions rfl hgone
            rw [hstream] at hsome
            cases hsome
        | _ => exact id
    | _ => exact id
  · exact fun c e hprepared hmedia => selectsListed_iff hprepared hmedia

def hungUp : List Event :=
  [.message (.sessionID 2), .userMedia true,
    .message (.sessionsChanged [⟨2, "A"⟩, ⟨3, "B"⟩, ⟨4, "C"⟩]), .rowClick 0, .callClick,
    .hangupClick]

theorem mediaAvailable_hungUp (sessions : List Entry) :
    Transition.Meets step MediaAvailable (loaded .null "")
      (hungUp ++ [.message (.sessionsChanged sessions)]) := by
  have hother : ∀ (c : Client) e, (∀ sessions, e ≠ .message (.sessionsChanged sessions)) →
      MediaAvailable c e := fun _ _ hne sessions he => absurd he (hne sessions)
  have hstream : ∀ (c : Client) e, c.localStream.isSome → MediaAvailable c e :=
    fun _ _ hsome _ _ _ => hsome
  refine meets_cons.mpr ⟨hother _ _ (by simp), meets_cons.mpr ⟨hother _ _ (by simp), ?_⟩⟩
  refine meets_cons.mpr ⟨hstream _ _ rfl, meets_cons.mpr ⟨hother _ _ (by simp), ?_⟩⟩
  refine meets_cons.mpr ⟨hother _ _ (by simp), meets_cons.mpr ⟨hother _ _ (by simp), ?_⟩⟩
  exact meets_cons.mpr ⟨hstream _ _ rfl, trivial⟩

theorem meets_selectsListed_hungUp :
    Transition.Meets step SelectsListed (loaded .null "")
      (hungUp ++ [.message (.sessionsChanged [⟨2, "A"⟩, ⟨3, "B"⟩])]) := by
  have hother : ∀ (c : Client) e, (∀ sessions, e ≠ .message (.sessionsChanged sessions)) →
      ListedInIdle c e := fun _ _ hne sessions he => absurd he (hne sessions)
  refine (meets_selectsListed_iff _ _ _ (mediaAvailable_hungUp _)).mpr ?_
  refine meets_cons.mpr ⟨hother _ _ (by simp), meets_cons.mpr ⟨hother _ _ (by simp), ?_⟩⟩
  refine meets_cons.mpr ⟨fun sessions he _ _ => .inl rfl,
    meets_cons.mpr ⟨hother _ _ (by simp), ?_⟩⟩
  refine meets_cons.mpr ⟨hother _ _ (by simp), meets_cons.mpr ⟨hother _ _ (by simp), ?_⟩⟩
  refine meets_cons.mpr ⟨fun sessions he _ _ => .inr ?_, trivial⟩
  cases he
  exact ⟨⟨3, "B"⟩, by simp, rfl⟩

/-- The session that was called leaves after the call, and stays selected. -/
theorem not_selectsListed_of_hungUp :
    ¬∀ (storedName : Name) (host : String) (es : List Event),
      Transition.Meets step MediaAvailable (loaded storedName host) es →
      Transition.Meets step SelectsListed (loaded storedName host) es := by
  intro hall
  have hrun : ∃ c, Transition.run step (loaded .null "") hungUp = .ok c ∧
      c.socketClosed = false ∧
      (c.after (.message (.sessionsChanged [⟨2, "A"⟩, ⟨4, "C"⟩]))).remoteId = .text 3 :=
    ⟨_, rfl, rfl, rfl⟩
  obtain ⟨c, hrun, hopen, hremote⟩ := hrun
  have hselects := (hall _ _ _ (mediaAvailable_hungUp [⟨2, "A"⟩, ⟨4, "C"⟩])).last hrun rfl
  obtain ⟨hlisted, -⟩ := hselects _ rfl hopen
  rw [hremote] at hlisted
  rcases hlisted with hnone | ⟨session, hmem, hid⟩
  · cases hnone
  · simp only [List.mem_cons, List.not_mem_nil, or_false] at hmem
    rcases hmem with rfl | rfl
    · cases hid
    · cases hid

end Mgws.Browser
