import Mgws.Proofs.Panel
/-!
# Who can be called and answered

Whoever clicks Call or Answer wants somebody at the other end.  A page is prepared when
its buttons and its suspended invocations have one, and nearly every event keeps it so.
-/

namespace Mgws.Browser

open Lib Program

/-! ## Who is called and who is answered -/

/-- Every suspended invocation is of a function that satisfies `Q`. -/
def Waits (Q : AsyncFn → Prop) (c : Client) : Prop := ∀ inv ∈ c.suspended, Q inv.fn

section

variable {c : Client} {Q : AsyncFn → Prop}

theorem Keeps.waits {α : Type} {x : Js α} (h : Keeps (·.suspended) x) : Preserves (Waits Q) x :=
  h.preserves fun suspended => ∀ inv ∈ suspended, Q inv.fn

theorem waits_of_keepsRest {α : Type} {x : Js α} (h : Keeps Client.rest x) :
    Preserves (Waits Q) x :=
  (h.of_rest (·.suspended) fun _ => rfl).waits

theorem preservesWaits_await {fn : AsyncFn} (hfn : Q fn) (started : Id)
    (awaits : PeerConnection → Awaited) : Preserves (Waits Q) (await fn started awaits) := by
  refine (keeps_getPc.waits).bind fun pc => .modify fun c hc => ?_
  intro inv hinv
  rcases List.mem_append.mp hinv with hold | hnew
  · exact hc inv hold
  · rw [List.mem_singleton.mp hnew]
    exact hfn

theorem preservesWaits_orFail {x : Js Unit} (hx : Preserves (Waits Q) x) :
    Preserves (Waits Q) (orFail x) :=
  hx.tryCatch fun _ => .modify fun _ hc => hc

theorem suspended_lost (msgStr : String) : (c.lost msgStr).suspended = c.suspended := by
  have hclear : ∀ d : Client, d.clearHeartbeat.clearRemotesTable.suspended = d.suspended :=
    fun _ => rfl
  rw [Client.lost, congr_core (·.suspended) (fun _ => rfl) (Client.core_disableButtons _), hclear]
  rfl

theorem suspended_heartbeat : c.heartbeat.suspended = c.suspended := by
  rw [Client.heartbeat]
  split
  · exact suspended_lost _
  · show Client.suspended (if _ then _ else _) = _
    split
    · exact suspended_lost (c := { c with heartbeatsMissed := c.heartbeatsMissed + 1 }) _
    · rfl

theorem Waits.call (h : Waits Q c) (hcall : Q .call) : Waits Q (finish (call.run c)) := by
  have hadd : Preserves (Waits Q) (tryCatch addTracks fun err =>
      modify (·.print ("caught error: " ++ err.toText))) :=
    (waits_of_keepsRest keepsRest_addTracks).tryCatch fun _ => .modify fun _ hc => hc
  have hdialled : c.dialled.suspended = c.suspended :=
    congrArg (·.suspended) ((c.setPeerRemoteId c.remoteId).core_setCallState .calling)
  rw [call_run]
  refine finish_of_preserves (hadd.bind fun _ =>
    preservesWaits_orFail (preservesWaits_await hcall _ _)) ?_
  rwa [Waits, hdialled]

theorem Waits.answer (h : Waits Q c) (hanswer : Q .answer) : Waits Q (finish (answer.run c)) :=
  finish_of_preserves ((waits_of_keepsRest keepsRest_addTracks).bind fun _ =>
    keeps_get.waits.bind fun _ => preservesWaits_await hanswer _ _) h

theorem preservesWaits_resume {inv : Invocation} (hinv : Q inv.fn) (settled : Settled) :
    Preserves (Waits Q) (resume inv settled) := by
  rw [resume]
  cases hfn : inv.fn with
  | call =>
      rw [hfn] at hinv
      cases settled with
      | rejected reason => cases inv.awaits <;> exact preservesWaits_orFail (.raise _)
      | resolved sdp =>
          cases inv.awaits with
          | creation => exact preservesWaits_orFail (preservesWaits_await hinv _ _)
          | localDescription number description =>
              exact Preserves.bind (.modify fun _ hc => hc) fun _ =>
                preservesWaits_orFail (waits_of_keepsRest (keepsRest_signal _ _))
  | answer =>
      rw [hfn] at hinv
      cases settled with
      | rejected reason => cases inv.awaits <;> exact .raise _
      | resolved sdp =>
          cases inv.awaits with
          | creation => exact preservesWaits_await hinv _ _
          | localDescription number description =>
              refine waits_of_keepsRest (Keeps.bind (.modify fun _ => rfl) fun _ =>
                Keeps.bind (.modify fun _ => rfl) fun _ =>
                  Keeps.bind (.modify fun _ => rest_highlightOnById _) fun _ => ?_)
              exact Keeps.bind (.modify fun _ => rfl) fun _ =>
                (keepsRest_signal _ _).bind fun _ => .modify fun _ => rfl

theorem Waits.click (h : Waits Q c) {disabled : Bool} {listener : Js Unit}
    (hlistener : disabled = false → Waits Q (finish (listener.run c))) :
    Waits Q (c.click disabled listener) := by
  rw [Client.click]
  split
  · exact h
  · next henabled =>
      have hclicked : ∀ d : Client, d.onControlsClick.suspended = d.suspended :=
        fun d => congr_core (·.suspended) (fun _ => rfl) d.core_onControlsClick
      rw [Waits, hclicked]
      exact hlistener (Bool.eq_false_iff.mpr henabled)

/-- What waits after an event has waited before or is what was clicked. -/
theorem Waits.after (h : Waits Q c) (hcall : Q .call)
    (hanswer : c.answerDisabled = false → Q .answer) (e : Event) : Waits Q (c.after e) := by
  have hkeeps : (c.after e).suspended = c.suspended → Waits Q (c.after e) := by
    intro hsame
    rwa [Waits, hsame]
  by_cases hrest : e.isLink = false ∧ e.isAsync = false
  · exact hkeeps (congrArg (·.suspended) (rest_after (c := c) hrest.1 hrest.2))
  cases e with
  | callClick => exact h.click fun _ => h.call hcall
  | answerClick => exact h.click fun henabled => h.answer (hanswer henabled)
  | settle i settled =>
      rw [Client.after]
      cases hinv : c.suspended[i]? with
      | none => exact h
      | some inv =>
          have hfn : Q inv.fn := h inv (List.mem_of_getElem? hinv)
          refine finish_of_preserves (preservesWaits_resume hfn settled) fun inv' hinv' => ?_
          exact h inv' (List.mem_of_mem_eraseIdx hinv')
  | message msg =>
      rw [Client.after]
      split
      · exact h
      · exact finish_of_preserves (keepsSuspended_onMessage msg).waits h
  | userMedia granted =>
      refine hkeeps ?_
      simp only [Client.after, Client.onUserMedia]
      split
      · rfl
      · split <;> rfl
  | timer i =>
      refine hkeeps ?_
      rw [Client.after]
      cases c.timers[i]? with
      | none => rfl
      | some timer => exact suspended_heartbeat
  | close wasClean =>
      refine hkeeps ?_
      simp only [Client.after, Client.onClose]
      split <;> rfl
  | _ => exact absurd ⟨rfl, rfl⟩ hrest

end

/-- There is somebody to call when Call is enabled, and somebody to answer when Answer is, and
while an Answer is suspended. -/
structure Prepared (c : Client) : Prop where
  call : c.callDisabled = false → c.remoteId.number?.isSome
  answer : c.answerDisabled = false → c.peerRemoteId.number?.isSome
  waits : Waits (fun fn => fn = .answer → c.peerRemoteId.number?.isSome) c

/-- The selected session has left, and Call stays enabled since there is no local stream to
stop. -/
def Client.Deselects (c : Client) : Event → Prop
  | .message (.sessionsChanged sessions) => c.socketClosed = false ∧ c.callDisabled = false ∧
      c.Vanishes sessions ∧ c.localStream = none
  | _ => False

section

variable {c : Client} {e : Event}

theorem Prepared.answers (h : Prepared c) (hanswers : c.answers e) :
    c.peerRemoteId.number?.isSome := by
  cases e with
  | settle i settled =>
      cases settled with
      | rejected reason => cases hanswers
      | resolved sdp =>
          obtain ⟨inv, hinv, hlast⟩ := (Option.any_eq_true _ _).mp hanswers
          rw [Bool.and_eq_true, decide_eq_true_eq] at hlast
          exact h.waits inv (List.mem_of_getElem? hinv) hlast.1
  | _ => cases hanswers

/-- A panel that follows on `p` has somebody to call and to answer, and the peer is not
forgotten. -/
structure Panel.Prepares (p q : Panel) : Prop where
  call : q.callDisabled = false → q.remoteId.number?.isSome
  answer : q.answerDisabled = false → q.peerRemoteId.number?.isSome
  peer : p.peerRemoteId.number?.isSome → q.peerRemoteId.number?.isSome

/-- There must be somebody to call in Identified, and a peer in Ringing. -/
theorem Panel.Prepares.enter {p q : Panel} {state : CallState}
    (hremote : state = .identified → q.remoteId.number?.isSome)
    (hringing : state = .ringing → q.peerRemoteId.number?.isSome)
    (hpeer : p.peerRemoteId.number?.isSome → q.peerRemoteId.number?.isSome) :
    p.Prepares (q.enter state) := by
  constructor
  · intro henabled
    rw [Panel.enter_remoteId]
    rw [Panel.enter_callDisabled, Bool.not_eq_false', Bool.or_eq_true, Bool.and_eq_true,
      decide_eq_true_eq] at henabled
    rcases henabled with hidentified | ⟨-, htruthy⟩
    · exact hremote hidentified
    · exact number?_of_truthy htruthy
  · intro henabled
    rw [Panel.enter_peerRemoteId]
    rw [Panel.enter_answerDisabled, decide_eq_false_iff_not, not_not] at henabled
    exact hringing henabled
  · rw [Panel.enter_peerRemoteId]
    exact hpeer

theorem Panel.Prepares.leave {p q : Panel} {state : CallState} (hidentified : state ≠ .identified)
    (hringing : state ≠ .ringing) (hpeer : q.peerRemoteId = p.peerRemoteId) :
    p.Prepares (q.enter state) :=
  .enter (fun hstate => absurd hstate hidentified) (fun hstate => absurd hstate hringing)
    fun h => hpeer ▸ h

theorem Prepared.panel (h : Prepared c) : c.panel.Prepares c.panel := ⟨h.call, h.answer, id⟩

theorem Prepared.panelHungUp (h : Prepared c) : c.panel.Prepares c.panelHungUp := by
  rw [Client.panelHungUp]
  split
  · exact .leave (by decide) (by decide) rfl
  · exact h.panel

theorem Prepared.panelListed (h : Prepared c) {sessions : List Entry}
    (hdeselects : c.callDisabled = false → c.Vanishes sessions → c.localStream.isSome) :
    c.panel.Prepares (c.panelListed sessions) := by
  rw [Client.panelListed]
  split
  · next hgone =>
      split
      · exact .leave (by decide) (by decide) rfl
      · next hstream =>
          exact ⟨fun henabled => absurd (hdeselects henabled hgone) hstream, h.answer, id⟩
  · exact h.panel

theorem Prepared.panelTold (h : Prepared c) {msg : Message} (hopen : c.socketClosed = false)
    (hdeselects : ¬c.Deselects (.message msg)) : c.panel.Prepares (c.panelTold msg) := by
  cases msg with
  | sessionsChanged sessions =>
      refine h.panelListed fun henabled hgone => ?_
      by_contra hstream
      exact hdeselects ⟨hopen, henabled, hgone, Option.not_isSome_iff_eq_none.mp hstream⟩
  | call userName targetId sessionId session =>
      rw [Client.panelTold, Client.panelRung]
      exact .enter (fun hstate => absurd hstate (by decide)) (fun _ => rfl) fun _ => rfl
  | hangup => exact h.panelHungUp
  | _ => exact h.panel

theorem Prepared.shows (h : Prepared c) (hdeselects : ¬c.Deselects e) :
    c.panel.Prepares (c.shows e) := by
  cases e with
  | rowClick i =>
      rw [Client.shows]
      cases c.rows[i]? with
      | none => exact h.panel
      | some tr => exact .enter (fun _ => rfl) (fun hstate => absurd hstate (by decide)) id
  | callClick =>
      rw [Client.shows]
      split
      · exact h.panel
      · next henabled =>
          have hremote : c.remoteId.number?.isSome := h.call (Bool.eq_false_iff.mpr henabled)
          exact ⟨fun _ => hremote, fun _ => hremote, fun _ => hremote⟩
  | hangupClick =>
      rw [Client.shows]
      split
      · exact h.panel
      · exact h.panelHungUp
  | message msg =>
      rw [Client.shows]
      split
      · exact h.panel
      · next hopen => exact h.panelTold (Bool.eq_false_iff.mpr hopen) hdeselects
  | settle i settled =>
      rw [Client.shows]
      split
      · next hanswers =>
          have hpeer := h.answers hanswers
          refine ⟨fun _ => ?_, fun _ => hpeer, id⟩
          show (c.highlighted c.peerRemoteId).number?.isSome
          rwa [Client.number?_highlighted]
      · exact h.panel
  | connectionState state =>
      rw [Client.shows]
      split
      · exact .leave (by decide) (by decide) rfl
      · exact h.panel
  | ended i =>
      rw [Client.shows]
      cases c.sources[i]? with
      | none => exact h.panel
      | some source =>
          simp only [Client.panelEnded]
          split <;> exact ⟨h.call, h.answer, id⟩
  | timer i =>
      have hdisabled : c.panel.Prepares c.panel.disableButtons := by
        constructor
        · intro henabled
          cases henabled
        · intro henabled
          cases henabled
        · exact id
      rw [Client.shows]
      split
      · exact hdisabled
      · exact h.panel
  | answerClick | controlsClick | userMedia | iceCandidate | iceCandidateError | close =>
      exact h.panel

/-- Every event keeps the page prepared, unless it deselects the session to call. -/
theorem Prepared.after (h : Prepared c) (hdeselects : ¬c.Deselects e) : Prepared (c.after e) := by
  have hshows := h.shows hdeselects
  rw [← panel_after] at hshows
  refine ⟨hshows.call, hshows.answer, ?_⟩
  have hwaits : Waits (fun fn => fn = .answer → c.peerRemoteId.number?.isSome) (c.after e) :=
    h.waits.after (fun hfn => by cases hfn) (fun henabled _ => h.answer henabled) e
  exact fun inv hinv hfn => hshows.peer (hwaits inv hinv hfn)

theorem prepared_loaded (storedName : Name) (host : String) :
    Prepared (loaded storedName host) := by
  constructor
  · intro henabled
    cases henabled
  · intro henabled
    cases henabled
  · intro inv hinv
    cases hinv

end

end Mgws.Browser
