import Mgws.Proofs.Endings
/-!
# What third parties do to a call

A Call makes its sender the peer, a Hangup is taken for one of the peer, and
the directory is searched for the selected session.  None of the three handlers
compares the sender or the selection with the peer of the call.
-/

namespace Mgws.Browser

open Lib Program

/-! ## Calls and Hangups -/

/-- The Calls and Hangups that the server relays from session `q`.  A Hangup does not
name its sender. -/
def SentBy (q : Nat) : Message → Prop
  | .call _ _ sessionId _ => sessionId = q
  | .hangup .. => True
  | _ => False

structure Undisturbed (c c' : Client) : Prop where
  callState : c'.callState = c.callState
  peerRemoteId : c'.peerRemoteId = c.peerRemoteId
  pc : c'.pc = c.pc
  closed : c'.closed = c.closed

section

variable {c : Client} {p q : Nat} {msg : Message}

theorem not_undisturbed_call (hpeer : c.peerRemoteId.number? = some p) (hq : q ≠ p)
    (userName : Name) (targetId : String) (session : Option Description) :
    ¬Undisturbed c (finish ((onMessage (.call userName targetId q session)).run c)) := by
  intro h
  have hcaller : (finish ((onMessage (.call userName targetId q session)).run c)).peerRemoteId =
      .num q :=
    congrArg Line.peerRemoteId (line_onCallMessage userName q session)
  rw [← h.peerRemoteId, hcaller] at hpeer
  exact hq (Option.some.inj hpeer)

theorem undisturbed_hangup_iff (hactive : c.callState.active) (userName : Name)
    (targetId : String) :
    Undisturbed c (finish ((onMessage (.hangup userName targetId)).run c)) ↔
      c.localStream = none := by
  constructor
  · intro h
    by_contra hstream
    have hline : (finish (onHangupMessage.run c)).line = c.line.ended := by
      rw [line_onHangupMessage, Client.lineEnded, if_pos (Option.isSome_iff_ne_none.mpr hstream)]
    have hactive' : (finish (onHangupMessage.run c)).callState.active := by
      rw [show (finish (onHangupMessage.run c)).callState = c.callState from h.callState]
      exact hactive
    rw [callState_of_ended hline] at hactive'
    cases hactive'
  · intro hstream
    have hrun : (onMessage (.hangup userName targetId)).run c =
        .throw .typeError (c.announce "call cancelled by " "call declined by " "call ended by ") :=
      endCall_run_none ((localStream_announce _ _ _).trans hstream)
    have hcore := c.core_announce "call cancelled by " "call declined by " "call ended by "
    rw [hrun]
    exact ⟨congr_core (·.callState) (fun _ => rfl) hcore,
      congr_core (·.peerRemoteId) (fun _ => rfl) hcore, congr_core (·.pc) (fun _ => rfl) hcore,
      congr_core (·.closed) (fun _ => rfl) hcore⟩

/-- Of the Calls and Hangups of others, only a Hangup that fails for want of a local stream
leaves a call alone. -/
theorem undisturbed_iff (hactive : c.callState.active) (hpeer : c.peerRemoteId.number? = some p)
    (hq : q ≠ p) (hmsg : SentBy q msg) :
    Undisturbed c (finish ((onMessage msg).run c)) ↔
      (∃ userName targetId, msg = .hangup userName targetId) ∧ c.localStream = none := by
  cases msg with
  | call userName targetId sessionId session =>
      obtain rfl : sessionId = q := hmsg
      constructor
      · exact fun h => absurd h (not_undisturbed_call hpeer hq _ _ _)
      · rintro ⟨⟨_, _, hcall⟩, -⟩
        cases hcall
  | hangup userName targetId =>
      rw [undisturbed_hangup_iff hactive]
      exact (and_iff_right ⟨userName, targetId, rfl⟩).symm
  | _ => exact hmsg.elim

end

theorem undisturbed_refused : ∃ c, Transition.run step (loaded .null "")
    [.message (.sessionID 2), .message (.sessionsChanged [⟨2, "A"⟩, ⟨3, "B"⟩]),
      .rowClick 0, .callClick] = .ok c ∧
    Undisturbed c (finish ((onMessage (.hangup (.text "C") "2")).run c)) := by
  have hrun : ∃ c, Transition.run step (loaded .null "")
      [.message (.sessionID 2), .message (.sessionsChanged [⟨2, "A"⟩, ⟨3, "B"⟩]),
        .rowClick 0, .callClick] = .ok c ∧ c.callState.active ∧
      c.peerRemoteId.number? = some 3 ∧ c.localStream = none :=
    ⟨_, rfl, rfl, rfl, rfl⟩
  obtain ⟨c, hrun, hactive, hpeer, hstream⟩ := hrun
  have hsent : SentBy 4 (.hangup (.text "C") "2") := trivial
  exact ⟨c, hrun, (undisturbed_iff hactive hpeer (by decide) hsent).mpr ⟨⟨_, _, rfl⟩, hstream⟩⟩

/-- C calls A, B calls A, and C cancels: A ends the call with B. -/
theorem not_undisturbed_of_cancel :
    ¬∀ (c : Client) (p q : Nat) (msg : Message), Reachable c → c.callState.active →
      c.peerRemoteId.number? = some p → q ≠ p → SentBy q msg →
      Undisturbed c (finish ((onMessage msg).run c)) := by
  intro hall
  have hrun : ∃ c, Transition.run step (loaded .null "") (joined ++
      [.message (.call (.text "C") "2" 4 (some ⟨"offer", "c"⟩)),
        .message (.call (.text "B") "2" 3 (some ⟨"offer", "b"⟩))]) = .ok c ∧
      c.callState.active ∧ c.peerRemoteId.number? = some 3 ∧ c.localStream = some 0 :=
    ⟨_, rfl, rfl, rfl, rfl⟩
  obtain ⟨c, hrun, hactive, hpeer, hstream⟩ := hrun
  have hsame := hall c 3 4 (.hangup (.text "C") "2") ⟨_, _, Transition.reachable_of_run _ hrun⟩
    hactive hpeer (by decide) trivial
  rw [undisturbed_hangup_iff hactive, hstream] at hsame
  cases hsame

/-! ## The directory -/

def Ended (c c' : Client) : Prop := c'.callState = .idle ∧ Replaced c c'

def Lists (sessions : List Entry) (id : Id) : Prop :=
  ∃ session ∈ sessions, id.number? = some session.sessionId

/-- A directory ends the call exactly when its peer `p` is not listed. -/
def FollowsPeer (c : Client) (p : Nat) (sessions : List Entry) : Prop :=
  Ended c (finish ((onMessage (.sessionsChanged sessions)).run c)) ↔
    ∀ session ∈ sessions, session.sessionId ≠ p

section

variable {c : Client} {p : Nat} {sessions : List Entry}

/-- It is the selected session that is looked for. -/
theorem ended_sessionsChanged_iff (h : Reachable c) (hactive : c.callState.active) :
    Ended c (finish ((onMessage (.sessionsChanged sessions)).run c)) ↔
      ¬Lists sessions c.remoteId ∧ c.localStream.isSome := by
  have hstate : c.callState ≠ .idle := by
    intro hidle
    rw [hidle] at hactive
    cases hactive
  have hlists : c.Vanishes sessions ↔ ¬Lists sessions c.remoteId := by
    simp only [Client.Vanishes, Lists, not_exists, not_and, ne_eq]
    exact and_iff_right hstate
  have hkeeps : ∀ l : Client, l.line = c.line → ¬Ended c l := fun l hline hended =>
    hstate ((congrArg Line.callState hline).symm.trans hended.1)
  rw [← hlists]
  constructor
  · intro hended
    by_contra hnot
    refine hkeeps _ ?_ hended
    by_cases hgone : c.Vanishes sessions
    · refine (line_onSessionsChangedMessage_vanishes hgone).trans ?_
      rw [Client.lineEnded, if_neg fun hstream => hnot ⟨hgone, hstream⟩]
    · exact line_onSessionsChangedMessage_keeps hgone
  · rintro ⟨hgone, hstream⟩
    have hline : (finish ((onMessage (.sessionsChanged sessions)).run c)).line = c.line.ended := by
      refine (line_onSessionsChangedMessage_vanishes hgone).trans ?_
      rw [Client.lineEnded, if_pos hstream]
    exact ⟨callState_of_ended hline,
      replaced_of_ended (reachable_numbered h) (congrArg Line.pc hline)
        (congrArg Line.closed hline)⟩

theorem lists_peer_iff (hpeer : c.peerRemoteId.number? = some p) :
    (∀ session ∈ sessions, session.sessionId ≠ p) ↔ ¬Lists sessions c.peerRemoteId := by
  simp only [Lists, hpeer, Option.some.injEq, not_exists, not_and, ne_eq, eq_comm]

/-- The directory does right by the peer exactly when it lists the selected session as well,
or would end the call in vain, and when it lists neither and can end the call. -/
theorem followsPeer_iff (h : Reachable c) (hactive : c.callState.active)
    (hpeer : c.peerRemoteId.number? = some p) :
    FollowsPeer c p sessions ↔
      (Lists sessions c.peerRemoteId → Lists sessions c.remoteId ∨ c.localStream = none) ∧
      (¬Lists sessions c.peerRemoteId →
        ¬Lists sessions c.remoteId ∧ c.localStream.isSome) := by
  rw [FollowsPeer, ended_sessionsChanged_iff h hactive, lists_peer_iff hpeer]
  by_cases hlisted : Lists sessions c.peerRemoteId
  · by_cases hselected : Lists sessions c.remoteId <;> simp [hlisted, hselected]
  · by_cases hselected : Lists sessions c.remoteId <;> simp [hlisted, hselected]

end

theorem followsPeer_called : ∃ c, Transition.run step (loaded .null "")
    (joined ++ [.rowClick 0, .callClick]) = .ok c ∧
    FollowsPeer c 3 [⟨2, "A"⟩, ⟨3, "B"⟩] := by
  have hrun : ∃ c, Transition.run step (loaded .null "") (joined ++ [.rowClick 0, .callClick]) =
      .ok c ∧ c.callState.active ∧ c.peerRemoteId = .text 3 ∧ c.remoteId = .text 3 :=
    ⟨_, rfl, rfl, rfl, rfl⟩
  obtain ⟨c, hrun, hactive, hpeer, hremote⟩ := hrun
  have hreach : Reachable c := ⟨_, _, Transition.reachable_of_run _ hrun⟩
  have hlists : Lists [⟨2, "A"⟩, ⟨3, "B"⟩] (.text 3) := ⟨⟨3, "B"⟩, by simp, rfl⟩
  refine ⟨c, hrun, (followsPeer_iff hreach hactive (by rw [hpeer]; rfl)).mpr ?_⟩
  rw [hpeer, hremote]
  exact ⟨fun _ => .inl hlists, fun hnot => absurd hlists hnot⟩

/-- A callee has selected nobody, and the next directory ends the call although its peer is
listed. -/
theorem not_followsPeer_of_unselected :
    ¬∀ (c : Client) (p : Nat) (sessions : List Entry), Reachable c → c.callState.active →
      c.peerRemoteId.number? = some p → FollowsPeer c p sessions := by
  intro hall
  have hrun : ∃ c, Transition.run step (loaded .null "") (joined ++
      [.message (.call (.text "B") "2" 3 (some ⟨"offer", "b"⟩))]) = .ok c ∧
      c.callState.active ∧ c.peerRemoteId.number? = some 3 ∧ c.remoteId = .undefined ∧
      c.localStream.isSome :=
    ⟨_, rfl, rfl, rfl, rfl, rfl⟩
  obtain ⟨c, hrun, hactive, hpeer, hremote, hstream⟩ := hrun
  have hreach : Reachable c := ⟨_, _, Transition.reachable_of_run _ hrun⟩
  have hfollows := hall c 3 [⟨2, "A"⟩, ⟨3, "B"⟩, ⟨4, "C"⟩, ⟨5, "D"⟩] hreach hactive hpeer
  have hended : ∀ session ∈ [(⟨2, "A"⟩ : Entry), ⟨3, "B"⟩, ⟨4, "C"⟩, ⟨5, "D"⟩],
      session.sessionId ≠ 3 := by
    refine hfollows.mp ((ended_sessionsChanged_iff hreach hactive).mpr ⟨?_, hstream⟩)
    rw [hremote]
    rintro ⟨session, -, hnumber⟩
    cases hnumber
  exact hended ⟨3, "B"⟩ (by simp) rfl

end Mgws.Browser
