import Mgws.Proofs.Panel
import Mgws.Proofs.Sent
/-!
# Whom a page knows

The ids that a page lists, has selected or has as its peer come from directories and from
Calls, and nowhere else.  Its own id and name stay what they are.
-/

namespace Mgws.Browser

open Lib Program

/-- Every session that the page lists, has selected or has as its peer satisfies `S`. -/
structure Knows (S : Nat → Prop) (c : Client) : Prop where
  rows : ∀ row ∈ c.rows, S row.id
  made : ∀ row ∈ c.rows, ∃ session : Entry, row = session.row
  remoteId : ∀ n, c.remoteId.number? = some n → S n
  peerRemoteId : ∀ n, c.peerRemoteId.number? = some n → S n

/-- The sessions that a message tells the page of session `me` about satisfy `S`. -/
def Message.Tells (S : Nat → Prop) (me : Nat) : Message → Prop
  | sessionsChanged sessions => ∀ entry ∈ sessions, entry.sessionId ≠ me → S entry.sessionId
  | call _ _ sessionId _ => S sessionId
  | _ => True

section

variable {S : Nat → Prop} {c d : Client} {e : Event}

/-! ## The table -/

theorem keepsRows_endCall : Keeps (·.rows) endCall := by
  have hstop : Keeps (·.rows) stopLocalStream := by
    refine keeps_get.bind fun c => ?_
    cases c.localStream with
    | none => exact keeps_raise _
    | some stream => exact keeps_pure _
  exact hstop.bind fun _ => .modify fun c => congr_replacePc (·.rows) fun _ _ _ _ _ _ => rfl

theorem rows_announce (ringing calling connected : String) :
    (c.announce ringing calling connected).rows = c.rows := by
  simp only [Client.announce]
  split <;> rfl

theorem keepsRows_signal (started : Id)
    (msg : Name → String → Nat → Option Description → Message) :
    Keeps (·.rows) (signal started msg) :=
  keeps_get.bind fun _ => (keeps_ofExcept _).bind fun _ => keeps_getPc.bind fun _ =>
    .modify fun _ => rfl

theorem keepsRows_await (fn : AsyncFn) (started : Id) (awaits : PeerConnection → Awaited) :
    Keeps (·.rows) (await fn started awaits) :=
  keeps_getPc.bind fun _ => .modify fun _ => rfl

theorem keepsRows_orFail {x : Js Unit} (hx : Keeps (·.rows) x) : Keeps (·.rows) (orFail x) :=
  hx.orFail fun _ _ => rfl

theorem keepsRows_addTracks : Keeps (·.rows) addTracks := keeps_addTracks fun _ _ _ => rfl

theorem rows_highlightOnById (id : Id) : (c.highlightOnById id).rows = c.rows := by
  rcases c.core_highlightOnById id with hsame | ⟨n, -, hset⟩
  · exact congrArg (·.rows) hsame
  · exact congrArg (·.rows) hset

theorem rows_call : (finish (call.run c)).rows = c.rows := by
  have hadd : Keeps (·.rows) (tryCatch addTracks fun err =>
      modify (·.print ("caught error: " ++ err.toText))) :=
    keepsRows_addTracks.tryCatch fun _ => .modify fun _ => rfl
  have hrest := hadd.bind fun _ =>
    keepsRows_orFail (keepsRows_await .call c.remoteId fun _ => .creation)
  rw [call_run, hrest.finish]
  exact congrArg (·.rows) ((c.setPeerRemoteId c.remoteId).core_setCallState .calling)

theorem keepsRows_resume (inv : Invocation) (settled : Settled) :
    Keeps (·.rows) (resume inv settled) := by
  rw [resume]
  cases inv.fn with
  | call =>
      cases settled with
      | rejected reason =>
          have hfail : Keeps (·.rows) (orFail (raise (.rejected reason))) :=
            keepsRows_orFail (keeps_raise _)
          cases inv.awaits <;> exact hfail
      | resolved sdp =>
          cases inv.awaits with
          | creation => exact keepsRows_orFail (keepsRows_await _ _ _)
          | localDescription number description =>
              exact Keeps.bind (.modify fun _ => rfl) fun _ =>
                keepsRows_orFail (keepsRows_signal _ _)
  | answer =>
      cases settled with
      | rejected reason =>
          have hfail : Keeps (·.rows) (raise (.rejected reason) : Js Unit) := keeps_raise _
          cases inv.awaits <;> exact hfail
      | resolved sdp =>
          cases inv.awaits with
          | creation => exact keepsRows_await _ _ _
          | localDescription number description =>
              exact Keeps.bind (.modify fun _ => rfl) fun _ =>
                Keeps.bind (.modify fun _ => rfl) fun _ =>
                  Keeps.bind (.modify fun _ => rows_highlightOnById _) fun _ =>
                    Keeps.bind (.modify fun _ => rfl) fun _ =>
                      (keepsRows_signal _ _).bind fun _ => .modify fun _ => rfl

theorem rows_click {disabled : Bool} {listener : Js Unit}
    (h : (finish (listener.run c)).rows = c.rows) : (c.click disabled listener).rows = c.rows := by
  rw [Client.click]
  split
  · rfl
  · rw [congr_core (·.rows) (fun _ => rfl) (Client.core_onControlsClick _), h]

theorem rows_lost (msgStr : String) : (c.lost msgStr).rows = [] := by
  have hcore : (c.lost msgStr).core = c.clearHeartbeat.clearRemotesTable.core := by
    rw [Client.lost, Client.core_disableButtons]
    rfl
  exact congrArg (·.rows) hcore

theorem rows_heartbeat : c.heartbeat.rows ⊆ c.rows := by
  have hlost : ∀ (d : Client) (msgStr : String), (d.lost msgStr).rows ⊆ c.rows := by
    intro d msgStr
    rw [rows_lost]
    exact List.nil_subset _
  rw [Client.heartbeat]
  split
  · exact hlost _ _
  · show Client.rows (if _ then _ else _) ⊆ _
    split
    · exact hlost { c with heartbeatsMissed := c.heartbeatsMissed + 1 } _
    · exact List.Subset.refl _

theorem rows_onSessionsChangedMessage (sessions : List Entry) :
    (finish ((onSessionsChangedMessage sessions).run c)).rows = c.rows ∨
      ∀ row ∈ (finish ((onSessionsChangedMessage sessions).run c)).rows,
        ∃ entry ∈ sessions, entry.sessionId ≠ c.sessionID ∧ row = entry.row := by
  have hlist : ∀ d : Client, d.sessionID = c.sessionID →
      ∀ row ∈ (sessions.foldl Client.addRow d.clearRemotesTable).rows,
        ∃ entry ∈ sessions, entry.sessionId ≠ c.sessionID ∧ row = entry.row := by
    intro d hd row hrow
    obtain ⟨remotes, hfold⟩ := foldl_addRow sessions d.clearRemotesTable
    rw [hfold] at hrow
    have hid : d.clearRemotesTable.sessionID = c.sessionID := hd
    simp only [Client.clearRemotesTable, List.nil_append, List.mem_map, List.mem_filter] at hrow
    obtain ⟨entry, ⟨hmem, hne⟩, rfl⟩ := hrow
    exact ⟨entry, hmem, hd ▸ of_decide_eq_true hne, rfl⟩
  rw [onSessionsChangedMessage]
  by_cases hgone : c.Vanishes sessions
  · cases hstream : c.localStream with
    | none =>
        left
        rw [bind_of_throw ((detectVanishedSession_run_vanishes hgone).trans
          (endCall_run_none hstream))]
        rfl
    | some stream =>
        right
        rw [bind_of_ret ((detectVanishedSession_run_vanishes hgone).trans
          (endCall_run_some hstream))]
        refine hlist _ ?_
        exact congr_replacePc (·.sessionID) fun _ _ _ _ _ _ => rfl
  · right
    rw [bind_of_ret (detectVanishedSession_run_keeps hgone)]
    exact hlist c rfl

theorem rows_after (c : Client) (e : Event) : (c.after e).rows ⊆ c.rows ∨
    ∃ sessions, e = .message (.sessionsChanged sessions) ∧ c.socketClosed = false ∧
      ∀ row ∈ (c.after e).rows,
        ∃ entry ∈ sessions, entry.sessionId ≠ c.sessionID ∧ row = entry.row := by
  have hsame : (c.after e).rows = c.rows → (c.after e).rows ⊆ c.rows :=
    fun h => h ▸ List.Subset.refl _
  cases e with
  | rowClick i =>
      refine .inl (hsame ?_)
      rw [Client.after]
      cases c.rows[i]? with
      | none => rfl
      | some tr =>
          rw [congr_core (·.rows) (fun _ => rfl) (Client.core_onControlsClick _)]
          exact congrArg (·.rows) (c.core_onTableRowClickEvent tr)
  | callClick => exact .inl (hsame (rows_click rows_call))
  | answerClick =>
      refine .inl (hsame (rows_click ?_))
      exact (keepsRows_addTracks.bind fun _ => keeps_get.bind fun _ =>
        keepsRows_await _ _ _).finish c
  | hangupClick =>
      refine .inl (hsame (rows_click ?_))
      have hhangup : Keeps (·.rows) hangup :=
        Keeps.bind (.modify fun _ => rows_announce _ _ _) fun _ => keepsRows_endCall.bind fun _ =>
          keeps_get.bind fun _ => (keeps_ofExcept _).bind fun _ => .modify fun _ => rfl
      exact hhangup.finish c
  | controlsClick => exact .inl (hsame (congr_core (·.rows) (fun _ => rfl) c.core_onControlsClick))
  | message msg =>
      rw [Client.after] at hsame ⊢
      split
      · exact .inl (List.Subset.refl _)
      · next hopen =>
          rw [if_neg hopen] at hsame
          cases msg with
          | sessionsChanged sessions =>
              rcases rows_onSessionsChangedMessage (c := c) sessions with hkeep | hlist
              · exact .inl (hsame hkeep)
              · exact .inr ⟨sessions, rfl, Bool.eq_false_iff.mpr hopen, hlist⟩
          | call userName targetId sessionId session =>
              have hset : Keeps (·.rows) (setRemoteDescription session) :=
                keeps_setRemoteDescription (fun _ _ _ => rfl) session
              have hring := (c.setPeerRemoteId (.num sessionId)).core_setCallState .ringing
              refine .inl (hsame ?_)
              exact (hset.finish (c.rung userName sessionId)).trans (congrArg (·.rows) hring)
          | answer userName targetId sessionId session =>
              have hset : Keeps (·.rows) (setRemoteDescription session) :=
                keeps_setRemoteDescription (fun _ _ _ => rfl) session
              exact .inl (hsame (hset.finish c))
          | hangup userName targetId =>
              have hhangup : Keeps (·.rows) onHangupMessage :=
                Keeps.bind (.modify fun _ => rows_announce _ _ _) fun _ => keepsRows_endCall
              exact .inl (hsame (hhangup.finish c))
          | _ => exact .inl (hsame rfl)
  | settle i settled =>
      refine .inl (hsame ?_)
      rw [Client.after]
      cases c.suspended[i]? with
      | none => rfl
      | some inv => exact (keepsRows_resume inv settled).finish _
  | userMedia granted =>
      refine .inl (hsame ?_)
      simp only [Client.after, Client.onUserMedia]
      split
      · rfl
      · split <;> rfl
  | connectionState state =>
      refine .inl (hsame ?_)
      rw [Client.after, Client.onConnectionStateChange]
      split
      · exact congrArg (·.rows) (Client.core_setCallState _ .connected)
      · rfl
  | iceCandidate candidate =>
      refine .inl (hsame ?_)
      cases candidate with
      | none => rfl
      | some candidate =>
          have hoffer : Keeps (·.rows) (onIceCandidateEvent (some candidate)) :=
            keeps_get.bind fun _ => (keeps_ofExcept _).bind fun _ => .modify fun _ => rfl
          exact hoffer.finish c
  | iceCandidateError text => exact .inl (hsame rfl)
  | ended i =>
      refine .inl (hsame ?_)
      rw [Client.after]
      cases c.sources[i]? with
      | none => rfl
      | some source => exact congr_core (·.rows) (fun _ => rfl) (c.core_onEnded source)
  | timer i =>
      rw [Client.after]
      cases c.timers[i]? with
      | none => exact .inl (List.Subset.refl _)
      | some timer => exact .inl rows_heartbeat
  | close wasClean =>
      refine .inl (hsame ?_)
      simp only [Client.after, Client.onClose]
      split <;> rfl

/-! ## The selection and the peer -/

structure Panel.Knows (S : Nat → Prop) (p : Panel) : Prop where
  remoteId : ∀ n, p.remoteId.number? = some n → S n
  peerRemoteId : ∀ n, p.peerRemoteId.number? = some n → S n

theorem Panel.Knows.enter {p : Panel} (h : p.Knows S) (state : CallState) :
    (p.enter state).Knows S := by
  constructor
  · rw [Panel.enter_remoteId]
    exact h.remoteId
  · rw [Panel.enter_peerRemoteId]
    exact h.peerRemoteId

theorem Knows.panel (h : Knows S c) : c.panel.Knows S := ⟨h.remoteId, h.peerRemoteId⟩

theorem Knows.panelHungUp (h : Knows S c) : c.panelHungUp.Knows S := by
  rw [Client.panelHungUp]
  split
  · exact h.panel.enter .idle
  · exact h.panel

theorem Knows.panelTold (h : Knows S c) {msg : Message} (hmsg : msg.Tells S c.sessionID) :
    (c.panelTold msg).Knows S := by
  cases msg with
  | sessionsChanged sessions =>
      have hnone : ({ c.panel with remoteId := .null } : Panel).Knows S :=
        ⟨fun n hn => (by cases hn), h.peerRemoteId⟩
      rw [Client.panelTold, Client.panelListed]
      split
      · split
        · exact hnone.enter .idle
        · exact hnone
      · exact h.panel
  | call userName targetId sessionId session =>
      have hrung : ({ c.panel with peerRemoteId := .num sessionId } : Panel).Knows S := by
        refine ⟨h.remoteId, fun n hn => ?_⟩
        cases hn
        exact hmsg
      exact hrung.enter .ringing
  | hangup => exact h.panelHungUp
  | _ => exact h.panel

theorem Knows.shows (h : Knows S c)
    (he : ∀ msg, e = .message msg → c.socketClosed = false → msg.Tells S c.sessionID) :
    (c.shows e).Knows S := by
  cases e with
  | rowClick i =>
      rw [Client.shows]
      cases hrow : c.rows[i]? with
      | none => exact h.panel
      | some tr =>
          have hselected : (c.panel.select (.text tr.id)).Knows S := by
            refine ⟨fun n hn => ?_, h.peerRemoteId⟩
            cases hn
            exact h.rows tr (List.mem_of_getElem? hrow)
          exact hselected.enter .identified
  | callClick =>
      rw [Client.shows]
      split
      · exact h.panel
      · have hdialled : ({ c.panel with peerRemoteId := c.remoteId } : Panel).Knows S :=
          ⟨h.remoteId, h.remoteId⟩
        exact ⟨h.remoteId, (hdialled.enter .calling).peerRemoteId⟩
  | hangupClick =>
      rw [Client.shows]
      split
      · exact h.panel
      · exact h.panelHungUp
  | message msg =>
      rw [Client.shows]
      split
      · exact h.panel
      · next hopen => exact h.panelTold (he msg rfl (Bool.eq_false_iff.mpr hopen))
  | settle i settled =>
      rw [Client.shows]
      split
      · refine ⟨fun n hn => h.peerRemoteId n ?_, h.peerRemoteId⟩
        exact (Client.number?_highlighted c c.peerRemoteId).symm.trans hn
      · exact h.panel
  | connectionState state =>
      rw [Client.shows]
      split
      · exact h.panel.enter .connected
      · exact h.panel
  | ended i =>
      rw [Client.shows]
      cases c.sources[i]? with
      | none => exact h.panel
      | some source =>
          simp only [Client.panelEnded]
          split <;> exact ⟨h.remoteId, h.peerRemoteId⟩
  | timer i =>
      rw [Client.shows]
      split
      · exact ⟨h.remoteId, h.peerRemoteId⟩
      · exact h.panel
  | answerClick | controlsClick | userMedia | iceCandidate | iceCandidateError | close =>
      exact h.panel

/-- A page comes to know only of the sessions that it is told about. -/
theorem Knows.after (h : Knows S c)
    (he : ∀ msg, e = .message msg → c.socketClosed = false → msg.Tells S c.sessionID) :
    Knows S (c.after e) := by
  have hshows := h.shows he
  rw [← panel_after] at hshows
  have hrows : ∀ row ∈ (c.after e).rows, S row.id ∧ ∃ session : Entry, row = session.row := by
    intro row hrow
    rcases rows_after c e with hold | ⟨sessions, rfl, hopen, hlist⟩
    · exact ⟨h.rows row (hold hrow), h.made row (hold hrow)⟩
    · obtain ⟨entry, hmem, hne, rfl⟩ := hlist row hrow
      exact ⟨he _ rfl hopen entry hmem hne, entry, rfl⟩
  exact ⟨fun row hrow => (hrows row hrow).1, fun row hrow => (hrows row hrow).2,
    hshows.remoteId, hshows.peerRemoteId⟩

theorem knows_loaded (S : Nat → Prop) (storedName : Name) (host : String) :
    Knows S (loaded storedName host) := by
  constructor
  · intro row hrow
    cases hrow
  · intro row hrow
    cases hrow
  · intro n hn
    cases hn
  · intro n hn
    cases hn

/-! ## The identity of the page -/

theorem identity_heartbeat :
    c.heartbeat.userName = c.userName ∧ c.heartbeat.sessionID = c.sessionID := by
  have hlost : ∀ (d : Client) (msgStr : String), (d.lost msgStr).userName = d.userName ∧
      (d.lost msgStr).sessionID = d.sessionID := by
    intro d msgStr
    have hcore : (d.lost msgStr).core = d.clearHeartbeat.clearRemotesTable.core := by
      rw [Client.lost, Client.core_disableButtons]
      rfl
    exact ⟨congrArg (·.userName) hcore, congrArg (·.sessionID) hcore⟩
  rw [Client.heartbeat]
  split
  · exact hlost c _
  · dsimp only [Client.send]
    split
    · exact hlost { c with heartbeatsMissed := c.heartbeatsMissed + 1 } _
    · exact ⟨rfl, rfl⟩

/-- A page never changes its name, and its id only when it is assigned one. -/
theorem identity_after (c : Client) (e : Event) : (c.after e).userName = c.userName ∧
    ((c.after e).sessionID = c.sessionID ∨
      ∃ id, e = .message (.sessionID id) ∧ c.socketClosed = false ∧
        (c.after e).sessionID = id) := by
  cases hlink : e.isLink with
  | false =>
      have hframe := frame_after (c := c) hlink
      exact ⟨congrArg (·.userName) hframe, .inl (congrArg (·.sessionID) hframe)⟩
  | true =>
      cases e with
      | message msg =>
          rw [Client.after]
          split
          · exact ⟨rfl, .inl rfl⟩
          · next hopen =>
              cases msg with
              | sessionID id => exact ⟨rfl, .inr ⟨id, rfl, Bool.eq_false_iff.mpr hopen, rfl⟩⟩
              | heartbeat => exact ⟨rfl, .inl rfl⟩
              | _ => cases hlink
      | timer i =>
          rw [Client.after]
          cases c.timers[i]? with
          | none => exact ⟨rfl, .inl rfl⟩
          | some timer => exact ⟨identity_heartbeat.1, .inl identity_heartbeat.2⟩
      | close wasClean =>
          simp only [Client.after, Client.onClose]
          split <;> exact ⟨rfl, .inl rfl⟩
      | _ => cases hlink

end

end Mgws.Browser
