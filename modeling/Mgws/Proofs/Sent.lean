import Mgws.Proofs.Events
/-!
# What a page sends

Each event that sends anything sends messages of one or two kinds, filled in from the
state of the page.  The heartbeat, the socket and the identity of a page are touched by
few events.
-/

namespace Mgws.Browser

open Lib Program

/-! ## Messages -/

inductive Says (c : Client) : Event → Message → Prop where
  | registers {id} : Says c (.message (.sessionID id)) (.registerSession id "0.1" c.storedName)
  | identifies {id} : Says c (.message (.sessionID id)) (.localIdEvent id c.userName)
  | beats {i} : Says c (.timer i) (.heartbeat c.sessionID)
  | signals {i settled inv n session} (hinv : c.suspended[i]? = some inv)
      (hpeer : c.peerRemoteId.number? = some n) :
      Says c (.settle i settled) (inv.fn.message c.userName n.repr c.sessionID session)
  | hangsUp {n} (hpeer : c.peerRemoteId.number? = some n) :
      Says c .hangupClick (.hangup c.userName n.repr)
  | offers {candidate n} (hpeer : c.peerRemoteId.number? = some n) :
      Says c (.iceCandidate (some candidate)) (.iceCandidate c.userName n.repr candidate)

section

variable {c d : Client} {e : Event}

def HasSaid (c : Client) (e : Event) (d : Client) : Prop :=
  ∃ msgs, d.sent = c.sent ++ msgs ∧ ∀ m ∈ msgs, Says c e m

theorem HasSaid.nothing (h : d.sent = c.sent) : HasSaid c e d :=
  ⟨[], by rw [h, List.append_nil], fun m hm => absurd hm List.not_mem_nil⟩

theorem HasSaid.one {msg : Message} (h : d.sent = c.sent ++ [msg]) (hmsg : Says c e msg) :
    HasSaid c e d := by
  refine ⟨[msg], h, fun m hm => ?_⟩
  rwa [List.mem_singleton.mp hm]

theorem HasSaid.of_line (h : d.line = c.line) : HasSaid c e d := .nothing (congrArg Line.sent h)

/-- Only a SessionID is answered at once. -/
theorem hasSaid_onMessage (msg : Message) :
    HasSaid c (.message msg) (finish ((onMessage msg).run c)) := by
  cases msg with
  | sessionID id =>
      refine ⟨[.registerSession id "0.1" c.storedName, .localIdEvent id c.userName], ?_, ?_⟩
      · show (c.onSessionID id).sent = _
        simp [Client.onSessionID, Client.peerRegisterSession, Client.sendLocalIdEvent,
          Client.beginHeartbeat, Client.send]
      · intro m hm
        simp only [List.mem_cons, List.not_mem_nil, or_false] at hm
        rcases hm with rfl | rfl
        · exact .registers
        · exact .identifies
  | sessionsChanged sessions =>
      show HasSaid c _ (finish ((onSessionsChangedMessage sessions).run c))
      by_cases hgone : c.Vanishes sessions
      · refine .nothing
          ((congrArg Line.sent (line_onSessionsChangedMessage_vanishes hgone)).trans ?_)
        rw [Client.lineEnded]
        split
        · exact Line.ended_sent _
        · rfl
      · exact .of_line (line_onSessionsChangedMessage_keeps hgone)
  | call userName targetId sessionId session =>
      exact .nothing (congrArg Line.sent (line_onCallMessage userName sessionId session))
  | answer userName targetId sessionId session =>
      exact .of_line ((keepsLine_setRemoteDescription session).finish c)
  | hangup userName targetId =>
      refine .nothing ((congrArg Line.sent line_onHangupMessage).trans ?_)
      rw [Client.lineEnded]
      split
      · exact Line.ended_sent _
      · rfl
  | registerSession | localIdEvent | localIdChanged | iceCandidate | heartbeat | other =>
      exact .nothing rfl

theorem hasSaid_hangupClick : HasSaid c .hangupClick (c.after .hangupClick) := by
  rcases line_hangupClick c with hsame | ⟨-, -, hline⟩
  · exact .of_line hsame
  · have hsent := congrArg Line.sent hline
    rw [Line.send, Line.ended_sent] at hsent
    refine ⟨c.hangupMessages, hsent, fun m hm => ?_⟩
    rw [Client.hangupMessages] at hm
    obtain ⟨n, hn, rfl⟩ := List.mem_map.mp hm
    exact .hangsUp (Option.mem_toList.mp hn)

theorem hasSaid_settle (i : Nat) (settled : Settled) :
    HasSaid c (.settle i settled) (c.after (.settle i settled)) := by
  cases hinv : c.suspended[i]? with
  | none =>
      rw [Client.after, hinv]
      exact .nothing rfl
  | some inv =>
      rcases line_settled hinv settled with hsame | ⟨_, _, _, n, session, _, _, hpeer, hline⟩
      · exact .of_line hsame
      · exact .one (congrArg Line.sent hline) (.signals hinv hpeer)

/-- An event sends what `Says` lists. -/
theorem after_says (c : Client) (e : Event) : HasSaid c e (c.after e) := by
  cases e with
  | rowClick i =>
      cases hrow : c.rows[i]? with
      | none =>
          rw [Client.after, hrow]
          exact .nothing rfl
      | some tr => exact .nothing (congrArg Line.sent (line_rowClick hrow))
  | callClick =>
      refine .nothing ((congrArg Line.sent (click_line line_call)).trans ?_)
      split <;> rfl
  | answerClick =>
      refine .of_line ?_
      rw [Client.after, click_line (keepsLine_answer.finish c), ite_self]
  | hangupClick => exact hasSaid_hangupClick
  | controlsClick => exact .of_line (line_congr (Client.core_onControlsClick c))
  | message msg =>
      rw [Client.after]
      split
      · exact .nothing rfl
      · exact hasSaid_onMessage msg
  | settle i settled => exact hasSaid_settle i settled
  | userMedia granted =>
      refine .nothing ?_
      simp only [Client.after, Client.onUserMedia]
      split
      · rfl
      · split <;> rfl
  | connectionState state =>
      refine .nothing ((congrArg Line.sent (line_onConnectionStateChange state)).trans ?_)
      split <;> rfl
  | iceCandidate candidate =>
      cases candidate with
      | none => exact .nothing rfl
      | some candidate =>
          rw [Client.after, onIceCandidateEvent, bind_of_ret (run_get c), Id.toString]
          cases hpeer : c.peerRemoteId.number? with
          | none => exact .nothing rfl
          | some n => exact .one rfl (.offers hpeer)
  | iceCandidateError text => exact .nothing rfl
  | ended i =>
      rw [Client.after]
      cases c.sources[i]? with
      | none => exact .nothing rfl
      | some source => exact .of_line (line_congr (Client.core_onEnded c source))
  | timer i =>
      rw [Client.after]
      cases c.timers[i]? with
      | none => exact .nothing rfl
      | some timer =>
          have hline := line_heartbeat (c := c)
          split at hline
          · exact .of_line hline
          · exact .one (congrArg Line.sent hline) .beats
  | close wasClean =>
      refine .nothing ?_
      simp only [Client.after, Client.onClose]
      split <;> rfl

/-! ## What most events leave alone -/

def Client.frame (c : Client) : Client :=
  { c.rest with suspended := [], localStream := none, streams := 0 }

theorem frame_of_rest (h : d.rest = c.rest) : d.frame = c.frame := by
  rw [Client.frame, Client.frame, h]

theorem Keeps.frame {α : Type} {x : Js α} (h : Keeps Client.rest x) : Keeps Client.frame x :=
  keeps_of_finish fun c => frame_of_rest (h.finish c)

theorem keepsFrame_await (fn : AsyncFn) (started : Id) (awaits : PeerConnection → Awaited) :
    Keeps Client.frame (await fn started awaits) :=
  keeps_getPc.bind fun _ => .modify fun _ => rfl

theorem keepsFrame_orFail {x : Js Unit} (hx : Keeps Client.frame x) :
    Keeps Client.frame (orFail x) :=
  hx.orFail fun _ _ => rfl

theorem frame_call : (finish (call.run c)).frame = c.frame := by
  have hadd : Keeps Client.frame (tryCatch addTracks fun err =>
      modify (·.print ("caught error: " ++ err.toText))) :=
    keepsRest_addTracks.frame.tryCatch fun _ => .modify fun _ => rfl
  have hrest := hadd.bind fun _ =>
    keepsFrame_orFail (keepsFrame_await .call c.remoteId fun _ => .creation)
  rw [call_run, hrest.finish]
  exact frame_of_rest (rest_setCallState (c := c.setPeerRemoteId c.remoteId) .calling)

theorem keepsFrame_answer : Keeps Client.frame answer :=
  keepsRest_addTracks.frame.bind fun _ => keeps_get.bind fun _ => keepsFrame_await _ _ _

theorem keepsFrame_resume (inv : Invocation) (settled : Settled) :
    Keeps Client.frame (resume inv settled) := by
  rw [resume]
  cases inv.fn with
  | call =>
      cases settled with
      | rejected reason =>
          have hfail : Keeps Client.frame (orFail (raise (.rejected reason))) :=
            keepsFrame_orFail (keeps_raise _)
          cases inv.awaits <;> exact hfail
      | resolved sdp =>
          cases inv.awaits with
          | creation => exact keepsFrame_orFail (keepsFrame_await _ _ _)
          | localDescription number description =>
              exact Keeps.bind (.modify fun _ => rfl) fun _ =>
                keepsFrame_orFail (keepsRest_signal _ _).frame
  | answer =>
      cases settled with
      | rejected reason =>
          have hfail : Keeps Client.frame (raise (.rejected reason) : Js Unit) := keeps_raise _
          cases inv.awaits <;> exact hfail
      | resolved sdp =>
          cases inv.awaits with
          | creation => exact keepsFrame_await _ _ _
          | localDescription number description =>
              exact Keeps.bind (.modify fun _ => rfl) fun _ =>
                Keeps.bind (.modify fun _ => rfl) fun _ =>
                  Keeps.bind (.modify fun c => frame_of_rest (rest_highlightOnById _)) fun _ =>
                    Keeps.bind (.modify fun _ => rfl) fun _ =>
                      (keepsRest_signal _ _).frame.bind fun _ => .modify fun _ => rfl

theorem frame_click {disabled : Bool} {listener : Js Unit}
    (h : (finish (listener.run c)).frame = c.frame) :
    (c.click disabled listener).frame = c.frame := by
  rw [Client.click]
  split
  · rfl
  · rw [frame_of_rest (rest_congr (Client.core_onControlsClick _)), h]

theorem frame_after (he : e.isLink = false) : (c.after e).frame = c.frame := by
  cases hasync : e.isAsync with
  | false => exact frame_of_rest (rest_after he hasync)
  | true =>
      cases e with
      | callClick => exact frame_click frame_call
      | answerClick => exact frame_click (keepsFrame_answer.finish c)
      | settle i settled =>
          rw [Client.after]
          cases c.suspended[i]? with
          | none => rfl
          | some inv => exact (keepsFrame_resume inv settled).finish _
      | userMedia granted =>
          simp only [Client.after, Client.onUserMedia]
          split
          · rfl
          · split <;> rfl
      | _ => cases hasync

end

end Mgws.Browser
