import Mgws.Lib.Stoi
import Mgws.Proofs.Events
/-!
# Where Calls and Answers go

`Call` and `Answer` read the peer again after their awaits.  The message goes to
the session that the invocation began with when that is still the peer.
-/

namespace Mgws.Browser

open Lib Program

def Message.callTarget : Message → Option String
  | call _ targetId _ _ | answer _ targetId _ _ => some targetId
  | _ => none

/-- Each Call that was sent went to the `remote_id` that its invocation of `Call` began with,
and each Answer to the `peer_remote_id` that its invocation of `Answer` began with. -/
def Addressed (c : Client) : Prop :=
  (c.sent.filterMap Message.callTarget).map some = c.addressed.map (·.number?.map Nat.repr)

/-- An invocation whose last await resolves has the peer that it began with, if there is
one. -/
def PeerKept (c : Client) : Event → Prop
  | .settle i (.resolved _) => ∀ inv number description n, c.suspended[i]? = some inv →
      inv.awaits = .localDescription number description → c.peerRemoteId.number? = some n →
      inv.started.number? = some n
  | _ => True

section

variable {c c' : Client} {e : Event}

theorem addressed_send {msgs : List Message} (hmsgs : msgs.filterMap Message.callTarget = [])
    (hsent : c'.sent = c.sent ++ msgs) (haddressed : c'.addressed = c.addressed) :
    Addressed c' ↔ Addressed c := by
  rw [Addressed, hsent, List.filterMap_append, hmsgs, List.append_nil, haddressed, Addressed]

theorem callTarget_eq_nil {msgs : List Message} (h : ∀ m ∈ msgs, m.isSignal = false) :
    msgs.filterMap Message.callTarget = [] := by
  refine List.filterMap_eq_nil_iff.mpr fun m hm => ?_
  have hsignal := h m hm
  cases m with
  | call | answer => cases hsignal
  | _ => rfl

theorem callTarget_hangupMessages :
    c.hangupMessages.filterMap Message.callTarget = [] := by
  rw [Client.hangupMessages]
  cases c.peerRemoteId.number? <;> rfl

/-- The message of an invocation is addressed as it should be exactly when the peer is
the one that the invocation began with. -/
theorem addressed_signalled {inv : Invocation} {n : Nat} {session : Option Description}
    (hline : c'.line = c.lineSignalled inv n session) (h : Addressed c) :
    Addressed c' ↔ inv.started.number? = some n := by
  have hsent : c'.sent = c.sent ++ [inv.fn.message c.userName n.repr c.sessionID session] :=
    congrArg Line.sent hline
  have haddressed : c'.addressed = c.addressed ++ [inv.started] :=
    congrArg Line.addressed hline
  have htarget : [inv.fn.message c.userName n.repr c.sessionID session].filterMap
      Message.callTarget = [n.repr] := by
    cases inv.fn <;> rfl
  rw [Addressed] at h
  rw [Addressed, hsent, haddressed, List.filterMap_append, htarget, List.map_append,
    List.map_append, h, List.append_cancel_left_eq, List.map_singleton, List.map_singleton,
    List.singleton_inj]
  cases inv.started.number? with
  | none => simp
  | some m =>
      rw [Option.map_some, Option.some.injEq, Option.some.injEq, eq_comm]
      exact repr_injective.eq_iff

theorem after_addressed (h : Reachable c) (haddressed : Addressed c) :
    Addressed (c.after e) ↔ PeerKept c e := by
  by_cases hlast : ∃ i sdp inv number description n, e = .settle i (.resolved sdp) ∧
    c.suspended[i]? = some inv ∧ inv.awaits = .localDescription number description ∧
    c.peerRemoteId.number? = some n
  · obtain ⟨i, sdp, inv, number, description, n, rfl, hinv, hawaits, hpeer⟩ := hlast
    obtain ⟨m, hm, -⟩ := (reachable_numbered h).current
    obtain ⟨pc, hpc, -⟩ := Option.map_eq_some_iff.mp hm
    obtain ⟨session, hline⟩ := line_settle sdp hinv hawaits hpeer hpc
    rw [addressed_signalled hline haddressed]
    constructor
    · intro hstarted inv' number' description' n' hinv' _ hpeer'
      rw [hinv] at hinv'
      rw [hpeer] at hpeer'
      cases hinv'
      cases hpeer'
      exact hstarted
    · exact fun hkept => hkept inv number description n hinv hawaits hpeer
  · have hkept : PeerKept c e := by
      unfold PeerKept
      split
      · intro inv number description n hinv hawaits hpeer
        exact absurd ⟨_, _, inv, number, description, n, rfl, hinv, hawaits, hpeer⟩ hlast
      · trivial
    have hsame {msgs : List Message} (hmsgs : msgs.filterMap Message.callTarget = [])
        (hsent : (c.after e).line.sent = c.sent ++ msgs)
        (hold : (c.after e).line.addressed = c.addressed) : Addressed (c.after e) :=
      (addressed_send hmsgs hsent hold).mpr haddressed
    refine iff_of_true ?_ hkept
    have hdid := after_did c e
    generalize hl : (c.after e).line = l at hdid hsame
    cases hdid with
    | nothing msgs hmsgs => exact hsame (callTarget_eq_nil hmsgs) rfl rfl
    | selected | dialled | rang | connected => exact hsame rfl (List.append_nil _).symm rfl
    | hungUp =>
        refine hsame (callTarget_hangupMessages (c := c)) ?_ (Line.ended_addressed _)
        rw [Line.send, Line.ended_sent]
        rfl
    | released | vanished =>
        refine hsame List.filterMap_nil ?_ (Line.ended_addressed _)
        rw [Line.ended_sent, List.append_nil]
        rfl
    | signalled hinv hawaits hpeer =>
        exact absurd ⟨_, _, _, _, _, _, rfl, hinv, hawaits, hpeer⟩ hlast

end

/-- Calls and Answers go where they should throughout exactly the runs in which no
invocation finds another peer after its last await. -/
theorem always_addressed_iff (storedName : Name) (host : String) (es : List Event) :
    Transition.Always step Addressed (loaded storedName host) es ↔
      Transition.Meets step PeerKept (loaded storedName host) es := by
  have htrue : ∀ e ∈ es, True := fun _ _ => trivial
  have hstep : ∀ c c' e, Transition.Reachable step (loaded storedName host) c → Addressed c →
      step c e = .ok c' → (Addressed c' ↔ PeerKept c e) := by
    intro c c' e hreach haddressed hstep
    cases hstep
    exact after_addressed ⟨storedName, host, hreach⟩ haddressed
  constructor
  · intro h
    refine Transition.Meets.of_always .init htrue ?_ h
    exact fun c c' e hreach haddressed _ hs hc' => (hstep c c' e hreach haddressed hs).mp hc'
  · intro h
    refine Transition.Always.of_meets .init htrue rfl ?_ h
    exact fun c c' e hreach haddressed _ hkept hs => (hstep c c' e hreach haddressed hs).mpr hkept

/-- A calls B, and C calls A while the offer is put in place: the offer goes to C. -/
theorem not_addressed_of_overtaken :
    ¬∀ (storedName : Name) (host : String) (es : List Event),
      Transition.Always step Addressed (loaded storedName host) es := by
  intro hall
  have hrun : ∃ c, Transition.run step (loaded .null "")
      [.message (.sessionID 2), .message (.sessionsChanged [⟨2, "A"⟩, ⟨3, "B"⟩, ⟨4, "C"⟩]),
        .userMedia true, .rowClick 0, .callClick, .settle 0 (.resolved "a"),
        .message (.call (.text "C") "2" 4 (some ⟨"offer", "c"⟩)),
        .settle 0 (.resolved "")] = .ok c ∧
      c.sent.filterMap Message.callTarget = ["4"] ∧ c.addressed = [.text 3] :=
    ⟨_, rfl, rfl, rfl⟩
  obtain ⟨c, hrun, hsent, haddressed⟩ := hrun
  have hsame := (hall _ _ _).last hrun
  rw [Addressed, hsent, haddressed] at hsame
  exact absurd hsame (by decide)

end Mgws.Browser
