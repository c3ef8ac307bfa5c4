import Mgws.Lib.Dialogue
import Mgws.Lib.Stoi
import Mgws.Proofs.Seats
/-!
# Agreement on a call

Two pages are parties to a dialogue: a Call is an offer, a Hangup withdraws it, a page
that rings waits, and one that is Calling or Connected and has a peer stands by its
offer.  Every act that is orderly is a step of the dialogue.
-/

namespace Mgws.Browser

open Lib

/-- What a message means to the other party. -/
def Message.signal? : Message → Option Dialogue.Signal
  | call .. => some .offer
  | hangup .. => some .withdrawal
  | _ => none

abbrev Phase : Type := CallState × Option Nat

def Client.phase (c : Client) : Phase := (c.callState, c.peerRemoteId.number?)

def Rings (phase : Phase) : Prop := phase.1 = .ringing

def Calls (phase : Phase) : Prop :=
  (phase.1 = .calling ∨ phase.1 = .connected) ∧ phase.2.isSome

namespace Pair

def side (s : Pair) (x : Bool) : Dialogue.Side Phase where
  state := (s.page x).phase
  pending := (s.inbox x).filterMap Message.signal?

def WillRing (s : Pair) (x : Bool) : Prop := (s.side x).Awaits Rings

/-- `x` may process the message, which `rest` follows.  A Call or a Hangup does not take a
page out of a call that the other one rings for, and a page that cannot end a call is not
told that the only call it rings for is over. -/
def MayProcess (s : Pair) (x : Bool) (rest : List Message) : Message → Prop
  | .call .. => ¬s.WillRing !x
  | .hangup .. =>
      if (s.page x).localStream.isSome then ¬s.WillRing !x
      else (s.page x).callState = .ringing → rest.filterMap Message.signal? = [] →
        Calls (s.page !x).phase
  | _ => True

/-- No row is clicked on a page that the other one rings for, a Call is sent by a page that
is Calling or Connected, and messages arrive when they may. -/
def Orderly (s : Pair) : Act → Prop
  | .event x (.rowClick i) => i < (s.page x).rows.length → ¬s.WillRing !x
  | .event x (.settle i (.resolved _)) => ∀ inv number description,
      (s.page x).suspended[i]? = some inv → inv.fn = .call →
      inv.awaits = .localDescription number description → (s.page x).HasPeer →
      (s.page x).callState = .calling ∨ (s.page x).callState = .connected
  | .event _ _ => True
  | .deliver x => ∀ msg rest, s.inbox x = msg :: rest → s.MayProcess x rest msg

/-- With nothing in flight and nothing suspended, a page rings only for a page that is in
a call with it. -/
def Agreed (s : Pair) : Prop :=
  s.Quiet → ∀ x, (s.page x).callState = .ringing →
    (s.page x).peerRemoteId.number? = some (s.page !x).sessionID →
    ((s.page !x).callState = .calling ∨ (s.page !x).callState = .connected) ∧
      (s.page !x).peerRemoteId.number? = some (s.page x).sessionID

structure Wf (id : Bool → Nat) (s : Pair) : Prop where
  seated : ∀ x, Seated (id x) (id !x) (s.page x)
  inbox : ∀ x, ∀ msg ∈ s.inbox x, msg.From (id !x)

end Pair

/-! ## What a page sends -/

def Message.Outgoing (me other : Nat) : Message → Prop
  | call _ targetId sessionId _ => targetId = other.repr ∧ sessionId = me
  | _ => True

/-- The signals to session `target` among the messages from session `sender`. -/
def signals (sender target : Nat) (msgs : List Message) : List Dialogue.Signal :=
  (msgs.filter (·.relayed sender target)).filterMap Message.signal?

section

variable {me other : Nat} {c : Client} {e : Event} {l : Line} {msgs : List Message}

theorem signal?_of_isSignal {msg : Message} (h : msg.isSignal = false) : msg.signal? = none := by
  cases msg with
  | call | hangup => cases h
  | _ => rfl

theorem signals_eq_nil (h : ∀ msg ∈ msgs, msg.isSignal = false) (target : Nat) :
    signals me target msgs = [] :=
  List.filterMap_eq_nil_iff.mpr fun msg hmsg =>
    signal?_of_isSignal (h msg (List.mem_of_mem_filter hmsg))

theorem signals_singleton {msg : Message} {signal : Dialogue.Signal} (target : Nat)
    (hsignal : msg.signal? = some signal)
    (hrelayed : ∀ target, msg.relayed me target = decide (other.repr = target.repr)) :
    signals me target [msg] = if target = other then [signal] else [] := by
  have hrepr : other.repr = target.repr ↔ target = other := by
    rw [repr_injective.eq_iff, eq_comm]
  simp only [signals, List.filter_cons, hrelayed, hrepr, decide_eq_true_eq]
  split
  · rw [List.filter_nil, List.filterMap_cons_some hsignal, List.filterMap_nil]
  · rfl

theorem hangupMessages_of_peer (hpeer : c.peerRemoteId.number? = some other) :
    c.hangupMessages = [.hangup c.userName other.repr] := by
  rw [Client.hangupMessages, hpeer]
  rfl

theorem signals_hangupMessages (hpeer : c.peerRemoteId.number? = some other) (target : Nat) :
    signals me target c.hangupMessages = if target = other then [.withdrawal] else [] := by
  rw [hangupMessages_of_peer hpeer]
  exact signals_singleton target rfl fun _ => rfl

theorem signals_call (userName : Name) (session : Option Description) (target : Nat) :
    signals me target [.call userName other.repr me session] =
      if target = other then [.offer] else [] :=
  signals_singleton target rfl fun _ => rfl

theorem signals_answer (userName : Name) (targetId : String) (session : Option Description)
    (target : Nat) : signals me target [.answer userName targetId me session] = [] := by
  refine List.filterMap_eq_nil_iff.mpr fun msg hmsg => ?_
  rw [List.mem_singleton.mp (List.mem_of_mem_filter hmsg)]
  rfl

/-- Whatever happens, the messages of a seated page are addressed to the other session. -/
theorem Did.outgoing (h : Seated me other c) (hdid : Did c e l) :
    ∃ msgs, l.sent = c.sent ++ msgs ∧ ∀ msg ∈ msgs, msg.Outgoing me other := by
  have hnone {l : Line} (hsent : l.sent = c.sent) :
      ∃ msgs, l.sent = c.sent ++ msgs ∧ ∀ msg ∈ msgs, msg.Outgoing me other :=
    ⟨[], by rw [hsent, List.append_nil], by simp⟩
  cases hdid with
  | nothing msgs hmsgs =>
      refine ⟨msgs, rfl, fun msg hmsg => ?_⟩
      have hsignal := hmsgs msg hmsg
      cases msg with
      | call => cases hsignal
      | _ => trivial
  | selected | dialled | rang | connected => exact hnone rfl
  | released | vanished => exact hnone (Line.ended_sent _)
  | hungUp =>
      refine ⟨c.hangupMessages, by rw [Line.send, Line.ended_sent]; rfl, fun msg hmsg => ?_⟩
      obtain ⟨n, -, rfl⟩ := List.mem_map.mp hmsg
      trivial
  | @signalled i sdp inv number description n session hinv hawaits hpeer =>
      refine ⟨_, rfl, fun msg hmsg => ?_⟩
      obtain rfl : n = other := h.peerRemoteId n hpeer
      rw [List.mem_singleton.mp hmsg]
      cases inv.fn with
      | call => exact ⟨rfl, h.sessionID⟩
      | answer => trivial

end

/-! ## An act is a step of the dialogue -/

def Line.phase (l : Line) : Phase := (l.callState, l.peerRemoteId.number?)

section

variable {id : Bool → Nat} {s : Pair} {x : Bool} {e : Event} {msgs : List Message} {l : Line}

theorem Pair.side_dispatch (hwf : s.Wf id) (hline : ((s.page x).after e).line = l)
    (hsent : l.sent = (s.page x).sent ++ msgs) (y : Bool) :
    (s.dispatch x e).side y =
      { state := if y = x then l.phase else (s.page y).phase
        pending := (s.side y).pending ++ signals (id x) (id y) msgs } := by
  have hid : ∀ y, (s.page y).sessionID = id y := fun y => (hwf.seated y).sessionID
  have hnew : ((s.page x).after e).sent.drop (s.page x).sent.length = msgs := by
    rw [show ((s.page x).after e).sent = _ from (congrArg Line.sent hline).trans hsent,
      List.drop_left]
  have hphase : ((s.page x).after e).phase = l.phase := congrArg Line.phase hline
  simp only [Pair.side, Pair.dispatch, hnew, hid, List.filterMap_append]
  rw [Dialogue.Side.mk.injEq]
  refine ⟨?_, rfl⟩
  split
  · next hy => rw [hy, Function.update_self, hphase]
  · next hy => rw [Function.update_of_ne hy]

theorem Pair.side_dispatch_of_quiet (hwf : s.Wf id) (hline : ((s.page x).after e).line = l)
    (hsent : l.sent = (s.page x).sent ++ msgs)
    (hmsgs : ∀ target, signals (id x) target msgs = []) :
    (s.dispatch x e).side = Function.update s.side x { s.side x with state := l.phase } := by
  funext y
  rw [s.side_dispatch hwf hline hsent, hmsgs, List.append_nil]
  by_cases hy : y = x
  · rw [hy, if_pos rfl, Function.update_self]
  · rw [if_neg hy, Function.update_of_ne hy]
    rfl

theorem Pair.side_dispatch_of_signal {signal : Dialogue.Signal} (hwf : s.Wf id)
    (hid : id x ≠ id !x) (hline : ((s.page x).after e).line = l)
    (hsent : l.sent = (s.page x).sent ++ msgs)
    (hmsgs : ∀ target, signals (id x) target msgs = if target = id !x then [signal] else []) :
    (s.dispatch x e).side =
      Function.update (Function.update s.side x { s.side x with state := l.phase }) (!x)
        { s.side !x with pending := (s.side !x).pending ++ [signal] } := by
  have hne : x ≠ !x := by cases x <;> simp
  funext y
  rw [s.side_dispatch hwf hline hsent, hmsgs]
  rcases Dialogue.eq_or_eq_not x y with rfl | rfl
  · rw [if_pos rfl, if_neg hid, List.append_nil, Function.update_of_ne hne, Function.update_self]
  · rw [if_neg hne.symm, if_pos rfl, Function.update_self]
    rfl

theorem side_lineSignalled (inv : Invocation) (n : Nat) (session : Option Description) :
    Function.update s.side x
      { s.side x with state := ((s.page x).lineSignalled inv n session).phase } = s.side :=
  Function.update_eq_self x s.side

/-- A page that the other one rings for is in a call with it. -/
theorem calls_of_willRing (hagree : Dialogue.Agreement Rings Calls s.side)
    (hring : s.WillRing !x) : Calls (s.page x).phase := by
  have hstate := hagree (!x) hring
  rwa [Bool.not_not] at hstate

theorem move_step (hwf : s.Wf id) (hline : ((s.page x).after e).line = l)
    (hsent : l.sent = (s.page x).sent) (hwaits : l.callState ≠ .ringing)
    (hoffers : s.WillRing (!x) → Calls l.phase) :
    Dialogue.Step Rings Calls s.side (s.dispatch x e).side := by
  rw [s.side_dispatch_of_quiet hwf hline (by rw [hsent, List.append_nil]) fun _ => rfl]
  exact .move x l.phase (fun hring => absurd hring hwaits) hoffers

/-- A page that ends its call tells the peer, if there is one. -/
theorem hangUp_step (hwf : s.Wf id) (hid : id x ≠ id !x)
    (hagree : Dialogue.Agreement Rings Calls s.side)
    (hline : ((s.page x).after e).line = (s.page x).line.ended.send (s.page x).hangupMessages) :
    Dialogue.Step Rings Calls s.side (s.dispatch x e).side := by
  have hidle : ((s.page x).line.ended.send (s.page x).hangupMessages).callState ≠ .ringing := by
    rw [Line.send, Line.ended_callState]
    decide
  have hsent : ((s.page x).line.ended.send (s.page x).hangupMessages).sent =
      (s.page x).sent ++ (s.page x).hangupMessages := by
    rw [Line.send, Line.ended_sent]
    rfl
  by_cases hpeer : (s.page x).HasPeer
  · have hother := (hwf.seated x).number?_peerRemoteId hpeer
    rw [s.side_dispatch_of_signal hwf hid hline hsent (signals_hangupMessages hother)]
    exact .withdraw x _ fun hring => absurd hring hidle
  · have hnone : (s.page x).hangupMessages = [] := by
      rw [Client.hangupMessages, Option.not_isSome_iff_eq_none.mp hpeer]
      rfl
    exact move_step hwf hline (by rw [hsent, hnone, List.append_nil]) hidle
      fun hring => absurd (calls_of_willRing hagree hring).2 hpeer

/-- An invocation sends its message. -/
theorem signal_step {inv : Invocation} {session : Option Description} (hwf : s.Wf id)
    (hid : id x ≠ id !x) (hagree : Dialogue.Agreement Rings Calls s.side)
    (hline : ((s.page x).after e).line = (s.page x).lineSignalled inv (id !x) session)
    (hcalls : inv.fn = .call → Calls (s.page x).phase) :
    Dialogue.Step Rings Calls s.side (s.dispatch x e).side := by
  have hme : (s.page x).sessionID = id x := (hwf.seated x).sessionID
  have hsent : ((s.page x).lineSignalled inv (id !x) session).sent =
      (s.page x).sent ++ [inv.fn.message (s.page x).userName (id !x).repr (id x) session] := by
    rw [← hme]
    rfl
  cases hfn : inv.fn with
  | answer =>
      rw [hfn] at hsent
      rw [s.side_dispatch_of_quiet hwf hline hsent (signals_answer _ _ _)]
      exact .move x _ (fun hring => hring) (calls_of_willRing hagree)
  | call =>
      rw [hfn] at hsent
      rw [s.side_dispatch_of_signal hwf hid hline hsent (signals_call _ _), side_lineSignalled]
      exact .offer x (hcalls hfn)

theorem event_step (hwf : s.Wf id) (hid : id x ≠ id !x)
    (hagree : Dialogue.Agreement Rings Calls s.side) (he : e.isLocal)
    (horderly : s.Orderly (.event x e)) :
    Dialogue.Step Rings Calls s.side (s.dispatch x e).side := by
  have hdid := after_did (s.page x) e
  generalize hline : ((s.page x).after e).line = l at hdid
  cases hdid with
  | nothing msgs hmsgs =>
      rw [s.side_dispatch_of_quiet hwf hline rfl (signals_eq_nil hmsgs)]
      exact .move x _ (fun hring => hring) (calls_of_willRing hagree)
  | selected hrow =>
      have hidentified : CallState.identified ≠ .ringing := by decide
      exact move_step hwf hline rfl hidentified
        fun hring => absurd hring (horderly (List.getElem?_eq_some_iff.mp hrow).1)
  | dialled henabled =>
      have hcalling : CallState.calling ≠ .ringing := by decide
      exact move_step hwf hline rfl hcalling fun _ =>
        ⟨.inl rfl, Option.isSome_of_eq_some ((hwf.seated x).number?_remoteId henabled)⟩
  | connected =>
      have hconnected : CallState.connected ≠ .ringing := by decide
      exact move_step hwf hline rfl hconnected
        fun hring => ⟨.inr rfl, (calls_of_willRing hagree hring).2⟩
  | hungUp => exact hangUp_step hwf hid hagree hline
  | @signalled i sdp inv number description n session hinv hawaits hpeer =>
      obtain rfl : n = id !x := (hwf.seated x).peerRemoteId n hpeer
      have hsome := Option.isSome_of_eq_some hpeer
      exact signal_step hwf hid hagree hline fun hfn =>
        ⟨horderly inv number description hinv hfn hawaits hsome, hsome⟩
  | rang | released | vanished => cases he

/-! ## The arrival of a message -/

def Pair.taken (s : Pair) (x : Bool) (rest : List Message) : Pair :=
  { s with inbox := Function.update s.inbox x rest }

variable {msg : Message} {rest : List Message}

theorem Pair.inbox_taken_self : (s.taken x rest).inbox x = rest := Function.update_self ..

theorem Pair.inbox_taken_of_ne {y : Bool} (hy : y ≠ x) : (s.taken x rest).inbox y = s.inbox y :=
  Function.update_of_ne hy ..

theorem Pair.side_taken : (s.taken x rest).side = Function.update s.side x
    { s.side x with pending := rest.filterMap Message.signal? } := by
  funext y
  by_cases hy : y = x
  · rw [hy, Function.update_self, Pair.side, Pair.inbox_taken_self]
    rfl
  · rw [Function.update_of_ne hy, Pair.side, Pair.inbox_taken_of_ne hy]
    rfl

theorem Pair.Wf.taken (hwf : s.Wf id) (hinbox : s.inbox x = msg :: rest) :
    (s.taken x rest).Wf id := by
  refine ⟨hwf.seated, fun y m hm => ?_⟩
  by_cases hy : y = x
  · subst hy
    rw [Pair.inbox_taken_self] at hm
    exact hwf.inbox y m (by rw [hinbox]; exact List.mem_cons_of_mem _ hm)
  · rw [Pair.inbox_taken_of_ne hy] at hm
    exact hwf.inbox y m hm

section

variable {me other : Nat} {c : Client}

theorem Seated.after_message (h : Seated me other c) (msg : Message) :
    c.after (.message msg) = finish ((onMessage msg).run c) := by
  rw [Client.after, show c.socketClosed = false from h.socketOpen, if_neg Bool.false_ne_true]

def Client.lineArrived (c : Client) : Message → Line
  | .call _ _ sessionId _ =>
      { c.line with callState := .ringing, peerRemoteId := .num sessionId }
  | .hangup .. => c.lineEnded
  | _ => c.line

theorem Seated.line_message (h : Seated me other c) (hfrom : msg.From other) :
    (c.after (.message msg)).line = c.lineArrived msg := by
  rw [h.after_message]
  cases msg with
  | sessionID | sessionsChanged => exact hfrom.elim
  | call userName targetId sessionId session => exact line_onCallMessage userName sessionId session
  | answer userName targetId sessionId session =>
      exact (keepsLine_setRemoteDescription session).finish c
  | hangup userName targetId => exact line_onHangupMessage
  | registerSession | localIdEvent | localIdChanged | iceCandidate | heartbeat | other => rfl

theorem lineArrived_sent (msg : Message) : (c.lineArrived msg).sent = c.sent := by
  cases msg with
  | hangup =>
      rw [Client.lineArrived, Client.lineEnded]
      split
      · exact Line.ended_sent _
      · rfl
  | _ => rfl

end

theorem Pair.side_deliver (hwf : s.Wf id) (hinbox : s.inbox x = msg :: rest) :
    ((s.taken x rest).dispatch x (.message msg)).side = Function.update s.side x
      { state := ((s.page x).lineArrived msg).phase
        pending := rest.filterMap Message.signal? } := by
  have hfrom : msg.From (id !x) := hwf.inbox x msg (by rw [hinbox]; exact List.mem_cons_self)
  have hline := (hwf.seated x).line_message hfrom
  have hsent : ((s.page x).lineArrived msg).sent = (s.page x).sent ++ [] := by
    rw [lineArrived_sent, List.append_nil]
  rw [(s.taken x rest).side_dispatch_of_quiet (hwf.taken hinbox) hline hsent fun _ => rfl,
    Pair.side_taken, Function.update_self, Function.update_idem]

theorem deliver_step (hwf : s.Wf id) (hagree : Dialogue.Agreement Rings Calls s.side)
    (hinbox : s.inbox x = msg :: rest) (hmay : s.MayProcess x rest msg) :
    Dialogue.Step Rings Calls s.side ((s.taken x rest).dispatch x (.message msg)).side := by
  have hcalls : s.WillRing (!x) → Calls (s.page x).phase := calls_of_willRing hagree
  have hpending : (s.side x).pending = (msg :: rest).filterMap Message.signal? := by
    rw [← hinbox]
    rfl
  rw [s.side_deliver hwf hinbox]
  cases msg with
  | call userName targetId sessionId session =>
      exact .receive x _ hpending (fun hring => absurd hring hmay) fun _ _ => .inl rfl
  | hangup userName targetId =>
      simp only [Pair.MayProcess] at hmay
      rw [Client.lineArrived, Client.lineEnded]
      split at hmay
      · next hstream =>
          rw [if_pos hstream]
          refine .receive x _ hpending (fun hring => absurd hring hmay) fun _ hring => ?_
          rw [Line.phase, Line.ended_callState] at hring
          cases hring
      · next hstream =>
          rw [if_neg hstream]
          exact .receive x _ hpending hcalls fun hrest hring => .inr (hmay hring hrest)
  | _ => exact hpending ▸ .move x _ (fun hring => hring) hcalls

/-! ## Runs -/

theorem Pair.page_dispatch_self : (s.dispatch x e).page x = (s.page x).after e :=
  Function.update_self ..

theorem Pair.page_dispatch_of_ne {y : Bool} (hy : y ≠ x) :
    (s.dispatch x e).page y = s.page y :=
  Function.update_of_ne hy ..

theorem Pair.Wf.dispatch (hwf : s.Wf id) (hid : id x ≠ id !x)
    (hpage : Seated (id x) (id !x) ((s.page x).after e)) : (s.dispatch x e).Wf id := by
  obtain ⟨msgs, hsent, houtgoing⟩ := (after_did (s.page x) e).outgoing (hwf.seated x)
  have hnew : ((s.page x).after e).sent.drop (s.page x).sent.length = msgs := by
    rw [show ((s.page x).after e).sent = _ from hsent, List.drop_left]
  constructor
  · intro y
    by_cases hy : y = x
    · subst hy
      rwa [Pair.page_dispatch_self]
    · rw [Pair.page_dispatch_of_ne hy]
      exact hwf.seated y
  · intro y m hm
    rcases List.mem_append.mp hm with hold | hrelayed
    · exact hwf.inbox y m hold
    · rw [hnew] at hrelayed
      obtain ⟨hmem, hrelayed⟩ := List.mem_filter.mp hrelayed
      cases m with
      | sessionID | sessionsChanged => cases hrelayed
      | call userName targetId sessionId session =>
          obtain ⟨htarget, rfl⟩ := houtgoing _ hmem
          have hyid : (s.page y).sessionID = id y := (hwf.seated y).sessionID
          have hid' : id y = id !x := by
            rw [Message.relayed, decide_eq_true_eq, hyid, htarget] at hrelayed
            exact (repr_injective hrelayed).symm
          rcases Dialogue.eq_or_eq_not x y with rfl | rfl
          · exact absurd hid' hid
          · exact congrArg id (Bool.not_not x).symm
      | _ => trivial

theorem Pair.Wf.after (hwf : s.Wf id) (hid : ∀ x, id x ≠ id !x) (a : Act) :
    (s.after a).Wf id := by
  cases a with
  | event x e =>
      rw [Pair.after]
      split
      · next he => exact hwf.dispatch (hid x) ((hwf.seated x).after he)
      · exact hwf
  | deliver x =>
      rw [Pair.after]
      split
      · exact hwf
      · next msg rest hinbox =>
          have hfrom : msg.From (id !x) :=
            hwf.inbox x msg (by rw [hinbox]; exact List.mem_cons_self)
          exact (hwf.taken hinbox).dispatch (hid x) ((hwf.seated x).message hfrom)

structure Pair.Sound (id : Bool → Nat) (s : Pair) : Prop where
  wf : s.Wf id
  agreement : Dialogue.Agreement Rings Calls s.side

/-- An orderly act is a step of the dialogue. -/
theorem Pair.Sound.step {a : Act} (h : s.Sound id) (hid : ∀ x, id x ≠ id !x)
    (horderly : s.Orderly a) : Dialogue.Step Rings Calls s.side (s.after a).side := by
  cases a with
  | event x e =>
      rw [Pair.after]
      split
      · next he => exact event_step h.wf (hid x) h.agreement he horderly
      · exact .stutter
  | deliver x =>
      rw [Pair.after]
      split
      · exact .stutter
      · next msg rest hinbox =>
          exact deliver_step h.wf h.agreement hinbox (horderly msg rest hinbox)

theorem Pair.Sound.after {a : Act} (h : s.Sound id) (hid : ∀ x, id x ≠ id !x)
    (horderly : s.Orderly a) : (s.after a).Sound id :=
  ⟨h.wf.after hid a, (h.step hid horderly).agreement h.agreement⟩

theorem Pair.Sound.agreed (h : s.Sound id) : s.Agreed := by
  intro hquiet x hringing _
  have hring : s.WillRing x := (Dialogue.awaits_nil (by
    rw [Pair.side, (hquiet x).1]
    rfl)).mpr hringing
  obtain ⟨hstate, hpeer⟩ := h.agreement x hring
  refine ⟨hstate, ?_⟩
  have hother := (h.wf.seated !x).number?_peerRemoteId hpeer
  rw [Bool.not_not] at hother
  rw [hother, show (s.page x).sessionID = id x from (h.wf.seated x).sessionID]

end

section

variable {me other : Nat} {c : Client}

theorem Seated.addRow (h : Seated me other c) {session : Entry}
    (hsession : session.sessionId = me ∨ session.sessionId = other) :
    Seated me other (c.addRow session) := by
  have hme : c.sessionID = me := h.sessionID
  rw [Client.addRow]
  split
  · exact h
  · next hne =>
      have hid : session.sessionId = other := hsession.resolve_left (hme ▸ hne)
      refine ⟨h.sessionID, h.socketOpen, fun row hrow => ?_, h.selectedRow, h.remoteId,
        h.peerRemoteId, h.callEnabled, h.answerEnabled, h.invocations⟩
      rcases List.mem_append.mp hrow with hold | hnew
      · exact h.rows row hold
      · rw [List.mem_singleton.mp hnew]
        exact hid

end

theorem seated_sessionID (storedName : Name) (host : String) (me other : Nat) :
    Seated me other ((loaded storedName host).after (.message (.sessionID me))) ∧
      ((loaded storedName host).after (.message (.sessionID me))).callState = .idle := by
  have hseat : ((loaded storedName host).after (.message (.sessionID me))).seat =
      { sessionID := me, socketClosed := false, rows := [], selectedRow := none,
        remoteId := .undefined, peerRemoteId := .undefined, callDisabled := true,
        answerDisabled := true, suspended := [] } := rfl
  refine ⟨?_, rfl⟩
  rw [Seated, hseat]
  constructor <;> simp [Id.number?]

theorem Seated.sessionsChanged {me other : Nat} {c : Client} (h : Seated me other c)
    (hidle : c.callState = .idle) {one two : Entry}
    (hone : one.sessionId = me ∨ one.sessionId = other)
    (htwo : two.sessionId = me ∨ two.sessionId = other) :
    Seated me other (c.after (.message (.sessionsChanged [one, two]))) ∧
      (c.after (.message (.sessionsChanged [one, two]))).callState = .idle := by
  have hkeeps : ¬c.Vanishes [one, two] := fun hgone => hgone.1 hidle
  have hrun : (onMessage (.sessionsChanged [one, two])).run c =
      .ret () ((c.clearRemotesTable.addRow one).addRow two) := by
    show (onSessionsChangedMessage [one, two]).run c = _
    rw [onSessionsChangedMessage, Program.bind_of_ret (detectVanishedSession_run_keeps hkeeps)]
    rfl
  rw [h.after_message]
  constructor
  · rw [hrun]
    exact (h.clearRemotesTable.addRow hone).addRow htwo
  · have hline := line_onSessionsChangedMessage_keeps hkeeps
    exact (congrArg Line.callState hline).trans hidle

theorem joined_sound {id : Bool → Nat} (storedName : Bool → Name) (host : Bool → String)
    (userName : Bool → String) : (Pair.joined id storedName host userName).Sound id := by
  have hpage : ∀ x, Seated (id x) (id !x) ((Pair.joined id storedName host userName).page x) ∧
      ((Pair.joined id storedName host userName).page x).callState = .idle := by
    intro x
    obtain ⟨hseated, hidle⟩ := seated_sessionID (storedName x) (host x) (id x) (id !x)
    exact hseated.sessionsChanged hidle (by cases x <;> simp) (by cases x <;> simp)
  refine ⟨⟨fun x => (hpage x).1, fun _ _ hmem => absurd hmem List.not_mem_nil⟩,
    fun x hring => ?_⟩
  have hringing : Rings ((Pair.joined id storedName host userName).page x).phase :=
    (Dialogue.awaits_nil rfl).mp hring
  rw [Rings, Client.phase, (hpage x).2] at hringing
  cases hringing

/-- Two pages whose acts are all orderly agree throughout: neither is left ringing for a call
that the other one does not make. -/
theorem always_agreed {id : Bool → Nat} (hid : id false ≠ id true) (storedName : Bool → Name)
    (host : Bool → String) (userName : Bool → String) (acts : List Act)
    (h : Transition.Meets Pair.step Pair.Orderly (Pair.joined id storedName host userName) acts) :
    Transition.Always Pair.step Pair.Agreed (Pair.joined id storedName host userName) acts := by
  have hid : ∀ x, id x ≠ id !x := by
    intro x
    cases x
    · exact hid
    · exact hid.symm
  refine Transition.Always.mono (P := Pair.Sound id) ?_ fun s hs => hs.agreed
  refine Transition.Always.of_meets (A := fun _ => True) .init (fun _ _ => trivial)
    (joined_sound storedName host userName) ?_ h
  intro s s' a _ hsound _ horderly hstep
  cases hstep
  exact hsound.after hid horderly

def twoPages : Pair :=
  Pair.joined (fun x => if x then 3 else 2) (fun _ => .null) (fun _ => "")
    fun x => if x then "B" else "A"

def calling (x : Bool) (sdp : String) : List Act :=
  [.event x (.userMedia true), .event x (.rowClick 0), .event x .callClick,
    .event x (.settle 0 (.resolved sdp)), .event x (.settle 0 (.resolved ""))]

theorem always_agreed_called : Transition.Always Pair.step Pair.Agreed twoPages
    (calling false "a" ++ [.deliver true]) := by
  refine always_agreed (by decide) _ _ _ _ ?_
  have hidle : CallState.idle ≠ .ringing := by decide
  have hcalling : CallState.calling ≠ .ringing := by decide
  intro s₁ h₁
  refine ⟨trivial, ?_⟩
  cases h₁
  intro s₂ h₂
  refine ⟨fun _ hring => hidle hring, ?_⟩
  cases h₂
  intro s₃ h₃
  refine ⟨trivial, ?_⟩
  cases h₃
  intro s₄ h₄
  refine ⟨fun _ _ _ _ _ _ _ => .inl rfl, ?_⟩
  cases h₄
  intro s₅ h₅
  refine ⟨fun _ _ _ _ _ _ _ => .inl rfl, ?_⟩
  cases h₅
  intro s₆ h₆
  refine ⟨fun msg rest hinbox => ?_, trivial⟩
  cases hinbox
  exact fun hring => hcalling hring

/-- Both press Call before they hear of the other's call, and both are left ringing. -/
theorem not_agreed_of_glare :
    ¬∀ (id : Bool → Nat) (storedName : Bool → Name) (host : Bool → String)
      (userName : Bool → String) (acts : List Act), id false ≠ id true →
      Transition.Always Pair.step Pair.Agreed (Pair.joined id storedName host userName) acts := by
  intro hall
  have hrun : ∃ s, Transition.run Pair.step twoPages
      (calling false "a" ++ calling true "b" ++ [.deliver false, .deliver true]) = .ok s ∧
      (s.inbox false = [] ∧ s.inbox true = []) ∧
      ((s.page false).suspended = [] ∧ (s.page true).suspended = []) ∧
      ((s.page false).callState = .ringing ∧ (s.page true).callState = .ringing) ∧
      (s.page false).peerRemoteId = .num 3 ∧ (s.page true).sessionID = 3 :=
    ⟨_, rfl, ⟨rfl, rfl⟩, ⟨rfl, rfl⟩, ⟨rfl, rfl⟩, rfl, rfl⟩
  obtain ⟨s, hrun, ⟨hinbox, hinbox'⟩, ⟨hsuspended, hsuspended'⟩, ⟨hringing, hringing'⟩, hpeer,
    hid⟩ := hrun
  have hquiet : s.Quiet := by
    intro x
    cases x
    · exact ⟨hinbox, hsuspended⟩
    · exact ⟨hinbox', hsuspended'⟩
  have hagreed := (hall _ _ _ _ _ (by decide)).last hrun
  obtain ⟨hstate, -⟩ := hagreed hquiet false hringing (by rw [hpeer, Bool.not_false, hid]; rfl)
  rw [Bool.not_false, hringing'] at hstate
  exact absurd hstate (by decide)

end Mgws.Browser
