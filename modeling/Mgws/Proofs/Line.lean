import Mgws.Browser.Page
/-!
# What the handlers do to a call

The user interface leaves everything but itself alone.  The part of a page that a
call consists of is its line, and for each handler it is said what it does to the
line.
-/

namespace Mgws.Browser

open Lib Program

theorem number?_of_truthy {id : Id} (h : id.truthy) : id.number?.isSome := by
  cases id with
  | num n | text n => rfl
  | undefined | null => cases h

namespace Client

/-! ## The user interface -/

/-- The page without its buttons, its output and its sounds. -/
def core (c : Client) : Client :=
  { c with
    controlsVisible := true
    callDisabled := true
    answerDisabled := true
    hangupDisabled := true
    output := ""
    remoteRing := none
    telephoneRing := none
    sources := []
    nextSource := 0 }

variable (c : Client)

@[simp] theorem core_play (tone : Tone) : (c.play tone).core = c.core := by
  cases tone <;> rfl

@[simp] theorem core_stop (tone : Tone) : (c.stop tone).core = c.core := by
  rw [stop]
  cases c.sound tone <;> rfl

@[simp] theorem core_print (what : String) : (c.print what).core = c.core := rfl

@[simp] theorem core_disableCall (disable : Bool) : (c.disableCall disable).core = c.core := rfl

@[simp] theorem core_disableAnswer (disable : Bool) :
    (c.disableAnswer disable).core = c.core := rfl

@[simp] theorem core_disableHangup (disable : Bool) :
    (c.disableHangup disable).core = c.core := rfl

@[simp] theorem core_setControlsVisible (visible : Bool) :
    (c.setControlsVisible visible).core = c.core := rfl

@[simp] theorem core_disableButtons : c.disableButtons.core = c.core := rfl

@[simp] theorem core_showIdentified : c.showIdentified.core = c.core := rfl

@[simp] theorem core_onControlsClick : c.onControlsClick.core = c.core := by
  rw [onControlsClick]
  split <;> rfl

@[simp] theorem core_updateCallStateUI (state : CallState) :
    (c.updateCallStateUI state).core = c.core := by
  cases state with
  | idle =>
      simp only [updateCallStateUI]
      split <;> simp
  | _ => simp [updateCallStateUI]

@[simp] theorem core_resetCallState : c.resetCallState.core = c.core :=
  core_updateCallStateUI c .idle

@[simp] theorem core_onEnded (source : Source) : (c.onEnded source).core = c.core := by
  simp only [onEnded, abortTone]
  split
  · exact core_stop _ source.tone
  · exact core_play _ source.tone

@[simp] theorem core_announce (ringing calling connected : String) :
    (c.announce ringing calling connected).core = c.core := by
  simp only [announce]
  split <;> simp

theorem core_setCallState (state : CallState) :
    (c.setCallState state).core = { c.core with callState := state } :=
  core_updateCallStateUI _ state

theorem core_highlightOnById (id : Id) :
    (c.highlightOnById id).core = c.core ∨
      ∃ n, id.number? = some n ∧
        (c.highlightOnById id).core = { c.core with remoteId := .text n } := by
  have hfold : ∀ (rows : List Row) (d : Client),
      (rows.foldl (fun c row => if id.number? = some row.id then c.highlight row else c) d).core =
        d.core ∨ ∃ n, id.number? = some n ∧
      (rows.foldl (fun c row => if id.number? = some row.id then c.highlight row else c) d).core =
        { d.core with remoteId := .text n } := by
    intro rows
    induction rows with
    | nil => exact fun d => .inl rfl
    | cons row rows ih =>
        intro d
        rw [List.foldl_cons]
        split
        · next hid =>
            refine .inr ⟨row.id, hid, ?_⟩
            rcases ih (d.highlight row) with hsame | ⟨n, hn, hset⟩
            · rw [hsame]
              rfl
            · rw [hid] at hn
              cases hn
              rw [hset]
              rfl
        · exact ih d
  exact hfold c.rows c

theorem core_onTableRowClickEvent (tr : Row) :
    (c.onTableRowClickEvent tr).core =
      { c.core with
        selectedRow := some tr
        remoteId := .text tr.id
        callState := .identified } := by
  rw [onTableRowClickEvent, core_setCallState]
  cases c.selectedRow <;> rfl

def freshPc (number : Nat) : PeerConnection where
  number := number
  senders := []
  localDescription := none
  remoteDescriptions := []

theorem core_makePeerConnection :
    c.makePeerConnection.core =
      { c.core with pc := some (freshPc c.connections), connections := c.connections + 1 } := by
  show { c.resetCallState.core with
    pc := some (freshPc c.resetCallState.core.connections)
    connections := c.resetCallState.core.connections + 1 } = _
  rw [core_resetCallState]
  rfl

theorem core_replacePc {pc : PeerConnection} (hpc : c.pc = some pc) :
    c.replacePc.core =
      { c.core with
        closed := c.closed ++ [pc.number]
        pc := some (freshPc c.connections)
        connections := c.connections + 1
        mediaRequests := c.mediaRequests + 1
        callState := .idle } := by
  have hmake := core_makePeerConnection (c.closePc pc)
  simp only [replacePc, hpc, core_setCallState, core_resetCallState]
  show { ((c.closePc pc).makePeerConnection.core) with
    mediaRequests := (c.closePc pc).makePeerConnection.core.mediaRequests + 1
    callState := .idle } = _
  rw [hmake]
  rfl

theorem core_replacePc_none (hpc : c.pc = none) :
    c.replacePc.core = { c.core with callState := .idle } := by
  simp only [replacePc, hpc, core_setCallState]

end Client

/-! ## The part of a page that a call consists of -/

def Message.isSignal : Message → Bool
  | call .. | answer .. | hangup .. => true
  | _ => false

/-- What decides about a call.  The connection is seen by its number only. -/
structure Line where
  callState : CallState
  peerRemoteId : Id
  pc : Option Nat
  connections : Nat
  closed : List Nat
  sent : List Message
  addressed : List Id

namespace Line

variable (l : Line)

def ended : Line :=
  match l.pc with
  | none => { l with callState := .idle }
  | some number =>
      { l with
        callState := .idle
        closed := l.closed ++ [number]
        pc := some l.connections
        connections := l.connections + 1 }

def send (msgs : List Message) : Line := { l with sent := l.sent ++ msgs }

@[simp] theorem ended_callState : l.ended.callState = .idle := by
  rw [ended]
  cases l.pc <;> rfl

@[simp] theorem ended_peerRemoteId : l.ended.peerRemoteId = l.peerRemoteId := by
  rw [ended]
  cases l.pc <;> rfl

@[simp] theorem ended_sent : l.ended.sent = l.sent := by
  rw [ended]
  cases l.pc <;> rfl

@[simp] theorem ended_addressed : l.ended.addressed = l.addressed := by
  rw [ended]
  cases l.pc <;> rfl

end Line

def Client.line (c : Client) : Line where
  callState := c.callState
  peerRemoteId := c.peerRemoteId
  pc := c.pc.map (·.number)
  connections := c.connections
  closed := c.closed
  sent := c.sent
  addressed := c.addressed

section

variable {c d : Client}

/-- What does not look at the user interface agrees on pages with one core. -/
theorem congr_core {α : Type} (f : Client → α) (hf : ∀ c, f c.core = f c)
    (h : c.core = d.core) : f c = f d := by
  rw [← hf c, h, hf]

theorem line_congr (h : c.core = d.core) : c.line = d.line :=
  congr_core Client.line (fun _ => rfl) h

/-- What does not look at the call either survives the end of the call. -/
theorem congr_replacePc {α : Type} (f : Client → α)
    (hf : ∀ c pc state closed n m, f { c.core with
      pc := pc, callState := state, closed := closed, connections := n, mediaRequests := m } =
        f c) :
    f c.replacePc = f c := by
  have hcore : f c.replacePc.core = f c.replacePc := hf c.replacePc _ _ _ _ _
  rw [← hcore]
  cases hpc : c.pc with
  | none =>
      rw [c.core_replacePc_none hpc]
      exact hf c _ _ _ _ _
  | some pc =>
      rw [c.core_replacePc hpc]
      exact hf c _ _ _ _ _

theorem line_setCallState (state : CallState) :
    (c.setCallState state).line = { c.line with callState := state } :=
  congrArg Client.line (c.core_setCallState state)

theorem line_replacePc : c.replacePc.line = c.line.ended := by
  cases hpc : c.pc with
  | none =>
      have hline := congrArg Client.line (c.core_replacePc_none hpc)
      exact hline.trans (by simp [Line.ended, Client.line, hpc, Client.core])
  | some pc =>
      have hline := congrArg Client.line (c.core_replacePc hpc)
      exact hline.trans (by simp [Line.ended, Client.line, hpc, Client.core, Client.freshPc])

theorem callState_of_ended (h : d.line = c.line.ended) : d.callState = .idle :=
  (congrArg Line.callState h).trans (Line.ended_callState _)

theorem line_updatePc {f : PeerConnection → PeerConnection} (hf : ∀ pc, (f pc).number = pc.number) :
    (c.updatePc f).line = c.line := by
  have hnumber : (c.pc.map f).map (·.number) = c.pc.map (·.number) := by
    rw [Option.map_map]
    exact Option.map_congr fun pc _ => hf pc
  simp only [Client.line, Client.updatePc, hnumber]

theorem line_describe (number : Nat) (description : Description) :
    (c.describe number description).line = c.line := by
  refine line_updatePc fun pc => ?_
  split <;> rfl

/-! ## Handlers that leave the call alone -/

theorem finish_of_preserves {α : Type} {I : Client → Prop} {x : Js α} (h : Preserves I x)
    (hc : I c) : I (finish (x.run c)) := by
  have hrun := h c hc
  cases hx : x.run c with
  | ret a d => rw [hx] at hrun; exact hrun
  | throw e d => rw [hx] at hrun; exact hrun
  | fault f => cases f

/-- `x` leaves what `view` shows of the page alone. -/
def Keeps {α β : Type} (view : Client → β) (x : Js α) : Prop :=
  ∀ b, Preserves (fun c => view c = b) x

section

variable {α β γ : Type} {view : Client → γ}

theorem Keeps.finish {x : Js α} (h : Keeps view x) (c : Client) :
    view (finish (x.run c)) = view c :=
  finish_of_preserves (h (view c)) rfl

theorem keeps_of_finish {x : Js α} (h : ∀ c, view (finish (x.run c)) = view c) : Keeps view x := by
  intro b c hc
  have hrun := h c
  cases hx : x.run c with
  | ret a d =>
      rw [hx] at hrun
      exact hrun.trans hc
  | throw e d =>
      rw [hx] at hrun
      exact hrun.trans hc
  | fault f => cases f

theorem Keeps.preserves {x : Js α} (h : Keeps view x) (P : γ → Prop) :
    Preserves (fun c => P (view c)) x := by
  intro c hc
  have hrun := h (view c) c rfl
  cases hx : x.run c with
  | ret a d =>
      rw [hx] at hrun
      show P (view d)
      rwa [show view d = view c from hrun]
  | throw e d =>
      rw [hx] at hrun
      show P (view d)
      rwa [show view d = view c from hrun]
  | fault f => cases f

theorem Keeps.modify {f : Client → Client} (h : ∀ c, view (f c) = view c) :
    Keeps view (modify f) :=
  fun _ => Preserves.modify fun c hc => (h c).trans hc

theorem Keeps.bind {x : Js α} {f : α → Js β} (hx : Keeps view x) (hf : ∀ a, Keeps view (f a)) :
    Keeps view (x >>= f) :=
  fun b => (hx b).bind fun a => hf a b

theorem keeps_get : Keeps view (get : Js Client) := fun _ _ hc => hc

theorem keeps_raise (e : JsError) : Keeps view (raise e : Js α) := fun _ => Preserves.raise e

theorem keeps_pure (a : α) : Keeps view (pure a : Js α) := fun _ => Preserves.pure a

theorem keeps_ofExcept (x : Except JsError α) : Keeps view (ofExcept x : Js α) :=
  fun _ => Preserves.ofExcept x

theorem Keeps.tryCatch {x : Js α} {f : JsError → Js α} (hx : Keeps view x)
    (hf : ∀ e, Keeps view (f e)) : Keeps view (tryCatch x f) :=
  fun b => (hx b).tryCatch fun e => hf e b

theorem keeps_getPc : Keeps view getPc := by
  refine keeps_get.bind fun c => ?_
  cases c.pc with
  | none => exact keeps_raise _
  | some pc => exact keeps_pure pc

theorem Keeps.orFail {x : Js Unit} (hprint : ∀ c what, view (Client.print c what) = view c)
    (hx : Keeps view x) : Keeps view (orFail x) :=
  hx.tryCatch fun _ => .modify fun c => hprint c _

variable (hupdate : ∀ c f, (∀ pc, (f pc).number = pc.number) → view (Client.updatePc c f) = view c)
include hupdate

theorem keeps_addTracks : Keeps view addTracks := by
  refine keeps_get.bind fun c => ?_
  cases c.localStream with
  | none => exact keeps_raise _
  | some stream =>
      refine keeps_getPc.bind fun pc => ?_
      split
      · exact keeps_raise _
      · exact .modify fun c => hupdate c _ fun _ => rfl

theorem keeps_setRemoteDescription (session : Option Description) :
    Keeps view (setRemoteDescription session) := by
  refine keeps_getPc.bind fun pc => ?_
  cases session with
  | none => exact keeps_raise _
  | some description => exact .modify fun c => hupdate c _ fun _ => rfl

end

theorem keepsLine_addTracks : Keeps Client.line addTracks :=
  keeps_addTracks fun _ _ => line_updatePc

theorem keepsLine_await (fn : AsyncFn) (started : Id) (awaits : PeerConnection → Awaited) :
    Keeps Client.line (await fn started awaits) :=
  keeps_getPc.bind fun _ => .modify fun _ => rfl

theorem keepsLine_orFail {x : Js Unit} (hx : Keeps Client.line x) :
    Keeps Client.line (orFail x) :=
  hx.orFail fun _ _ => rfl

theorem keepsLine_setRemoteDescription (session : Option Description) :
    Keeps Client.line (setRemoteDescription session) :=
  keeps_setRemoteDescription (fun _ _ => line_updatePc) session

theorem keepsLine_answer : Keeps Client.line answer :=
  keepsLine_addTracks.bind fun _ => keeps_get.bind fun _ => keepsLine_await _ _ _

/-! ## Ending a call -/

theorem endCall_run_none (h : c.localStream = none) : endCall.run c = .throw .typeError c := by
  simp only [endCall, stopLocalStream, run_bind, run_get, h, run_raise]

theorem endCall_run_some {stream : Nat} (h : c.localStream = some stream) :
    endCall.run c = .ret () c.replacePc := by
  simp only [endCall, stopLocalStream, run_bind, run_get, h, run_pure, run_modify]

theorem localStream_announce (ringing calling connected : String) :
    (c.announce ringing calling connected).localStream = c.localStream :=
  congr_core (·.localStream) (fun _ => rfl) (c.core_announce ringing calling connected)

theorem line_announce (ringing calling connected : String) :
    (c.announce ringing calling connected).line = c.line :=
  line_congr (c.core_announce ringing calling connected)

def Client.lineEnded (c : Client) : Line :=
  if c.localStream.isSome then c.line.ended else c.line

theorem line_endCall : (finish (endCall.run c)).line = c.lineEnded := by
  cases h : c.localStream with
  | none =>
      rw [endCall_run_none h, Client.lineEnded, h]
      rfl
  | some stream =>
      rw [endCall_run_some h, Client.lineEnded, h]
      exact line_replacePc

theorem line_onHangupMessage : (finish (onHangupMessage.run c)).line = c.lineEnded := by
  show (finish (endCall.run (c.announce _ _ _))).line = _
  rw [line_endCall, Client.lineEnded, localStream_announce, line_announce]
  rfl

def Client.hangupMessages (c : Client) : List Message :=
  c.peerRemoteId.number?.toList.map fun n => .hangup c.userName n.repr

theorem hangup_run (c : Client) : hangup.run c = (do
    endCall
    let c ← get
    let targetId ← ofExcept c.peerRemoteId.toString
    modify (·.send (.hangup c.userName targetId)) : Js Unit).run
      (c.announce "declining call from " "cancelling call to " "ending call to ") := rfl

theorem line_hangup_none (h : c.localStream = none) :
    (finish (hangup.run c)).line = c.line := by
  rw [hangup_run, bind_of_throw (endCall_run_none ((localStream_announce _ _ _).trans h))]
  exact line_announce _ _ _

theorem line_hangup_some {stream : Nat} (h : c.localStream = some stream) :
    (finish (hangup.run c)).line = c.line.ended.send c.hangupMessages := by
  obtain ⟨d, hd⟩ : ∃ d, d = c.announce "declining call from " "cancelling call to "
    "ending call to " := ⟨_, rfl⟩
  have hcore : d.core = c.core := hd ▸ c.core_announce _ _ _
  have hline : d.replacePc.line = c.line.ended := by rw [line_replacePc, line_congr hcore]
  have hpeer : d.replacePc.peerRemoteId = c.peerRemoteId :=
    (congrArg Line.peerRemoteId hline).trans (Line.ended_peerRemoteId _)
  have hname : d.replacePc.userName = c.userName :=
    (congr_replacePc (·.userName) fun _ _ _ _ _ _ => rfl).trans
      (congr_core (·.userName) (fun _ => rfl) hcore)
  rw [hangup_run, ← hd, bind_of_ret (endCall_run_some ((hd ▸ localStream_announce _ _ _).trans h)),
    bind_of_ret (run_get _), hpeer, hname, Client.hangupMessages, Id.toString, ← hline]
  cases c.peerRemoteId.number? with
  | none => simp [finish, Line.send, run_bind]
  | some n => rfl

/-! ## Starting a call -/

def Client.dialled (c : Client) : Client :=
  let c := (c.setPeerRemoteId c.remoteId).setCallState .calling
  let c := c.updateRemoteId c.remoteId
  let c := { c with peerRemoteUserName := c.getUserNameFromId c.peerRemoteId }
  c.print ("calling " ++ c.peerRemoteUserName.toText ++ "...")

theorem line_dialled :
    c.dialled.line = { c.line with callState := .calling, peerRemoteId := c.remoteId } :=
  line_setCallState (c := c.setPeerRemoteId c.remoteId) .calling

theorem call_run (c : Client) : call.run c = (do
    tryCatch addTracks fun err => modify (·.print ("caught error: " ++ err.toText))
    orFail (await .call c.remoteId fun _ => .creation) : Js Unit).run c.dialled := rfl

theorem line_call : (finish (call.run c)).line =
    { c.line with callState := .calling, peerRemoteId := c.remoteId } := by
  have hadd : Keeps Client.line (tryCatch addTracks fun err =>
      modify (·.print ("caught error: " ++ err.toText))) :=
    keepsLine_addTracks.tryCatch fun _ => .modify fun _ => rfl
  have hrest := hadd.bind fun _ =>
    keepsLine_orFail (keepsLine_await .call c.remoteId fun _ => .creation)
  rw [call_run, hrest.finish, line_dialled]

def Client.rung (c : Client) (userName : Name) (sessionId : Nat) : Client :=
  let c := { (c.setPeerRemoteId (.num sessionId)).setCallState .ringing with
    peerRemoteUserName := userName }
  c.print ("call from " ++ c.peerRemoteUserName.toText)

theorem line_onCallMessage (userName : Name) (sessionId : Nat) (session : Option Description) :
    (finish ((onCallMessage userName sessionId session).run c)).line =
      { c.line with callState := .ringing, peerRemoteId := .num sessionId } := by
  show (finish ((setRemoteDescription session).run (c.rung userName sessionId))).line = _
  rw [(keepsLine_setRemoteDescription session).finish]
  exact line_setCallState (c := c.setPeerRemoteId (.num sessionId)) .ringing

/-! ## The message at the end of `Call` and `Answer` -/

section

variable (started : Id) (msg : Name → String → Nat → Option Description → Message)

theorem signal_run_some {n : Nat} {pc : PeerConnection} (hpeer : c.peerRemoteId.number? = some n)
    (hpc : c.pc = some pc) :
    (signal started msg).run c = .ret ()
      { c.send (msg c.userName n.repr c.sessionID pc.localDescription) with
        addressed := c.addressed ++ [started] } := by
  simp only [signal, getPc, run_bind, run_get, Id.toString, hpeer, hpc, ofExcept_ok, run_pure,
    run_modify]

theorem signal_run_none (h : c.peerRemoteId.number? = none ∨ c.pc = none) :
    (signal started msg).run c = .throw .typeError c := by
  cases hpeer : c.peerRemoteId.number? with
  | none =>
      simp only [signal, run_bind, run_get, Id.toString, hpeer, ofExcept_error, run_raise]
  | some n =>
      have hpc : c.pc = none := by simpa [hpeer] using h
      simp only [signal, getPc, run_bind, run_get, Id.toString, hpeer, hpc, ofExcept_ok, run_pure,
        run_raise]

end

/-! ## The directory -/

def Client.Vanishes (c : Client) (sessions : List Entry) : Prop :=
  c.callState ≠ .idle ∧ ∀ session ∈ sessions, c.remoteId.number? ≠ some session.sessionId

def Client.deselected (c : Client) : Client :=
  { c.print (" connection to " ++ c.peerRemoteUserName.toText ++ " vanished.") with
    remoteId := .null }

theorem any_listed_iff (id : Id) (sessions : List Entry) :
    (sessions.any fun session => id.number? = some session.sessionId) = false ↔
      ∀ session ∈ sessions, id.number? ≠ some session.sessionId := by
  simp

theorem identified_le_iff (state : CallState) :
    CallState.identified.value ≤ state.value ↔ state ≠ .idle := by
  cases state <;> decide

theorem detectVanishedSession_run_vanishes {sessions : List Entry} (h : c.Vanishes sessions) :
    (detectVanishedSession sessions).run c = endCall.run c.deselected := by
  obtain ⟨hstate, hgone⟩ := h
  rw [detectVanishedSession, bind_of_ret (run_get c), if_pos ((identified_le_iff _).mpr hstate),
    (any_listed_iff _ _).mpr hgone]
  rfl

theorem detectVanishedSession_run_keeps {sessions : List Entry} (h : ¬c.Vanishes sessions) :
    (detectVanishedSession sessions).run c = .ret () c := by
  rw [detectVanishedSession, bind_of_ret (run_get c)]
  by_cases hstate : c.callState = .idle
  · rw [if_neg (by rw [identified_le_iff]; exact fun hne => hne hstate)]
    rfl
  · have hlisted : (sessions.any fun session => c.remoteId.number? = some session.sessionId) =
        true := by
      rw [← Bool.not_eq_false, any_listed_iff]
      exact fun hgone => h ⟨hstate, hgone⟩
    rw [if_pos ((identified_le_iff _).mpr hstate), hlisted]
    rfl

/-- A directory lists everybody but the page itself. -/
theorem foldl_addRow (sessions : List Entry) (c : Client) : ∃ remotes,
    sessions.foldl Client.addRow c = { c with
      remotes := remotes
      rows := c.rows ++
        (sessions.filter fun session => session.sessionId ≠ c.sessionID).map Entry.row } := by
  induction sessions generalizing c with
  | nil => exact ⟨c.remotes, by simp⟩
  | cons session sessions ih =>
      rw [List.foldl_cons, Client.addRow]
      split
      · next hown =>
          obtain ⟨remotes, hfold⟩ := ih c
          exact ⟨remotes, by rw [hfold]; simp [hown]⟩
      · next hother =>
          obtain ⟨remotes, hfold⟩ := ih _
          exact ⟨remotes, by rw [hfold]; simp [hother]⟩

theorem line_foldl_addRow (sessions : List Entry) (c : Client) :
    (sessions.foldl Client.addRow c).line = c.line := by
  obtain ⟨remotes, hfold⟩ := foldl_addRow sessions c
  rw [hfold]
  rfl

theorem line_onSessionsChangedMessage_vanishes {sessions : List Entry} (h : c.Vanishes sessions) :
    (finish ((onSessionsChangedMessage sessions).run c)).line = c.lineEnded := by
  have hline : c.deselected.line = c.line := rfl
  rw [onSessionsChangedMessage]
  cases hstream : c.localStream with
  | none =>
      rw [bind_of_throw ((detectVanishedSession_run_vanishes h).trans (endCall_run_none hstream)),
        Client.lineEnded, hstream]
      exact hline
  | some stream =>
      rw [bind_of_ret ((detectVanishedSession_run_vanishes h).trans (endCall_run_some hstream)),
        Client.lineEnded, hstream]
      exact (line_foldl_addRow sessions _).trans line_replacePc

theorem line_onSessionsChangedMessage_keeps {sessions : List Entry} (h : ¬c.Vanishes sessions) :
    (finish ((onSessionsChangedMessage sessions).run c)).line = c.line := by
  rw [onSessionsChangedMessage, bind_of_ret (detectVanishedSession_run_keeps h)]
  exact line_foldl_addRow sessions _

/-! ## After an await -/

def AsyncFn.message : AsyncFn → Name → String → Nat → Option Description → Message
  | .call => .call
  | .answer => .answer

def Client.answering (c : Client) : Client :=
  let c := c.updateRemoteId c.peerRemoteId
  let c := c.highlightOnById c.peerRemoteId
  c.print ("answering " ++ (c.getUserNameFromId c.peerRemoteId).toText ++ "...")

/-- `d` differs from `c` by the user interface, the selection and the descriptions of
the connection at most. -/
structure Agrees (c d : Client) : Prop where
  line : d.line = c.line
  userName : d.userName = c.userName
  sessionID : d.sessionID = c.sessionID

theorem agrees_describe (number : Nat) (description : Description) :
    Agrees c (c.describe number description) :=
  ⟨line_describe number description, rfl, rfl⟩

theorem agrees_answering : Agrees c c.answering ∧ c.answering.pc = c.pc := by
  have hcore : ∃ id, c.answering.core = { c.core with remoteId := id } := by
    rcases (c.updateRemoteId c.peerRemoteId).core_highlightOnById c.peerRemoteId with
      hsame | ⟨n, -, hset⟩
    · exact ⟨c.peerRemoteId, hsame⟩
    · exact ⟨.text n, hset⟩
  obtain ⟨id, hcore⟩ := hcore
  have hsame : ∀ {α : Type} (f : Client → α), (∀ d, f d.core = f d) →
      (∀ d : Client, f { d with remoteId := id } = f d) → f c.answering = f c := by
    intro α f hf hid
    rw [← hf c.answering, hcore, hid, hf]
  exact ⟨⟨hsame Client.line (fun _ => rfl) fun _ => rfl,
    hsame (·.userName) (fun _ => rfl) fun _ => rfl,
    hsame (·.sessionID) (fun _ => rfl) fun _ => rfl⟩, hsame (·.pc) (fun _ => rfl) fun _ => rfl⟩

def Client.lineSignalled (c : Client) (inv : Invocation) (n : Nat)
    (session : Option Description) : Line :=
  { c.line.send [inv.fn.message c.userName n.repr c.sessionID session] with
    addressed := c.addressed ++ [inv.started] }

theorem resumeCall_run (started : Id) (number : Nat) (description : Description) (sdp : String)
    (c : Client) :
    (resumeCall started (.localDescription number description) (.resolved sdp)).run c =
      (orFail (signal started .call)).run (c.describe number description) := rfl

theorem resumeAnswer_run (started : Id) (number : Nat) (description : Description)
    (sdp : String) (c : Client) :
    (resumeAnswer started (.localDescription number description) (.resolved sdp)).run c =
      (do
        signal started .answer
        modify (·.disableAnswer true) : Js Unit).run (c.describe number description).answering :=
  rfl

theorem line_signal {d : Client} (inv : Invocation) {n : Nat} {pc : PeerConnection}
    (h : Agrees c d) (hpeer : c.peerRemoteId.number? = some n) (hpc : d.pc = some pc) :
    ∃ d', (signal inv.started inv.fn.message).run d = .ret () d' ∧
      d'.line = c.lineSignalled inv n pc.localDescription := by
  have hpeer' : d.peerRemoteId.number? = some n := by
    rw [← hpeer]
    exact congrArg (fun l : Line => l.peerRemoteId.number?) h.line
  have haddressed : d.addressed = c.addressed := congrArg Line.addressed h.line
  refine ⟨_, signal_run_some _ _ hpeer' hpc, ?_⟩
  rw [Client.lineSignalled, ← h.line, ← h.userName, ← h.sessionID, ← haddressed]
  rfl

variable {inv : Invocation} {number n : Nat} {description : Description} {pc : PeerConnection}

theorem line_resume_some (sdp : String)
    (hawaits : inv.awaits = .localDescription number description)
    (hpeer : c.peerRemoteId.number? = some n) (hpc : c.pc = some pc) :
    ∃ session, (finish ((resume inv (.resolved sdp)).run c)).line =
      c.lineSignalled inv n session := by
  have hdescribe := agrees_describe (c := c) number description
  obtain ⟨pc', hpc'⟩ : ∃ pc', (c.describe number description).pc = some pc' := by
    simp [Client.describe, Client.updatePc, hpc]
  rw [resume, hawaits]
  cases hfn : inv.fn with
  | call =>
      obtain ⟨d, hrun, hline⟩ := line_signal inv hdescribe hpeer hpc'
      rw [hfn] at hrun
      have hrun : (orFail (signal inv.started .call)).run (c.describe number description) =
        .ret () d := tryCatch_of_ret hrun
      refine ⟨pc'.localDescription, ?_⟩
      simp only [resumeCall_run, hrun]
      exact hline
  | answer =>
      obtain ⟨hanswering, hpc''⟩ := agrees_answering (c := c.describe number description)
      have hagrees : Agrees c (c.describe number description).answering :=
        ⟨hanswering.line.trans hdescribe.line, hanswering.userName.trans hdescribe.userName,
          hanswering.sessionID.trans hdescribe.sessionID⟩
      obtain ⟨d, hrun, hline⟩ := line_signal inv hagrees hpeer (hpc''.trans hpc')
      rw [hfn] at hrun
      have hrun : (signal inv.started .answer).run
          (c.describe number description).answering = .ret () d := hrun
      refine ⟨pc'.localDescription, ?_⟩
      simp only [resumeAnswer_run]
      rw [bind_of_ret hrun]
      exact hline

theorem line_resume_none (sdp : String)
    (hawaits : inv.awaits = .localDescription number description)
    (h : c.peerRemoteId.number? = none ∨ c.pc = none) :
    (finish ((resume inv (.resolved sdp)).run c)).line = c.line := by
  have hdescribe := agrees_describe (c := c) number description
  have hnone : (c.describe number description).peerRemoteId.number? = none ∨
      (c.describe number description).pc = none := by
    rcases h with hpeer | hpc
    · exact .inl hpeer
    · exact .inr (by simp [Client.describe, Client.updatePc, hpc])
  rw [resume, hawaits]
  cases inv.fn with
  | call =>
      simp only [resumeCall_run]
      rw [orFail, tryCatch_of_throw (signal_run_none _ _ hnone)]
      exact hdescribe.line
  | answer =>
      obtain ⟨hanswering, hpc⟩ := agrees_answering (c := c.describe number description)
      have hpeer : (c.describe number description).answering.peerRemoteId =
          (c.describe number description).peerRemoteId :=
        congrArg Line.peerRemoteId hanswering.line
      simp only [resumeAnswer_run]
      rw [bind_of_throw (signal_run_none _ _ (by rwa [hpeer, hpc]))]
      exact hanswering.line.trans hdescribe.line

theorem keepsLine_resume {settled : Settled}
    (h : ∀ number description sdp, inv.awaits = .localDescription number description →
      settled ≠ .resolved sdp) : Keeps Client.line (resume inv settled) := by
  rw [resume]
  cases settled with
  | rejected reason =>
      cases inv.fn with
      | call =>
          have hfail : Keeps Client.line (orFail (raise (.rejected reason))) :=
            keepsLine_orFail (keeps_raise _)
          cases inv.awaits <;> exact hfail
      | answer =>
          have hfail : Keeps Client.line (raise (.rejected reason) : Js Unit) := keeps_raise _
          cases inv.awaits <;> exact hfail
  | resolved sdp =>
      cases hawaits : inv.awaits with
      | localDescription number description => exact absurd rfl (h number description sdp hawaits)
      | creation =>
          cases inv.fn with
          | call => exact keepsLine_orFail (keepsLine_await _ _ _)
          | answer => exact keepsLine_await _ _ _

end

end Mgws.Browser
