import Mathlib.Data.List.Forall2
import Mgws.Lib.Markup
import Mgws.Lib.TwoRuns
import Mgws.Browser.Page
/-!
# Two pages that differ in names

A page writes the names of other users next to other texts, and does nothing else with them.  Two
pages that differ in such texts only, and take the same events up to the names in messages, go on
to differ in such texts only.  The relation of texts is any that is kept when texts are put next
to each other.
-/

namespace Mgws.Browser

open Lib Program

/-! ## The relation -/

section

variable (r : String → String → Prop)

inductive Name.Alike : Name → Name → Prop where
  | same (name : Name) : Alike name name
  | text {s t : String} (h : r s t) : Alike (.text s) (.text t)

structure Entry.Alike (a b : Entry) : Prop where
  sessionId : a.sessionId = b.sessionId
  userName : r a.userName b.userName

structure Row.Alike (a b : Row) : Prop where
  id : a.id = b.id
  innerHTML : r a.innerHTML b.innerHTML

inductive Message.Alike : Message → Message → Prop where
  | same (msg : Message) : Alike msg msg
  | sessionsChanged {as bs} (h : List.Forall₂ (Entry.Alike r) as bs) :
      Alike (.sessionsChanged as) (.sessionsChanged bs)
  | call {name name' targetId sessionId session} (h : Name.Alike r name name') :
      Alike (.call name targetId sessionId session) (.call name' targetId sessionId session)
  | answer {name name' targetId sessionId session} (h : Name.Alike r name name') :
      Alike (.answer name targetId sessionId session) (.answer name' targetId sessionId session)
  | hangup {name name' targetId} (h : Name.Alike r name name') :
      Alike (.hangup name targetId) (.hangup name' targetId)
  | iceCandidate {name name' targetId candidate} (h : Name.Alike r name name') :
      Alike (.iceCandidate name targetId candidate) (.iceCandidate name' targetId candidate)

inductive Event.Alike : Event → Event → Prop where
  | same (e : Event) : Alike e e
  | message {msg msg'} (h : Message.Alike r msg msg') : Alike (.message msg) (.message msg')

/-- The part of a page in which names of other users occur. -/
structure Texts where
  peerRemoteUserName : Name
  remotes : List Entry
  rows : List Row
  selectedRow : Option Row
  output : String

structure Texts.Alike (a b : Texts) : Prop where
  peerRemoteUserName : Name.Alike r a.peerRemoteUserName b.peerRemoteUserName
  remotes : List.Forall₂ (Entry.Alike r) a.remotes b.remotes
  rows : List.Forall₂ (Row.Alike r) a.rows b.rows
  selectedRow : Option.Rel (Row.Alike r) a.selectedRow b.selectedRow
  output : r a.output b.output

def Client.texts (c : Client) : Texts where
  peerRemoteUserName := c.peerRemoteUserName
  remotes := c.remotes
  rows := c.rows
  selectedRow := c.selectedRow
  output := c.output

def Client.withTexts (c : Client) (t : Texts) : Client :=
  { c with
    peerRemoteUserName := t.peerRemoteUserName
    remotes := t.remotes
    rows := t.rows
    selectedRow := t.selectedRow
    output := t.output }

inductive Client.Alike (c : Client) : Client → Prop where
  | mk {t : Texts} (h : c.texts.Alike r t) : Alike c (c.withTexts t)

end

section

variable {r : String → String → Prop} {c d : Client}

theorem Name.Alike.toText (hr : AppendCongr r) {name name' : Name} (h : name.Alike r name') :
    r name.toText name'.toText := by
  cases h with
  | same => exact hr.refl _
  | text h => exact h

section

variable {r' : String → String → Prop}

theorem Name.Alike.mono (hr : ∀ s t, r s t → r' s t) {name name' : Name} (h : name.Alike r name') :
    name.Alike r' name' := by
  cases h with
  | same => exact .same _
  | text h => exact .text (hr _ _ h)

theorem Entry.Alike.mono (hr : ∀ s t, r s t → r' s t) {a b : Entry} (h : a.Alike r b) :
    a.Alike r' b :=
  ⟨h.sessionId, hr _ _ h.userName⟩

theorem Event.Alike.mono (hr : ∀ s t, r s t → r' s t) {e e' : Event} (h : e.Alike r e') :
    e.Alike r' e' := by
  cases h with
  | same => exact .same _
  | message h =>
      refine .message ?_
      cases h with
      | same => exact .same _
      | sessionsChanged h => exact .sessionsChanged (h.imp fun _ _ h => h.mono hr)
      | call h => exact .call (h.mono hr)
      | answer h => exact .answer (h.mono hr)
      | hangup h => exact .hangup (h.mono hr)
      | iceCandidate h => exact .iceCandidate (h.mono hr)

end

theorem Texts.Alike.refl (hr : AppendCongr r) (t : Texts) : t.Alike r t where
  peerRemoteUserName := .same _
  remotes := List.forall₂_same.mpr fun _ _ => ⟨rfl, hr.refl _⟩
  rows := List.forall₂_same.mpr fun _ _ => ⟨rfl, hr.refl _⟩
  selectedRow := by
    cases t.selectedRow with
    | none => exact .none
    | some row => exact .some ⟨rfl, hr.refl _⟩
  output := hr.refl _

theorem Client.Alike.refl (hr : AppendCongr r) (c : Client) : c.Alike r c := .mk (.refl hr c.texts)

theorem Client.Alike.texts (h : c.Alike r d) : c.texts.Alike r d.texts := by
  cases h with
  | mk h => exact h

theorem Client.Alike.peerRemoteId (h : c.Alike r d) : d.peerRemoteId = c.peerRemoteId := by
  cases h
  rfl

theorem Client.Alike.callState (h : c.Alike r d) : d.callState = c.callState := by
  cases h
  rfl

theorem Client.Alike.userName (h : c.Alike r d) : d.userName = c.userName := by
  cases h
  rfl

theorem Client.Alike.remoteId (h : c.Alike r d) : d.remoteId = c.remoteId := by
  cases h
  rfl

theorem Client.Alike.localStream (h : c.Alike r d) : d.localStream = c.localStream := by
  cases h
  rfl

theorem Client.Alike.sessionID (h : c.Alike r d) : d.sessionID = c.sessionID := by
  cases h
  rfl

theorem Client.Alike.socketClosed (h : c.Alike r d) : d.socketClosed = c.socketClosed := by
  cases h
  rfl

/-! ## What leaves the texts alone -/

/-- A change of a page that neither reads its texts nor writes them. -/
def Plain (g : Client → Client) : Prop := ∀ c t, g (c.withTexts t) = (g c).withTexts t

theorem Plain.texts {g : Client → Client} (hg : Plain g) (c : Client) : (g c).texts = c.texts := by
  have hsame : g c = (g c).withTexts c.texts := hg c c.texts
  rw [hsame]
  rfl

theorem Plain.alike {g : Client → Client} (hg : Plain g) (h : c.Alike r d) :
    (g c).Alike r (g d) := by
  cases h with
  | mk h =>
      rw [hg]
      refine .mk ?_
      rwa [hg.texts]

theorem Plain.comp {g h : Client → Client} (hg : Plain g) (hh : Plain h) :
    Plain fun c => h (g c) := by
  intro c t
  show h (g (c.withTexts t)) = _
  rw [hg, hh]

theorem Plain.agree {g : Client → Client} (hg : Plain g) :
    Agree (Client.Alike r) (modify g : Js Unit) (modify g) :=
  .modify fun _ _ h => hg.alike h

theorem Plain.ite {g h : Client → Client} {p : Client → Prop} [DecidablePred p] (hg : Plain g)
    (hh : Plain h) (hp : ∀ c t, p (Client.withTexts c t) ↔ p c) :
    Plain fun c => if p c then g c else h c := by
  intro c t
  show (if p (c.withTexts t) then _ else _) = Client.withTexts (if p c then g c else h c) t
  by_cases hc : p c
  · rw [if_pos hc, if_pos ((hp c t).mpr hc)]
    exact hg c t
  · rw [if_neg hc, if_neg fun ht => hc ((hp c t).mp ht)]
    exact hh c t

theorem plain_id : Plain fun c => c := fun _ _ => rfl

theorem plain_play (tone : Tone) : Plain (·.play tone) := by
  cases tone <;> exact fun _ _ => rfl

theorem plain_stop (tone : Tone) : Plain (·.stop tone) := by
  intro c t
  have hsound : (c.withTexts t).sound tone = c.sound tone := by cases tone <;> rfl
  simp only [Client.stop, hsound]
  cases c.sound tone <;> rfl

theorem plain_disableButtons : Plain (·.disableButtons) := fun _ _ => rfl

theorem plain_showIdentified : Plain (·.showIdentified) := fun _ _ => rfl

theorem plain_updateRemoteId (id : Id) : Plain (·.updateRemoteId id) := fun _ _ => rfl

theorem plain_updateCallStateUI (state : CallState) : Plain (·.updateCallStateUI state) := by
  have hbuttons : ∀ visible call answer hangup, Plain fun c =>
      (((c.setControlsVisible visible).disableCall call).disableAnswer answer).disableHangup
        hangup := fun _ _ _ _ _ _ => rfl
  have hoff : ∀ call answer hangup, Plain fun c =>
      ((c.disableCall call).disableAnswer answer).disableHangup hangup := fun _ _ _ _ _ => rfl
  cases state with
  | idle =>
      have hstop := ((hbuttons true true true true).comp (plain_stop .remoteRing)).comp
        (plain_stop .telephoneRing)
      have hidentified : Plain fun c => if c.remoteId.truthy then c.showIdentified else c :=
        plain_showIdentified.ite plain_id fun _ _ => Iff.rfl
      exact hstop.comp hidentified
  | identified => exact plain_showIdentified
  | calling => exact (hoff true true false).comp (plain_play .remoteRing)
  | ringing => exact (hoff true false false).comp (plain_play .telephoneRing)
  | connected =>
      exact ((hbuttons false true true false).comp (plain_stop .remoteRing)).comp
        (plain_stop .telephoneRing)

theorem plain_setCallState (state : CallState) : Plain (·.setCallState state) := by
  have hset : Plain fun c => { c with callState := state } := fun _ _ => rfl
  exact hset.comp (plain_updateCallStateUI state)

theorem plain_resetCallState : Plain (·.resetCallState) := plain_updateCallStateUI .idle

theorem plain_onControlsClick : Plain (·.onControlsClick) := by
  have htoggle : Plain (·.toggleControlVisibility) := fun _ _ => rfl
  exact htoggle.ite plain_id fun _ _ => Iff.rfl

theorem plain_onEnded (source : Source) : Plain (·.onEnded source) := by
  have hremove : Plain fun c =>
      { c with sources := c.sources.filter fun s => s.number ≠ source.number } := fun _ _ => rfl
  have hnext : Plain fun c => if c.callState = .connected ∨ c.callState = .idle then
      c.stop source.tone else c.play source.tone :=
    (plain_stop source.tone).ite (plain_play source.tone) fun _ _ => Iff.rfl
  have hended : (fun c : Client => c.onEnded source) = fun c =>
      let c := { c with sources := c.sources.filter fun s => s.number ≠ source.number }
      if c.callState = .connected ∨ c.callState = .idle then c.stop source.tone
      else c.play source.tone := by
    funext c
    simp only [Client.onEnded, Client.abortTone]
    split <;> rfl
  rw [hended]
  exact hremove.comp hnext

theorem plain_makePeerConnection : Plain (·.makePeerConnection) := by
  have hnew : Plain fun c =>
      { c with
        pc := some
          { number := c.connections, senders := [], localDescription := none,
            remoteDescriptions := [] }
        connections := c.connections + 1 } := fun _ _ => rfl
  exact plain_resetCallState.comp hnew

theorem plain_replacePc : Plain (·.replacePc) := by
  have hclose : ∀ pc, Plain (·.closePc pc) := fun _ _ _ => rfl
  have hmedia : Plain (·.initLocalStream) := fun _ _ => rfl
  intro c t
  have hpc : (c.withTexts t).pc = c.pc := rfl
  simp only [Client.replacePc, hpc]
  cases c.pc with
  | none => exact plain_setCallState .idle c t
  | some pc =>
      exact (((((hclose pc).comp plain_makePeerConnection).comp hmedia).comp
        plain_resetCallState).comp (plain_setCallState .idle)) c t

theorem plain_onUserMedia (granted : Bool) : Plain fun c =>
    if c.mediaRequests = 0 then c else c.onUserMedia granted := by
  refine plain_id.ite (p := fun c => c.mediaRequests = 0) ?_ fun _ _ => Iff.rfl
  cases granted <;> exact fun _ _ => rfl

theorem plain_clearHeartbeat : Plain (·.clearHeartbeat) := fun _ _ => rfl

theorem plain_onSessionID (id : Nat) : Plain (·.onSessionID id) := fun _ _ => rfl

/-! ## What writes texts -/

theorem Client.Alike.puts (hr : AppendCongr r) (h : c.Alike r d) {what what' : String}
    (hwhat : r what what') : (c.puts what).Alike r (d.puts what') := by
  cases h with
  | @mk t h =>
      exact .mk (t := { t with output := t.output ++ what' })
        { h with output := hr.append h.output hwhat }

theorem Client.Alike.print (hr : AppendCongr r) (h : c.Alike r d) {what what' : String}
    (hwhat : r what what') : (c.print what).Alike r (d.print what') :=
  h.puts hr (hr.append hwhat (hr.refl _))

theorem Client.Alike.setPeerRemoteUserName (h : c.Alike r d) {name name' : Name}
    (hname : name.Alike r name') :
    Client.Alike r { c with peerRemoteUserName := name }
      { d with peerRemoteUserName := name' } := by
  cases h with
  | @mk t h =>
      exact .mk (t := { t with peerRemoteUserName := name' })
        { h with peerRemoteUserName := hname }

theorem Client.Alike.setSelectedRow (h : c.Alike r d) {tr tr' : Row} (htr : tr.Alike r tr') :
    Client.Alike r { c with selectedRow := some tr } { d with selectedRow := some tr' } := by
  cases h with
  | @mk t h =>
      exact .mk (t := { t with selectedRow := some tr' }) { h with selectedRow := .some htr }

theorem Client.Alike.clearRemotesTable (h : c.Alike r d) :
    c.clearRemotesTable.Alike r d.clearRemotesTable := by
  cases h with
  | @mk t h =>
      exact .mk (t := { t with remotes := [], rows := [] }) { h with remotes := .nil, rows := .nil }

theorem Entry.Alike.row (hr : AppendCongr r) {session session' : Entry}
    (h : session.Alike r session') : session.row.Alike r session'.row := by
  refine ⟨h.sessionId, ?_⟩
  rw [Entry.row, Entry.row, Entry.cell, Entry.cell, h.sessionId]
  exact hr.append (hr.append (hr.refl _) h.userName) (hr.refl _)

theorem Client.Alike.addRow (hr : AppendCongr r) (h : c.Alike r d) {session session' : Entry}
    (hsession : session.Alike r session') : (c.addRow session).Alike r (d.addRow session') := by
  have hid := hsession.sessionId
  rw [Client.addRow, Client.addRow, ← hid, h.sessionID]
  split
  · exact h
  · cases h with
    | @mk t h =>
        exact .mk (t := { t with
            remotes := t.remotes ++ [session'], rows := t.rows ++ [session'.row] })
          { h with
            remotes := List.rel_append h.remotes (.cons hsession .nil)
            rows := List.rel_append h.rows (.cons (hsession.row hr) .nil) }

theorem Client.Alike.getUserNameFromId (h : c.Alike r d) (id : Id) :
    (c.getUserNameFromId id).Alike r (d.getUserNameFromId id) := by
  have hremotes : List.Forall₂ (Entry.Alike r) c.remotes d.remotes := h.texts.remotes
  rw [Client.getUserNameFromId, Client.getUserNameFromId]
  generalize c.remotes = remotes at hremotes
  generalize d.remotes = remotes' at hremotes
  induction hremotes with
  | nil => exact .same _
  | @cons remote remote' _ _ hremote _ ih =>
      rw [List.find?_cons, List.find?_cons, hremote.sessionId]
      cases decide (id.number? = some remote'.sessionId) with
      | true => exact .text hremote.userName
      | false => exact ih

theorem Client.Alike.announce (hr : AppendCongr r) (h : c.Alike r d)
    (ringing calling connected : String) :
    (c.announce ringing calling connected).Alike r (d.announce ringing calling connected) := by
  have hname := (h.getUserNameFromId c.peerRemoteId).toText hr
  rw [Client.announce, Client.announce, h.callState, h.peerRemoteId]
  cases c.callState with
  | ringing | calling | connected => exact h.print hr (hr.append (hr.refl _) hname)
  | _ => exact h

theorem Client.Alike.highlight (h : c.Alike r d) {row row' : Row} (hrow : row.Alike r row') :
    (c.highlight row).Alike r (d.highlight row') := by
  rw [Client.highlight, Client.highlight, hrow.id]
  exact (plain_updateRemoteId _).alike h

theorem Client.Alike.highlightOnById (h : c.Alike r d) (id : Id) :
    (c.highlightOnById id).Alike r (d.highlightOnById id) := by
  have hrows : List.Forall₂ (Row.Alike r) c.rows d.rows := h.texts.rows
  rw [Client.highlightOnById, Client.highlightOnById]
  generalize c.rows = rows at hrows
  generalize d.rows = rows' at hrows
  induction hrows generalizing c d with
  | nil => exact h
  | cons hrow _ ih =>
      rw [List.foldl_cons, List.foldl_cons, hrow.id]
      split
      · exact ih (h.highlight hrow)
      · exact ih h

theorem Client.Alike.onTableRowClickEvent (h : c.Alike r d) {tr tr' : Row}
    (htr : tr.Alike r tr') : (c.onTableRowClickEvent tr).Alike r (d.onTableRowClickEvent tr') := by
  have hselected : Option.Rel (Row.Alike r) c.selectedRow d.selectedRow := h.texts.selectedRow
  rw [Client.onTableRowClickEvent, Client.onTableRowClickEvent]
  refine (plain_setCallState .identified).alike
    (Client.Alike.highlight (Client.Alike.setSelectedRow ?_ htr) htr)
  generalize c.selectedRow = row at hselected ⊢
  generalize d.selectedRow = row' at hselected ⊢
  cases hselected with
  | none => exact h
  | some hrow => exact h.highlight hrow

theorem forall₂_any {as bs : List Entry} (h : List.Forall₂ (Entry.Alike r) as bs) (id : Id) :
    (bs.any fun session => id.number? = some session.sessionId) =
      as.any fun session => id.number? = some session.sessionId := by
  induction h with
  | nil => rfl
  | cons hsession _ ih => rw [List.any_cons, List.any_cons, ih, hsession.sessionId]

theorem Client.Alike.foldl_addRow (hr : AppendCongr r) (h : c.Alike r d) {as bs : List Entry}
    (hsessions : List.Forall₂ (Entry.Alike r) as bs) :
    (as.foldl Client.addRow c).Alike r (bs.foldl Client.addRow d) := by
  induction hsessions generalizing c d with
  | nil => exact h
  | cons hsession _ ih => exact ih (h.addRow hr hsession)

theorem forall₂_getElem? {α β : Type} {R : α → β → Prop} {as : List α} {bs : List β}
    (h : List.Forall₂ R as bs) (i : Nat) : Option.Rel R as[i]? bs[i]? := by
  induction h generalizing i with
  | nil => exact .none
  | cons hab _ ih =>
      cases i with
      | zero => exact .some hab
      | succ i => exact ih i

/-! ## Calls -/

theorem Client.Alike.finish {x y : Js Unit} (hxy : Agree (Client.Alike r) x y)
    (h : c.Alike r d) : (finish (x.run c)).Alike r (finish (y.run d)) := by
  have hrun := hxy c d h
  generalize x.run c = ended at hrun ⊢
  generalize y.run d = ended' at hrun ⊢
  cases hrun with
  | ret _ h => exact h
  | throw _ h => exact h
  | fault f => exact f.elim

theorem agree_print (hr : AppendCongr r) {what what' : Client → String}
    (hwhat : ∀ c d : Client, c.Alike r d → r (what c) (what' d)) :
    Agree (Client.Alike r) (modify fun c => c.print (what c) : Js Unit)
      (modify fun c => c.print (what' c)) :=
  .modify fun c d h => h.print hr (hwhat c d h)

theorem agree_stopLocalStream : Agree (Client.Alike r) stopLocalStream stopLocalStream := by
  refine .read fun c d h => ?_
  rw [h.localStream]
  cases c.localStream with
  | none => exact .raise _
  | some stream => exact .pure _

theorem agree_endCall : Agree (Client.Alike r) endCall endCall :=
  agree_stopLocalStream.bind fun _ => plain_replacePc.agree

theorem agree_getPc : Agree (Client.Alike r) getPc getPc := by
  refine .read fun c d h => ?_
  have hpc : d.pc = c.pc := by cases h; rfl
  rw [hpc]
  cases c.pc with
  | none => exact .raise _
  | some pc => exact .pure _

theorem agree_updatePc (f : PeerConnection → PeerConnection) :
    Agree (Client.Alike r) (modify (·.updatePc f) : Js Unit) (modify (·.updatePc f)) :=
  Plain.agree fun _ _ => rfl

theorem agree_addTracks : Agree (Client.Alike r) addTracks addTracks := by
  refine .read fun c d h => ?_
  rw [h.localStream]
  cases c.localStream with
  | none => exact .raise _
  | some stream =>
      refine agree_getPc.bind fun pc => ?_
      split
      · exact .raise _
      · exact agree_updatePc _

theorem agree_signal (started : Id) (msg : Name → String → Nat → Option Description → Message) :
    Agree (Client.Alike r) (signal started msg) (signal started msg) := by
  refine .read fun c d h => ?_
  rw [h.peerRemoteId]
  exact Agree.bind (.ofExcept _) fun _ => agree_getPc.bind fun _ => Plain.agree fun _ _ => rfl

theorem agree_await (fn : AsyncFn) (started : Id) (awaits : PeerConnection → Awaited) :
    Agree (Client.Alike r) (await fn started awaits) (await fn started awaits) :=
  agree_getPc.bind fun _ => Plain.agree fun _ _ => rfl

theorem agree_orFail (hr : AppendCongr r) {x : Js Unit} (hx : Agree (Client.Alike r) x x) :
    Agree (Client.Alike r) (orFail x) (orFail x) :=
  hx.tryCatch fun _ => agree_print hr fun _ _ _ => hr.refl _

theorem agree_call (hr : AppendCongr r) : Agree (Client.Alike r) call call := by
  refine .read fun c d h => ?_
  have hstate : Plain fun c => (c.setPeerRemoteId c.remoteId).setCallState .calling := by
    have hpeer : Plain fun c => c.setPeerRemoteId c.remoteId := fun _ _ => rfl
    exact hpeer.comp (plain_setCallState .calling)
  have hselect : Plain fun c => c.updateRemoteId c.remoteId := fun _ _ => rfl
  rw [h.remoteId]
  refine hstate.agree.bind fun _ => hselect.agree.bind fun _ => Agree.bind ?_ fun _ =>
    Agree.bind ?_ fun _ => Agree.bind ?_ fun _ => agree_orFail hr (agree_await _ _ _)
  · refine .modify fun c d h => h.setPeerRemoteUserName ?_
    rw [h.peerRemoteId]
    exact h.getUserNameFromId _
  · refine agree_print hr fun c d h => hr.append (hr.append (hr.refl _) ?_) (hr.refl _)
    exact h.texts.peerRemoteUserName.toText hr
  · exact agree_addTracks.tryCatch fun _ => agree_print hr fun _ _ _ => hr.refl _

theorem agree_answer : Agree (Client.Alike r) answer answer := by
  refine agree_addTracks.bind fun _ => .read fun c d h => ?_
  rw [h.peerRemoteId]
  exact agree_await _ _ _

theorem agree_resumeCall (hr : AppendCongr r) (started : Id) (awaits : Awaited)
    (settled : Settled) :
    Agree (Client.Alike r) (resumeCall started awaits settled)
      (resumeCall started awaits settled) := by
  cases settled with
  | rejected reason =>
      have hfail := agree_orFail hr (.raise (.rejected reason))
      cases awaits <;> exact hfail
  | resolved sdp =>
      cases awaits with
      | creation => exact agree_orFail hr (agree_await _ _ _)
      | localDescription number description =>
          exact (agree_updatePc _).bind fun _ => agree_orFail hr (agree_signal _ _)

theorem agree_resumeAnswer (hr : AppendCongr r) (started : Id) (awaits : Awaited)
    (settled : Settled) :
    Agree (Client.Alike r) (resumeAnswer started awaits settled)
      (resumeAnswer started awaits settled) := by
  cases settled with
  | rejected reason =>
      have hfail : Agree (Client.Alike r) (raise (.rejected reason) : Js Unit)
        (raise (.rejected reason)) := .raise _
      cases awaits <;> exact hfail
  | resolved sdp =>
      cases awaits with
      | creation => exact agree_await _ _ _
      | localDescription number description =>
          have hselect : Plain fun c => c.updateRemoteId c.peerRemoteId := fun _ _ => rfl
          have hanswer : Plain (·.disableAnswer true) := fun _ _ => rfl
          refine (agree_updatePc _).bind fun _ => hselect.agree.bind fun _ => Agree.bind ?_ fun _ =>
            Agree.bind ?_ fun _ => (agree_signal _ _).bind fun _ => hanswer.agree
          · refine .modify fun c d h => ?_
            rw [h.peerRemoteId]
            exact h.highlightOnById _
          · refine agree_print hr fun c d h => ?_
            rw [h.peerRemoteId]
            exact hr.append (hr.append (hr.refl _) ((h.getUserNameFromId _).toText hr)) (hr.refl _)

theorem agree_resume (hr : AppendCongr r) (inv : Invocation) (settled : Settled) :
    Agree (Client.Alike r) (resume inv settled) (resume inv settled) := by
  rw [resume]
  cases inv.fn with
  | call => exact agree_resumeCall hr _ _ _
  | answer => exact agree_resumeAnswer hr _ _ _

theorem agree_announce (hr : AppendCongr r) (ringing calling connected : String) :
    Agree (Client.Alike r) (modify (·.announce ringing calling connected) : Js Unit)
      (modify (·.announce ringing calling connected)) :=
  .modify fun _ _ h => h.announce hr _ _ _

theorem agree_hangup (hr : AppendCongr r) : Agree (Client.Alike r) hangup hangup := by
  refine (agree_announce hr _ _ _).bind fun _ => agree_endCall.bind fun _ => .read fun c d h => ?_
  rw [h.peerRemoteId, h.userName]
  exact Agree.bind (.ofExcept _) fun _ => Plain.agree fun _ _ => rfl

theorem agree_onIceCandidateEvent (candidate : Option String) :
    Agree (Client.Alike r) (onIceCandidateEvent candidate) (onIceCandidateEvent candidate) := by
  cases candidate with
  | none => exact .pure _
  | some candidate =>
      refine .read fun c d h => ?_
      rw [h.peerRemoteId, h.userName]
      exact Agree.bind (.ofExcept _) fun _ => Plain.agree fun _ _ => rfl

theorem agree_setRemoteDescription (session : Option Description) :
    Agree (Client.Alike r) (setRemoteDescription session) (setRemoteDescription session) := by
  refine agree_getPc.bind fun _ => ?_
  cases session with
  | none => exact .raise _
  | some description => exact agree_updatePc _

/-! ## Messages -/

theorem agree_onCallMessage (hr : AppendCongr r) {name name' : Name} (hname : name.Alike r name')
    (sessionId : Nat) (session : Option Description) :
    Agree (Client.Alike r) (onCallMessage name sessionId session)
      (onCallMessage name' sessionId session) := by
  have hpeer : Plain (·.setPeerRemoteId (.num sessionId)) := fun _ _ => rfl
  refine (hpeer.comp (plain_setCallState .ringing)).agree.bind fun _ => Agree.bind ?_ fun _ =>
    Agree.bind ?_ fun _ => agree_setRemoteDescription session
  · exact .modify fun _ _ h => h.setPeerRemoteUserName hname
  · refine agree_print hr fun c d h => hr.append (hr.refl _) ?_
    exact h.texts.peerRemoteUserName.toText hr

theorem agree_onHangupMessage (hr : AppendCongr r) :
    Agree (Client.Alike r) onHangupMessage onHangupMessage :=
  (agree_announce hr _ _ _).bind fun _ => agree_endCall

theorem agree_detectVanishedSession (hr : AppendCongr r) {as bs : List Entry}
    (hsessions : List.Forall₂ (Entry.Alike r) as bs) :
    Agree (Client.Alike r) (detectVanishedSession as) (detectVanishedSession bs) := by
  refine .read fun c d h => ?_
  rw [h.callState, h.remoteId, forall₂_any hsessions]
  split
  · split
    · refine Agree.bind ?_ fun _ => Agree.bind (Plain.agree fun _ _ => rfl) fun _ => agree_endCall
      refine agree_print hr fun c d h => hr.append (hr.append (hr.refl _) ?_) (hr.refl _)
      exact h.texts.peerRemoteUserName.toText hr
    · exact .pure _
  · exact .pure _

theorem agree_onSessionsChangedMessage (hr : AppendCongr r) {as bs : List Entry}
    (hsessions : List.Forall₂ (Entry.Alike r) as bs) :
    Agree (Client.Alike r) (onSessionsChangedMessage as) (onSessionsChangedMessage bs) :=
  (agree_detectVanishedSession hr hsessions).bind fun _ =>
    .modify fun _ _ h => h.clearRemotesTable.foldl_addRow hr hsessions

theorem agree_onMessage (hr : AppendCongr r) {msg msg' : Message} (hmsg : msg.Alike r msg') :
    Agree (Client.Alike r) (onMessage msg) (onMessage msg') := by
  cases hmsg with
  | same =>
      cases msg with
      | sessionID id => exact (plain_onSessionID id).agree
      | sessionsChanged sessions =>
          exact agree_onSessionsChangedMessage hr (List.forall₂_same.mpr fun _ _ =>
            ⟨rfl, hr.refl _⟩)
      | call name _ sessionId session => exact agree_onCallMessage hr (.same name) _ _
      | answer _ _ _ session => exact agree_setRemoteDescription session
      | hangup => exact agree_onHangupMessage hr
      | localIdChanged | iceCandidate => exact .pure _
      | heartbeat => exact Plain.agree fun _ _ => rfl
      | registerSession | localIdEvent | other => exact agree_print hr fun _ _ _ => hr.refl _
  | sessionsChanged h => exact agree_onSessionsChangedMessage hr h
  | call h => exact agree_onCallMessage hr h _ _
  | answer => exact agree_setRemoteDescription _
  | hangup => exact agree_onHangupMessage hr
  | iceCandidate => exact .pure _

/-! ## Events -/

theorem Client.Alike.heartbeat (hr : AppendCongr r) (h : c.Alike r d) :
    c.heartbeat.Alike r d.heartbeat := by
  have hlost : ∀ {c d : Client} (what : String), c.Alike r d →
      ((((c.print what).clearHeartbeat).clearRemotesTable).disableButtons).Alike r
        ((((d.print what).clearHeartbeat).clearRemotesTable).disableButtons) := fun what h =>
    plain_disableButtons.alike
      (plain_clearHeartbeat.alike (h.print hr (hr.refl what))).clearRemotesTable
  have hcount : ∀ {c d : Client}, c.Alike r d →
      Client.Alike r
        (if Client.heartbeatMaxMissing ≤ c.heartbeatsMissed then
          (((c.print "Signaling server vanished!").clearHeartbeat).clearRemotesTable).disableButtons
        else c)
        (if Client.heartbeatMaxMissing ≤ d.heartbeatsMissed then
          (((d.print "Signaling server vanished!").clearHeartbeat).clearRemotesTable).disableButtons
        else d) := by
    intro c d h
    have hmissed : d.heartbeatsMissed = c.heartbeatsMissed := by cases h; rfl
    rw [hmissed]
    split
    · exact hlost _ h
    · exact h
  have hmiss : Plain fun c => { c with heartbeatsMissed := c.heartbeatsMissed + 1 } :=
    fun _ _ => rfl
  have hsend : Plain fun c => c.send (.heartbeat c.sessionID) := fun _ _ => rfl
  rw [Client.heartbeat, Client.heartbeat]
  by_cases hc : c.socketClosed
  · rw [if_pos hc, if_pos (h.socketClosed.trans hc), h.sessionID]
    exact hlost _ h
  · rw [if_neg hc, if_neg fun hd => hc (h.socketClosed.symm.trans hd)]
    exact hsend.alike (hcount (hmiss.alike h))

theorem Client.Alike.onClose (hr : AppendCongr r) (h : c.Alike r d) (wasClean : Bool) :
    (c.onClose wasClean).Alike r (d.onClose wasClean) := by
  have hclose : Plain fun c => { c with socketClosed := true } := fun _ _ => rfl
  cases wasClean with
  | true => exact hclose.alike h
  | false => exact (hclose.alike h).print hr (hr.refl _)

theorem Client.Alike.onConnectionStateChange (hr : AppendCongr r) (h : c.Alike r d)
    (state : String) :
    (c.onConnectionStateChange state).Alike r (d.onConnectionStateChange state) := by
  rw [Client.onConnectionStateChange, Client.onConnectionStateChange, h.peerRemoteId]
  split
  · exact (plain_setCallState .connected).alike
      (h.print hr (hr.append (hr.refl _) ((h.getUserNameFromId _).toText hr)))
  · exact h

theorem Client.Alike.click {listener : Js Unit} (h : c.Alike r d) (disabled : Bool)
    (hlistener : Agree (Client.Alike r) listener listener) :
    (c.click disabled listener).Alike r (d.click disabled listener) := by
  cases disabled with
  | true => exact h
  | false => exact plain_onControlsClick.alike (.finish hlistener h)

theorem Client.Alike.message (hr : AppendCongr r) (h : c.Alike r d) {msg msg' : Message}
    (hmsg : Message.Alike r msg msg') :
    (c.after (.message msg)).Alike r (d.after (.message msg')) := by
  rw [Client.after, Client.after, h.socketClosed]
  split
  · exact h
  · exact .finish (agree_onMessage hr hmsg) h

theorem Client.Alike.rowClick (h : c.Alike r d) (i : Nat) :
    (c.after (.rowClick i)).Alike r (d.after (.rowClick i)) := by
  have hrows : List.Forall₂ (Row.Alike r) c.rows d.rows := h.texts.rows
  have hrow := forall₂_getElem? hrows i
  rw [Client.after, Client.after]
  generalize c.rows[i]? = row at hrow
  generalize d.rows[i]? = row' at hrow
  cases hrow with
  | none => exact h
  | some hrow => exact plain_onControlsClick.alike (h.onTableRowClickEvent hrow)

theorem Client.Alike.settle (hr : AppendCongr r) (h : c.Alike r d) (i : Nat)
    (settled : Settled) :
    (c.after (.settle i settled)).Alike r (d.after (.settle i settled)) := by
  have hsuspended : d.suspended = c.suspended := by cases h; rfl
  have hresume : Plain fun c => { c with suspended := c.suspended.eraseIdx i } :=
    fun _ _ => rfl
  rw [Client.after, Client.after, hsuspended]
  cases c.suspended[i]? with
  | none => exact h
  | some inv =>
      have hrest := Client.Alike.finish (agree_resume hr inv settled) (hresume.alike h)
      rwa [hsuspended] at hrest

/-- Where pages differ in texts, an event that differs in names keeps it so. -/
theorem Client.Alike.after (hr : AppendCongr r) (h : c.Alike r d) {e e' : Event}
    (he : e.Alike r e') : (c.after e).Alike r (d.after e') := by
  cases he with
  | message hmsg => exact h.message hr hmsg
  | same =>
      cases e with
      | message msg => exact h.message hr (.same msg)
      | rowClick i => exact h.rowClick i
      | callClick =>
          have hdisabled : d.callDisabled = c.callDisabled := by cases h; rfl
          rw [Client.after, Client.after, hdisabled]
          exact h.click _ (agree_call hr)
      | answerClick =>
          have hdisabled : d.answerDisabled = c.answerDisabled := by cases h; rfl
          rw [Client.after, Client.after, hdisabled]
          exact h.click _ agree_answer
      | hangupClick =>
          have hdisabled : d.hangupDisabled = c.hangupDisabled := by cases h; rfl
          rw [Client.after, Client.after, hdisabled]
          exact h.click _ (agree_hangup hr)
      | controlsClick => exact plain_onControlsClick.alike h
      | settle i settled => exact h.settle hr i settled
      | userMedia granted => exact (plain_onUserMedia granted).alike h
      | connectionState state => exact h.onConnectionStateChange hr state
      | iceCandidate candidate => exact .finish (agree_onIceCandidateEvent candidate) h
      | iceCandidateError text => exact h.print hr (hr.refl _)
      | ended i =>
          have hsources : d.sources = c.sources := by cases h; rfl
          rw [Client.after, Client.after, hsources]
          cases c.sources[i]? with
          | none => exact h
          | some source => exact (plain_onEnded source).alike h
      | timer i =>
          have htimers : d.timers = c.timers := by cases h; rfl
          rw [Client.after, Client.after, htimers]
          cases c.timers[i]? with
          | none => exact h
          | some _ => exact h.heartbeat hr
      | close wasClean => exact h.onClose hr wasClean

/-- Runs that differ in names lead to pages that differ in texts. -/
theorem Client.Alike.run (hr : AppendCongr r) (h : c.Alike r d) {es es' : List Event}
    (hes : List.Forall₂ (Event.Alike r) es es') {c' : Client}
    (hrun : Transition.run step c es = .ok c') :
    ∃ d', Transition.run step d es' = .ok d' ∧ c'.Alike r d' := by
  refine Transition.run_related (R := Client.Alike r) ?_ h hes hrun
  intro c d e e' c' h he hstep
  cases hstep
  exact ⟨_, rfl, h.after hr he⟩

end

end Mgws.Browser
