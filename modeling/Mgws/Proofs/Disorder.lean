import Mgws.Proofs.Agreement
/-!
# What disorder leads to

An act that is not orderly leaves a page that will ring for a page that is out of the
call.  Once everything in flight has arrived and everything suspended is refused, the
pages disagree.
-/

namespace Mgws.Browser

open Lib

/-- What happens when the users wait: messages arrive and operations are refused. -/
inductive Act.Settles : Act → Prop
  | deliver (x : Bool) : Settles (.deliver x)
  | reject (x : Bool) (i : Nat) (reason : String) :
      Settles (.event x (.settle i (.rejected reason)))

/-- `x` will ring, and the other page is not in a call. -/
def Pair.Forsaken (s : Pair) (x : Bool) : Prop := Dialogue.Forsaken Rings Calls s.side x

/-! ## Pages that ring -/

def Line.Caller (l : Line) : Prop := l.callState = .ringing → l.peerRemoteId.number?.isSome

theorem Did.caller {c : Client} {e : Event} {l : Line} (hdid : Did c e l) (h : c.line.Caller) :
    l.Caller := by
  cases hdid with
  | nothing | signalled => exact h
  | rang => exact fun _ => rfl
  | selected | dialled | connected => exact fun hring => by cases hring
  | hungUp =>
      intro hring
      rw [Line.send, Line.ended_callState] at hring
      cases hring
  | released | vanished =>
      intro hring
      rw [Line.ended_callState] at hring
      cases hring

theorem reachable_caller {c : Client} (h : Reachable c) : c.line.Caller := by
  obtain ⟨storedName, host, hrun⟩ := h
  refine hrun.invariant (I := fun c => c.line.Caller) ?_ fun c c' e _ hcaller _ hstep => ?_
  · intro hring
    cases hring
  · cases hstep
    exact (after_did c e).caller hcaller

/-! ## A disorderly act -/

theorem Line.not_calls {l : Line}
    (h : l.callState = .idle ∨ l.callState = .identified ∨ l.callState = .ringing) :
    ¬Calls l.phase := by
  rintro ⟨hstate, -⟩
  have hstate : l.callState = .calling ∨ l.callState = .connected := hstate
  rcases h with h | h | h <;> rw [h] at hstate <;> exact absurd hstate (by decide)

section

variable {id : Bool → Nat} {s : Pair} {x y : Bool} {msg : Message} {rest : List Message}

theorem forsaken_of_deliver (hwf : s.Wf id) (hinbox : s.inbox x = msg :: rest)
    (hmay : ¬s.MayProcess x rest msg) :
    ∃ y, ((s.taken x rest).dispatch x (.message msg)).Forsaken y := by
  simp only [Pair.Forsaken, s.side_deliver hwf hinbox]
  cases msg with
  | call userName targetId sessionId session =>
      exact ⟨!x, Dialogue.forsaken_of_leave (not_not.mp hmay)
        (Line.not_calls (.inr (.inr rfl)))⟩
  | hangup userName targetId =>
      simp only [Pair.MayProcess] at hmay
      rw [Client.lineArrived, Client.lineEnded]
      split at hmay
      · next hstream =>
          rw [if_pos hstream]
          exact ⟨!x, Dialogue.forsaken_of_leave (not_not.mp hmay)
            (Line.not_calls (.inl (Line.ended_callState _)))⟩
      · next hstream =>
          rw [if_neg hstream]
          obtain ⟨hring, hmay⟩ := Classical.not_imp.mp hmay
          obtain ⟨hrest, hcalls⟩ := Classical.not_imp.mp hmay
          rw [hrest]
          exact ⟨x, Dialogue.forsaken_of_unheard hring hcalls⟩
  | _ => exact absurd trivial hmay

theorem forsaken_of_rowClick {i : Nat} (hwf : s.Wf id) (hi : i < (s.page x).rows.length)
    (hring : s.WillRing !x) : (s.dispatch x (.rowClick i)).Forsaken !x := by
  have hline := line_rowClick (List.getElem?_eq_getElem hi)
  rw [Pair.Forsaken, s.side_dispatch_of_quiet hwf hline (List.append_nil _).symm fun _ => rfl]
  exact Dialogue.forsaken_of_leave hring (Line.not_calls (.inr (.inl rfl)))

/-- A Call leaves a page that is not in a call. -/
theorem forsaken_of_settle {i number : Nat} {sdp : String} {inv : Invocation}
    {description : Description} (hwf : s.Wf id) (hid : id x ≠ id !x)
    (hpage : Reachable (s.page x)) (hinv : (s.page x).suspended[i]? = some inv)
    (hfn : inv.fn = .call) (hawaits : inv.awaits = .localDescription number description)
    (hpeer : (s.page x).HasPeer)
    (hstate : ¬((s.page x).callState = .calling ∨ (s.page x).callState = .connected)) :
    (s.dispatch x (.settle i (.resolved sdp))).Forsaken !x := by
  have hseated := hwf.seated x
  have hme : (s.page x).sessionID = id x := hseated.sessionID
  obtain ⟨m, hm, -⟩ := (reachable_numbered hpage).current
  obtain ⟨pc, hpc, -⟩ := Option.map_eq_some_iff.mp hm
  obtain ⟨session, hline⟩ :=
    line_settle sdp hinv hawaits (hseated.number?_peerRemoteId hpeer) hpc
  have hsent : ((s.page x).lineSignalled inv (id !x) session).sent =
      (s.page x).sent ++ [.call (s.page x).userName (id !x).repr (id x) session] := by
    rw [Client.lineSignalled, hfn, hme]
    rfl
  rw [Pair.Forsaken, s.side_dispatch_of_signal hwf hid hline hsent (signals_call _ _),
    side_lineSignalled]
  exact Dialogue.forsaken_of_offer fun hcalls => hstate hcalls.1

theorem forsaken_of_disorder {a : Act} (hwf : s.Wf id) (hid : ∀ x, id x ≠ id !x)
    (hpages : ∀ x, Reachable (s.page x)) (horderly : ¬s.Orderly a) :
    ∃ y, (s.after a).Forsaken y := by
  cases a with
  | deliver x =>
      simp only [Pair.Orderly, not_forall] at horderly
      obtain ⟨msg, rest, hinbox, hmay⟩ := horderly
      rw [Pair.after, hinbox]
      exact forsaken_of_deliver hwf hinbox hmay
  | event x e =>
      cases e with
      | rowClick i =>
          obtain ⟨hi, hring⟩ := Classical.not_imp.mp horderly
          exact ⟨!x, forsaken_of_rowClick hwf hi (not_not.mp hring)⟩
      | settle i settled =>
          cases settled with
          | rejected reason => exact absurd trivial horderly
          | resolved sdp =>
              simp only [Pair.Orderly, not_forall] at horderly
              obtain ⟨inv, number, description, hinv, hfn, hawaits, hpeer, hstate⟩ := horderly
              exact ⟨!x, forsaken_of_settle hwf (hid x) (hpages x) hinv hfn hawaits hpeer hstate⟩
      | _ => exact absurd trivial horderly

/-! ## Waiting does not help -/

theorem not_calls_lineArrived {c : Client} (h : ¬Calls c.phase) (msg : Message) :
    ¬Calls (c.lineArrived msg).phase := by
  cases msg with
  | call => exact Line.not_calls (.inr (.inr rfl))
  | hangup =>
      rw [Client.lineArrived, Client.lineEnded]
      split
      · exact Line.not_calls (.inl (Line.ended_callState _))
      · exact h
  | _ => exact h

theorem Pair.Forsaken.deliver (h : s.Forsaken x) (hwf : s.Wf id)
    (hinbox : s.inbox y = msg :: rest) :
    ((s.taken y rest).dispatch y (.message msg)).Forsaken x := by
  have hpending : (s.side y).pending = (msg :: rest).filterMap Message.signal? := by
    rw [← hinbox]
    rfl
  rw [Pair.Forsaken, s.side_deliver hwf hinbox]
  rcases Dialogue.eq_or_eq_not y x with rfl | rfl
  · cases msg with
    | call => exact Dialogue.Forsaken.receive h hpending fun _ => rfl
    | hangup => exact Dialogue.Forsaken.receive h hpending fun hsignal => by cases hsignal
    | _ =>
        have hsame : Function.update s.side x (s.side x) = s.side := Function.update_eq_self x _
        exact hpending ▸ hsame.symm ▸ h
  · have hstate := h.2
    rw [Bool.not_not] at hstate
    exact Dialogue.forsaken_of_leave h.1 (not_calls_lineArrived hstate msg)

section

variable {me other : Nat} {c : Client}

theorem line_reject (i : Nat) (reason : String) :
    (c.after (.settle i (.rejected reason))).line = c.line := by
  cases hinv : c.suspended[i]? with
  | none => rw [Client.after, hinv]
  | some inv =>
      rw [after_settle hinv]
      exact (keepsLine_resume fun _ _ _ _ hsettled => by cases hsettled).finish
        { c with suspended := c.suspended.eraseIdx i }

theorem suspended_reject (i : Nat) (reason : String) :
    (c.after (.settle i (.rejected reason))).suspended = c.suspended.eraseIdx i := by
  cases hinv : c.suspended[i]? with
  | none =>
      rw [Client.after, hinv, List.eraseIdx_of_length_le (List.getElem?_eq_none_iff.mp hinv)]
  | some inv =>
      have hkeeps : Keeps (·.suspended) (resume inv (.rejected reason)) := by
        rw [resume]
        cases inv.fn with
        | call => cases inv.awaits <;> exact (keeps_raise _).orFail fun _ _ => rfl
        | answer => cases inv.awaits <;> exact keeps_raise _
      rw [after_settle hinv]
      exact hkeeps.finish { c with suspended := c.suspended.eraseIdx i }

end

theorem Pair.Forsaken.reject (h : s.Forsaken x) (hwf : s.Wf id) (i : Nat) (reason : String) :
    (s.dispatch y (.settle i (.rejected reason))).Forsaken x := by
  have hsame : Function.update s.side y (s.side y) = s.side := Function.update_eq_self y _
  rw [Pair.Forsaken, s.side_dispatch_of_quiet hwf (line_reject i reason)
    (List.append_nil _).symm fun _ => rfl]
  exact hsame.symm ▸ h

/-! ## How long to wait -/

theorem Pair.inbox_dispatch {e : Event} (hsent : ((s.page x).after e).sent = (s.page x).sent) :
    (s.dispatch x e).inbox = s.inbox := by
  funext y
  show s.inbox y ++ (((s.page x).after e).sent.drop _).filter _ = s.inbox y
  rw [hsent, List.drop_length, List.filter_nil, List.append_nil]

/-- The messages in flight to a page and the operations suspended on it. -/
def Pair.loadOf (s : Pair) (x : Bool) : Nat :=
  (s.inbox x).length + (s.page x).suspended.length

def Pair.load (s : Pair) : Nat := s.loadOf false + s.loadOf true

theorem Pair.load_lt {t : Pair} (hself : t.loadOf x < s.loadOf x)
    (hother : ∀ y, y ≠ x → t.loadOf y = s.loadOf y) : t.load < s.load := by
  rw [Pair.load, Pair.load]
  cases x with
  | false =>
      rw [hother true (by decide)]
      omega
  | true =>
      rw [hother false (by decide)]
      omega

theorem load_deliver (hwf : s.Wf id) (hinbox : s.inbox x = msg :: rest) :
    ((s.taken x rest).dispatch x (.message msg)).load < s.load := by
  have hfrom : msg.From (id !x) := hwf.inbox x msg (by rw [hinbox]; exact List.mem_cons_self)
  have hseated := hwf.seated x
  have hsent : ((s.page x).after (.message msg)).sent = (s.page x).sent :=
    (congrArg Line.sent (hseated.line_message hfrom)).trans (lineArrived_sent msg)
  have hbox := Pair.inbox_dispatch (s := s.taken x rest) hsent
  refine Pair.load_lt (x := x) ?_ fun y hy => ?_
  · rw [Pair.loadOf, Pair.loadOf, hbox, Pair.inbox_taken_self, hinbox, Pair.page_dispatch_self]
    show rest.length + ((s.page x).after (.message msg)).suspended.length < _
    rw [hseated.after_message, (keepsSuspended_onMessage msg).finish, List.length_cons]
    omega
  · rw [Pair.loadOf, Pair.loadOf, hbox, Pair.inbox_taken_of_ne hy, Pair.page_dispatch_of_ne hy]
    rfl

theorem load_reject (hsuspended : (s.page x).suspended ≠ []) (reason : String) :
    (s.dispatch x (.settle 0 (.rejected reason))).load < s.load := by
  have hsent : ((s.page x).after (.settle 0 (.rejected reason))).sent = (s.page x).sent :=
    congrArg Line.sent (line_reject 0 reason)
  have hpos : 0 < (s.page x).suspended.length := List.length_pos_of_ne_nil hsuspended
  refine Pair.load_lt (x := x) ?_ fun y hy => ?_
  · rw [Pair.loadOf, Pair.loadOf, Pair.inbox_dispatch hsent, Pair.page_dispatch_self,
      suspended_reject, List.length_eraseIdx_of_lt hpos]
    omega
  · rw [Pair.loadOf, Pair.loadOf, Pair.inbox_dispatch hsent, Pair.page_dispatch_of_ne hy]

/-! ## The end of it -/

structure Pair.Sane (id : Bool → Nat) (s : Pair) : Prop where
  wf : s.Wf id
  pages : ∀ x, Reachable (s.page x)

theorem Reachable.after {c : Client} (h : Reachable c) (e : Event) : Reachable (c.after e) := by
  obtain ⟨storedName, host, hrun⟩ := h
  exact ⟨storedName, host, hrun.step trivial rfl⟩

theorem Pair.pages_dispatch (h : ∀ x, Reachable (s.page x)) (e : Event) (y : Bool) :
    Reachable ((s.dispatch x e).page y) := by
  by_cases hy : y = x
  · subst hy
    rw [Pair.page_dispatch_self]
    exact (h y).after e
  · rw [Pair.page_dispatch_of_ne hy]
    exact h y

theorem Pair.Sane.after (h : s.Sane id) (hid : ∀ x, id x ≠ id !x) (a : Act) :
    (s.after a).Sane id := by
  refine ⟨h.wf.after hid a, ?_⟩
  cases a with
  | event x e =>
      rw [Pair.after]
      split
      · exact Pair.pages_dispatch h.pages e
      · exact h.pages
  | deliver x =>
      rw [Pair.after]
      split
      · exact h.pages
      · next msg rest hinbox => exact Pair.pages_dispatch (s := s.taken x rest) h.pages _

/-- While anything is in flight or suspended there is something to wait for. -/
theorem exists_settles (hsane : s.Sane id) (hquiet : ¬s.Quiet) :
    ∃ a, Act.Settles a ∧ (s.after a).load < s.load ∧
      ∀ x, s.Forsaken x → (s.after a).Forsaken x := by
  simp only [Pair.Quiet, not_forall, not_and_or] at hquiet
  obtain ⟨y, hinbox | hsuspended⟩ := hquiet
  · obtain ⟨msg, rest, hinbox⟩ := List.exists_cons_of_ne_nil hinbox
    have hafter : s.after (.deliver y) = (s.taken y rest).dispatch y (.message msg) := by
      rw [Pair.after, hinbox]
      rfl
    refine ⟨.deliver y, .deliver y, ?_⟩
    rw [hafter]
    exact ⟨load_deliver hsane.wf hinbox, fun x hx => hx.deliver hsane.wf hinbox⟩
  · exact ⟨.event y (.settle 0 (.rejected "")), .reject y 0 "", load_reject hsuspended "",
      fun x hx => hx.reject hsane.wf 0 ""⟩

theorem Pair.Forsaken.not_agreed (h : s.Forsaken x) (hsane : s.Sane id) (hquiet : s.Quiet) :
    ¬s.Agreed := by
  intro hagreed
  have hring : (s.page x).callState = .ringing := (Dialogue.awaits_nil (by
    rw [Pair.side, (hquiet x).1]
    rfl)).mp h.1
  have hpeer := (hsane.wf.seated x).number?_peerRemoteId (reachable_caller (hsane.pages x) hring)
  have hother : (s.page !x).sessionID = id !x := (hsane.wf.seated !x).sessionID
  obtain ⟨hstate, hback⟩ := hagreed hquiet x hring (by rw [hpeer, hother])
  exact h.2 ⟨hstate, Option.isSome_of_eq_some hback⟩

/-- A pair with a forsaken page comes to disagree when the users only wait. -/
theorem Pair.Forsaken.disagrees (h : s.Forsaken x) (hsane : s.Sane id)
    (hid : ∀ x, id x ≠ id !x) :
    ∃ acts, (∀ a ∈ acts, Act.Settles a) ∧
      ∃ t, Transition.run Pair.step s acts = .ok t ∧ ¬t.Agreed := by
  obtain ⟨n, hn⟩ : ∃ n, n = s.load := ⟨_, rfl⟩
  induction n using Nat.strongRecOn generalizing s with
  | ind n ih =>
      by_cases hquiet : s.Quiet
      · exact ⟨[], by simp, s, rfl, h.not_agreed hsane hquiet⟩
      · obtain ⟨a, hsettles, hload, hkeeps⟩ := exists_settles hsane hquiet
        obtain ⟨acts, hacts, t, hrun, ht⟩ :=
          ih (s.after a).load (hn ▸ hload) (hkeeps x h) (hsane.after hid a) rfl
        exact ⟨a :: acts, List.forall_mem_cons.mpr ⟨hsettles, hacts⟩, t, hrun, ht⟩

theorem joined_sane (storedName : Bool → Name) (host : Bool → String)
    (userName : Bool → String) : (Pair.joined id storedName host userName).Sane id := by
  refine ⟨(joined_sound storedName host userName).wf, fun x => ?_⟩
  have hloaded : Reachable (loaded (storedName x) (host x)) := ⟨storedName x, host x, .init⟩
  exact (hloaded.after (.message (.sessionID (id x)))).after (.message (.sessionsChanged _))

/-- After an act that is not orderly the users need only wait for the pages to disagree. -/
theorem disagreement_of_disorder (hid : ∀ x, id x ≠ id !x) (storedName : Bool → Name)
    (host : Bool → String) (userName : Bool → String) (acts : List Act) (a : Act)
    (hrun : Transition.run Pair.step (Pair.joined id storedName host userName) acts = .ok s)
    (horderly : ¬s.Orderly a) :
    ∃ rest, (∀ b ∈ rest, Act.Settles b) ∧ ¬Transition.Always Pair.step Pair.Agreed
      (Pair.joined id storedName host userName) (acts ++ a :: rest) := by
  have hsane : s.Sane id := by
    refine (Transition.reachable_of_run acts hrun).invariant (I := Pair.Sane id)
      (joined_sane storedName host userName) fun t t' b _ ht _ hstep => ?_
    cases hstep
    exact ht.after hid b
  obtain ⟨y, hy⟩ := forsaken_of_disorder hsane.wf hid hsane.pages horderly
  obtain ⟨rest, hrest, t, hlast, ht⟩ := hy.disagrees (hsane.after hid a) hid
  refine ⟨rest, hrest, fun halways => ht (halways.last ?_)⟩
  rw [Transition.run_append hrun]
  exact hlast

end

end Mgws.Browser
