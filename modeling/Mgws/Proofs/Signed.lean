import Mgws.Proofs.Format
import Mgws.Proofs.Known
import Mgws.Proofs.Pulse
/-!
# What a page signs

Every message of a page carries the id and the name of the page and goes to a session that the
page was told of.
-/

namespace Mgws.Browser

open Lib Program

/-- The message carries the id and the name of the page that sends it, and goes to a session
in `S`. -/
def Message.Signed (me : Nat) (S : Nat → Prop) (name : Name) : Message → Prop
  | registerSession id _ _ | heartbeat id => id = me
  | localIdEvent id userName => id = me ∧ userName = name
  | call userName targetId id _ | answer userName targetId id _ =>
      userName = name ∧ id = me ∧ ∃ n, S n ∧ targetId = n.repr
  | hangup userName targetId | iceCandidate userName targetId _ =>
      userName = name ∧ ∃ n, S n ∧ targetId = n.repr
  | _ => False

/-- The page of session `me` when it has read `n` texts.  It knows of sessions in `S` only, of
none before it knows its own, and signs what it sends. -/
structure Client.Sound (me : Nat) (S : Nat → Prop) (n : Nat) (c : Client) : Prop where
  fresh : n = 0 → c.timers = [] ∧ Knows (fun _ => False) c
  told : 0 < n → c.sessionID = me
  knows : Knows S c
  sent : ∀ msg ∈ c.sent, msg.Signed me S c.userName

section

variable {me n : Nat} {S T : Nat → Prop} {c : Client} {e : Event} {msg : Message} {name : Name}

theorem Message.Signed.mono (h : msg.Signed me S name) (hST : ∀ m, S m → T m) :
    msg.Signed me T name := by
  cases msg with
  | call | answer =>
      obtain ⟨hname, hid, m, hm, htarget⟩ := h
      exact ⟨hname, hid, m, hST m hm, htarget⟩
  | hangup | iceCandidate =>
      obtain ⟨hname, m, hm, htarget⟩ := h
      exact ⟨hname, m, hST m hm, htarget⟩
  | _ => exact h

theorem Message.Signed.isSent (h : msg.Signed me S name) : msg.IsSent := by
  cases msg with
  | call | answer =>
      obtain ⟨-, -, m, -, htarget⟩ := h
      exact ⟨m, htarget⟩
  | hangup | iceCandidate =>
      obtain ⟨-, m, -, htarget⟩ := h
      exact ⟨m, htarget⟩
  | registerSession | localIdEvent | heartbeat => trivial
  | _ => exact h.elim

theorem Knows.mono (h : Knows S c) (hST : ∀ m, S m → T m) : Knows T c :=
  ⟨fun row hrow => hST _ (h.rows row hrow), h.made, fun m hm => hST m (h.remoteId m hm),
    fun m hm => hST m (h.peerRemoteId m hm)⟩

theorem Client.Sound.mono (h : c.Sound me S n) (hST : ∀ m, S m → T m) : c.Sound me T n :=
  ⟨h.fresh, h.told, h.knows.mono hST, fun msg hmsg => (h.sent msg hmsg).mono hST⟩

/-- A page that has a peer knows its own id. -/
theorem Client.Sound.sessionID_of_peer (h : c.Sound me S n) {m : Nat}
    (hm : c.peerRemoteId.number? = some m) : c.sessionID = me := by
  refine h.told (Nat.pos_of_ne_zero fun hn => ?_)
  exact (h.fresh hn).2.peerRemoteId m hm

theorem Client.Sound.signed (h : c.Sound me S n) (htold : ∀ id, e = .message (.sessionID id) →
    id = me) (htimer : ∀ i, e = .timer i → c.sessionID = me) (hmsg : Says c e msg) :
    msg.Signed me S c.userName := by
  cases hmsg with
  | registers => exact htold _ rfl
  | identifies => exact ⟨htold _ rfl, rfl⟩
  | beats => exact htimer _ rfl
  | @signals _ _ inv m session hinv hpeer =>
      have hid := h.sessionID_of_peer hpeer
      cases inv.fn <;> exact ⟨rfl, hid, m, h.knows.peerRemoteId m hpeer, rfl⟩
  | @hangsUp m hpeer => exact ⟨rfl, m, h.knows.peerRemoteId m hpeer, rfl⟩
  | @offers _ m hpeer => exact ⟨rfl, m, h.knows.peerRemoteId m hpeer, rfl⟩

theorem Client.Sound.sent_after (h : c.Sound me S n) (htold : ∀ id, e = .message (.sessionID id) →
    id = me) : ∀ msg ∈ (c.after e).sent, msg.Signed me S (c.after e).userName := by
  intro msg hmsg
  rw [(identity_after c e).1]
  by_cases htimer : ∀ i, e = .timer i → c.sessionID = me
  · obtain ⟨msgs, hsent, hsaid⟩ := after_says c e
    rw [hsent] at hmsg
    rcases List.mem_append.mp hmsg with hold | hnew
    · exact h.sent msg hold
    · exact h.signed htold htimer (hsaid msg hnew)
  · push Not at htimer
    obtain ⟨i, rfl, hid⟩ := htimer
    -- without an id there is no timer yet
    have hn : n = 0 := by
      by_contra hpos
      exact hid (h.told (Nat.pos_of_ne_zero hpos))
    rw [Client.after, (h.fresh hn).1] at hmsg
    exact h.sent msg hmsg

theorem timers_after (htimers : c.timers = []) (he : e.isMessage = false) :
    (c.after e).timers = [] := by
  rcases Link.timers_length_le c e with hle | ⟨id, rfl, -⟩
  · rw [htimers] at hle
    exact List.eq_nil_of_length_eq_zero (Nat.le_zero.mp hle)
  · cases he

theorem Client.Sound.event (h : c.Sound me S n) (he : e.isMessage = false) :
    (c.after e).Sound me S n := by
  have hmessage : ∀ msg, e ≠ .message msg := by
    rintro msg rfl
    cases he
  refine ⟨fun hn => ?_, fun hn => ?_, ?_, ?_⟩
  · obtain ⟨htimers, hknows⟩ := h.fresh hn
    exact ⟨timers_after htimers he, hknows.after fun msg heq => absurd heq (hmessage msg)⟩
  · rcases (identity_after c e).2 with hsame | ⟨id, heq, -⟩
    · exact hsame.trans (h.told hn)
    · exact absurd heq (hmessage _)
  · exact h.knows.after fun msg heq => absurd heq (hmessage msg)
  · exact h.sent_after fun id heq => absurd heq (hmessage _)

/-- The first message assigns the id, and no later one does. -/
theorem Client.Sound.message (h : c.Sound me S n) (hopen : c.socketClosed = false)
    (hfirst : n = 0 → msg = .sessionID me) (hlater : 0 < n → msg.isSessionID = false)
    (htells : 0 < n → msg.Tells S me) : (c.after (.message msg)).Sound me S (n + 1) := by
  have hown : ∀ id, Event.message msg = .message (.sessionID id) → id = me := by
    intro id heq
    cases heq
    rcases Nat.eq_zero_or_pos n with hn | hn
    · exact Message.sessionID.inj (hfirst hn)
    · cases hlater hn
  have htells' : msg.Tells S c.sessionID := by
    rcases Nat.eq_zero_or_pos n with hn | hn
    · rw [hfirst hn]
      trivial
    · rw [h.told hn]
      exact htells hn
  refine ⟨fun hn => absurd hn (Nat.succ_ne_zero n), fun _ => ?_, ?_, h.sent_after hown⟩
  · rcases (identity_after c (.message msg)).2 with hsame | ⟨id, heq, -, hid⟩
    · rcases Nat.eq_zero_or_pos n with hn | hn
      · rw [hfirst hn, Client.after, hopen]
        rfl
      · exact hsame.trans (h.told hn)
    · rw [hid]
      exact hown id heq
  · refine h.knows.after fun msg' heq _ => ?_
    cases heq
    exact htells'

theorem sound_loaded (me : Nat) (S : Nat → Prop) (storedName : Name) (host : String) :
    (loaded storedName host).Sound me S 0 := by
  refine ⟨fun _ => ⟨rfl, knows_loaded _ storedName host⟩, fun hn => absurd hn (lt_irrefl 0),
    knows_loaded _ storedName host, fun msg hmsg => ?_⟩
  cases hmsg

end

end Mgws.Browser
