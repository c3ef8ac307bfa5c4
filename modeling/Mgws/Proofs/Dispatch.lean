import Mgws.Proofs.Effects
/-!
# Handling one message

What `Peer::OnMessage` and the handlers behind it do to a server in which the
receiving session is valid.
-/

namespace Mgws

open Lib Program

/-! ## Reading members -/

/-- Reading a member either finds it and changes nothing, or gives null. -/
theorem subscript_cases {j j' v : Json} {key : String} (h : j.subscript key = .ok (v, j')) :
    (j.find? key = some v ∧ j' = j) ∨ v = .null := by
  cases j with
  | null =>
      cases h
      exact .inr rfl
  | obj members =>
      simp only [Json.subscript] at h
      cases hl : members.lookup key with
      | none =>
          rw [hl] at h
          cases h
          exact .inr rfl
      | some w =>
          rw [hl] at h
          cases h
          exact .inl ⟨hl, rfl⟩
  | _ => cases h

theorem subscript_eqNat {j j' v : Json} {key : String} {n : Nat}
    (h : j.subscript key = .ok (v, j')) (hv : v.eqNat n = true) :
    j.find? key = some v ∧ j' = j := by
  rcases subscript_cases h with hfound | rfl
  · exact hfound
  · cases hv

theorem subscript_getString {j j' v : Json} {key s : String}
    (h : j.subscript key = .ok (v, j')) (hv : v.getString = .ok s) :
    j.find? key = some (.str s) ∧ j' = j := by
  rw [Json.getString_eq_ok_iff] at hv
  rcases subscript_cases h with hfound | rfl
  · rwa [← hv]
  · cases hv

theorem subscript_ok {j v : Json} {key : String} (h : j.find? key = some v) (key' : String) :
    ∃ w j', j.subscript key' = .ok (w, j') ∧ j'.find? key = some v := by
  cases j with
  | obj members =>
      obtain ⟨w, members', hsub, hkeep⟩ := Json.subscript_obj key' members
      exact ⟨w, _, hsub, hkeep key v h⟩
  | _ => cases h

/-! ## Lookup by the text of an id -/

section

variable {st : Server} {p q : SessionPtr}

def Server.lookup (st : Server) (sessId : Nat) : Option SessionPtr :=
  lastMatch (fun p => st.idOf p = sessId) st.reached

def toSessionId (i : Int) : Nat := (i % 2 ^ 32).toNat

theorem toSessionId_natCast {n : Nat} (h : n < 2 ^ 31) : toSessionId n = n := by
  rw [toSessionId]
  omega

theorem getSessionByIdString_run (h : ∀ p ∈ st.reached, st.Valid p) {text : String} {i : Int}
    (hi : stoi text = .ok i) :
    (SessionManager.getSessionByIdString text).run st = .ret (st.lookup (toSessionId i)) st := by
  rw [SessionManager.getSessionByIdString, hi]
  exact getSessionById_run h _

theorem getSessionByIdString_fault (hp : p ∈ st.reached) (h : ¬st.Valid p) {text : String}
    {i : Int} (hi : stoi text = .ok i) :
    ∃ f, (SessionManager.getSessionByIdString text).run st = .fault f := by
  rw [SessionManager.getSessionByIdString, hi]
  exact getSessionById_fault hp h _

theorem getSessionByIdString_throw {text : String} {e : StoiError} (he : stoi text = .error e) :
    (SessionManager.getSessionByIdString text).run st = .throw (.stoi e) st := by
  rw [SessionManager.getSessionByIdString, he]
  rfl

theorem lookup_mem {sessId : Nat} (h : st.lookup sessId = some p) :
    p ∈ st.reached ∧ st.idOf p = sessId := by
  obtain ⟨hmem, hid⟩ := lastMatch_mem h
  exact ⟨hmem, by simpa using hid⟩

/-! ## The handlers -/

def Json.forwardTarget (j : Json) : Option Nat :=
  match j.find? "targetId" with
  | some (.str text) => (stoi text).toOption.map toSessionId
  | _ => none

/-- The effect of `OnForwardMessage`. -/
def Server.forward (st : Server) (j : Json) : Server :=
  (j.forwardTarget.bind st.lookup).elim st fun q => st.tell q j

def Json.newName (j : Json) (id : Nat) : Option String :=
  match j.find? "sessionID", j.find? "userName" with
  | some v, some (.str name) => if v.eqNat id then some name else none
  | _, _ => none

/-- The effect of `OnLocalIdEvent` when it finds the session `q`. -/
def Server.changeName (st : Server) (p q : SessionPtr) (name : String) : Server :=
  ((st.rename q name).tell p localIdChanged).broadcast

variable {j v : Json}

theorem onRegisterSession_run (htype : j.find? "type" = some v) :
    (Peer.onRegisterSession j).run st = .ret () st := by
  obtain ⟨w₁, j₁, h₁, htype₁⟩ := subscript_ok htype "sessionId"
  obtain ⟨w₂, j₂, h₂, htype₂⟩ := subscript_ok htype₁ "appVersion"
  obtain ⟨w₃, j₃, h₃, -⟩ := subscript_ok htype₂ "userName"
  simp only [Peer.onRegisterSession, h₁, h₂, h₃, ofExcept_ok, run_bind, run_pure]

theorem find?_ne_str {w j' : Json} {key : String} {e : Exn}
    (hsub : j.subscript key = .ok (w, j')) (hget : w.getString = .error e) (s : String) :
    j.find? key ≠ some (.str s) := by
  intro hfind
  rw [Json.subscript_of_find? hfind] at hsub
  cases hsub
  cases hget

theorem forwardTarget_eq_some_iff {n : Nat} :
    j.forwardTarget = some n ↔
      ∃ text i, j.find? "targetId" = some (.str text) ∧ stoi text = .ok i ∧
        toSessionId i = n := by
  unfold Json.forwardTarget
  split
  · next text htext =>
      simp only [htext, Option.some.injEq, Json.str.injEq]
      cases hi : stoi text <;> simp [Except.toOption, hi]
  · next hne =>
      constructor
      · rintro ⟨⟩
      · rintro ⟨text, i, htext, -⟩
        exact absurd htext (hne text)

theorem onForwardMessage_run (htype : j.find? "type" = some v)
    (hall : j.forwardTarget.isSome → ∀ p ∈ st.reached, st.Valid p) :
    (Peer.onForwardMessage j).run st = .ret () (st.forward j) := by
  obtain ⟨w, j', hsub, -⟩ := subscript_ok htype "targetId"
  simp only [Peer.onForwardMessage, Program.tryCatch, run_bind, Json.subscript_of_find? htype, hsub,
    ofExcept_ok, run_pure]
  cases hget : w.getString with
  | error e =>
      have hnone : j.forwardTarget = none := by
        rw [Option.eq_none_iff_forall_ne_some]
        intro n hn
        obtain ⟨text, -, htext, -⟩ := forwardTarget_eq_some_iff.mp hn
        exact find?_ne_str hsub hget text htext
      simp [Server.forward, hnone]
  | ok text =>
      obtain ⟨hfind, rfl⟩ := subscript_getString hsub hget
      cases hi : stoi text with
      | error e =>
          have hnone : j'.forwardTarget = none := by
            simp [Json.forwardTarget, hfind, hi, Except.toOption]
          simp [getSessionByIdString_throw hi, Server.forward, hnone]
      | ok i =>
          have htarget : j'.forwardTarget = some (toSessionId i) :=
            forwardTarget_eq_some_iff.mpr ⟨text, i, hfind, hi, rfl⟩
          have hvalid := hall (by simp [htarget])
          simp only [ofExcept_ok, run_pure, getSessionByIdString_run hvalid hi, Server.forward,
            htarget, Option.bind_some]
          cases hq : st.lookup (toSessionId i) with
          | none => rfl
          | some q => rw [send_run (hvalid q (lookup_mem hq).1)]; rfl

theorem onForwardMessage_fault (htype : j.find? "type" = some v)
    (hsome : j.forwardTarget.isSome) (hp : p ∈ st.reached) (h : ¬st.Valid p) :
    ∃ f, (Peer.onForwardMessage j).run st = .fault f := by
  obtain ⟨n, hn⟩ := Option.isSome_iff_exists.mp hsome
  obtain ⟨text, i, hfind, hi, -⟩ := forwardTarget_eq_some_iff.mp hn
  obtain ⟨f, hf⟩ := getSessionByIdString_fault hp h hi
  refine ⟨f, ?_⟩
  simp only [Peer.onForwardMessage, Program.tryCatch, run_bind, Json.subscript_of_find? htype,
    Json.subscript_of_find? hfind, Json.getString, ofExcept_ok, run_pure, hf]

/-! ## Renaming -/

theorem wiring_rename (name : String) : (st.rename q name).wiring = st.wiring := by
  show (st.updateSession q _).wiring = st.wiring
  rw [Server.wiring_updateSession]
  exact fun _ => rfl

theorem setUserName_run (h : st.Valid q) (name : String) :
    (Session.setUserName q name).run st = .ret () (st.rename q name) := by
  obtain ⟨s, c, -, -, hrun⟩ := deref_valid h
  exact bind_of_ret hrun

section

variable {id : Nat} (name : String)

theorem updateSession_found (hall : ∀ p ∈ st.reached, st.Valid p) (hid : id < 2 ^ 31)
    (hq : st.lookup id = some q) :
    (SessionManager.updateSession id name).run st = .ret () (st.rename q name) := by
  have hi : stoi id.repr = .ok (id : Int) := by rw [stoi_repr, if_pos hid]
  rw [SessionManager.updateSession, bind_of_ret (getSessionByIdString_run hall hi),
    toSessionId_natCast hid, hq]
  exact setUserName_run (hall q (lookup_mem hq).1) name

theorem updateSession_missing (hall : ∀ p ∈ st.reached, st.Valid p) (hid : id < 2 ^ 31)
    (hq : st.lookup id = none) :
    (SessionManager.updateSession id name).run st = .fault .nullSession := by
  have hi : stoi id.repr = .ok (id : Int) := by rw [stoi_repr, if_pos hid]
  rw [SessionManager.updateSession, bind_of_ret (getSessionByIdString_run hall hi),
    toSessionId_natCast hid, hq]
  rfl

variable (st) in
/-- An id that no `int` holds is not looked up. -/
theorem updateSession_throw (hid : 2 ^ 31 ≤ id) :
    (SessionManager.updateSession id name).run st = .throw (.stoi .outOfRange) st := by
  have hi : stoi id.repr = .error .outOfRange := by rw [stoi_repr, if_neg (by omega)]
  rw [SessionManager.updateSession, bind_of_throw (getSessionByIdString_throw hi)]

theorem updateSession_fault (hid : id < 2 ^ 31) (hp : p ∈ st.reached) (h : ¬st.Valid p) :
    ∃ f, (SessionManager.updateSession id name).run st = .fault f := by
  have hi : stoi id.repr = .ok (id : Int) := by rw [stoi_repr, if_pos hid]
  obtain ⟨f, hf⟩ := getSessionByIdString_fault hp h hi
  exact ⟨f, bind_of_fault hf⟩

end

theorem newName_eq_some_iff {id : Nat} {name : String} :
    j.newName id = some name ↔
      (∃ v, j.find? "sessionID" = some v ∧ v.eqNat id = true) ∧
        j.find? "userName" = some (.str name) := by
  unfold Json.newName
  split
  · next v w hv hw =>
      simp only [hv, hw, Option.some.injEq, exists_eq_left']
      split <;> simp [*]
  · next hne =>
      constructor
      · rintro ⟨⟩
      · rintro ⟨⟨v, hv, -⟩, hw⟩
        exact absurd hw (hne v name hv)

theorem onLocalIdEvent_reads (hp : st.Valid p) (htype : j.find? "type" = some v) :
    ∃ sessionId userName j₁ j₂, j.subscript "sessionID" = .ok (sessionId, j₁) ∧
      j₁.subscript "userName" = .ok (userName, j₂) ∧
      (Peer.onLocalIdEvent p j).run st =
        (Program.tryCatch (if !sessionId.eqNat (st.idOf p) then Pure.pure () else do
          let userName ← ofExcept userName.getString
          SessionManager.updateSession (st.idOf p) userName
          Session.send p localIdChanged
          SessionManager.updateSessionsList) fun _ => Pure.pure ()).run st := by
  obtain ⟨sessionId, j₁, h₁, htype₁⟩ := subscript_ok htype "sessionID"
  obtain ⟨userName, j₂, h₂, -⟩ := subscript_ok htype₁ "userName"
  refine ⟨sessionId, userName, j₁, j₂, h₁, h₂, ?_⟩
  simp only [Peer.onLocalIdEvent, Program.tryCatch, run_bind, h₁, h₂, ofExcept_ok, run_pure,
    getId_run hp]
  rfl

theorem onLocalIdEvent_ignored (hp : st.Valid p) (htype : j.find? "type" = some v)
    (h : j.newName (st.idOf p) = none ∨ 2 ^ 31 ≤ st.idOf p) :
    (Peer.onLocalIdEvent p j).run st = .ret () st := by
  obtain ⟨sessionId, userName, j₁, j₂, h₁, h₂, hrun⟩ := onLocalIdEvent_reads hp htype
  rw [hrun]
  cases heq : sessionId.eqNat (st.idOf p) with
  | false => rfl
  | true =>
      obtain ⟨hfind, rfl⟩ := subscript_eqNat h₁ heq
      cases hget : userName.getString with
      | error e => rfl
      | ok name =>
          obtain ⟨hname, rfl⟩ := subscript_getString h₂ hget
          have hlarge : 2 ^ 31 ≤ st.idOf p := by
            rcases h with h | h
            · rw [newName_eq_some_iff.mpr ⟨⟨_, hfind, heq⟩, hname⟩] at h
              cases h
            · exact h
          have hthrow := updateSession_throw st name hlarge
          exact tryCatch_of_throw ((bind_of_ret rfl).trans (bind_of_throw hthrow))

theorem onLocalIdEvent_eq (hp : st.Valid p) (htype : j.find? "type" = some v) {name : String}
    (hname : j.newName (st.idOf p) = some name) :
    (Peer.onLocalIdEvent p j).run st =
      (Program.tryCatch (do
        SessionManager.updateSession (st.idOf p) name
        Session.send p localIdChanged
        SessionManager.updateSessionsList) fun _ => Pure.pure ()).run st := by
  obtain ⟨sessionId, userName, j₁, j₂, h₁, h₂, hrun⟩ := onLocalIdEvent_reads hp htype
  obtain ⟨⟨w, hw, heq⟩, hfind⟩ := newName_eq_some_iff.mp hname
  rw [Json.subscript_of_find? hw] at h₁
  cases h₁
  rw [Json.subscript_of_find? hfind] at h₂
  cases h₂
  rw [hrun, heq]
  rfl

/-- The rest of the handler when the ids agree and the lookup finds a session. -/
theorem changeName_run {id : Nat} (name : String) (hp : st.Valid p)
    (hall : ∀ p ∈ st.reached, st.Valid p) (hid : id < 2 ^ 31) (hq : st.lookup id = some q) :
    (do SessionManager.updateSession id name
        Session.send p localIdChanged
        SessionManager.updateSessionsList : Cpp Unit).run st =
      .ret () (st.changeName p q name) := by
  have hall' : ∀ r ∈ ((st.rename q name).tell p localIdChanged).reached,
      ((st.rename q name).tell p localIdChanged).Valid r := by
    have hwiring : ((st.rename q name).tell p localIdChanged).wiring = st.wiring :=
      (wiring_tell _).trans (wiring_rename name)
    rw [Server.reached_congr hwiring]
    exact fun r hr => (Server.valid_congr hwiring).mpr (hall r hr)
  rw [bind_of_ret (updateSession_found name hall hid hq),
    bind_of_ret (send_run ((Server.valid_congr (wiring_rename name)).mpr hp) _)]
  exact updateSessionsList_run hall'

theorem onLocalIdEvent_found (hp : st.Valid p) (htype : j.find? "type" = some v) {name : String}
    (hname : j.newName (st.idOf p) = some name) (hall : ∀ p ∈ st.reached, st.Valid p)
    (hid : st.idOf p < 2 ^ 31) (hq : st.lookup (st.idOf p) = some q) :
    (Peer.onLocalIdEvent p j).run st = .ret () (st.changeName p q name) := by
  rw [onLocalIdEvent_eq hp htype hname]
  exact tryCatch_of_ret (changeName_run name hp hall hid hq)

theorem onLocalIdEvent_missing (hp : st.Valid p) (htype : j.find? "type" = some v)
    {name : String} (hname : j.newName (st.idOf p) = some name)
    (hall : ∀ p ∈ st.reached, st.Valid p) (hid : st.idOf p < 2 ^ 31)
    (hq : st.lookup (st.idOf p) = none) :
    (Peer.onLocalIdEvent p j).run st = .fault .nullSession := by
  rw [onLocalIdEvent_eq hp htype hname]
  exact tryCatch_of_fault (bind_of_fault (updateSession_missing name hall hid hq))

theorem onLocalIdEvent_fault (hp : st.Valid p) (htype : j.find? "type" = some v)
    {name : String} (hname : j.newName (st.idOf p) = some name) (hid : st.idOf p < 2 ^ 31)
    (hq : q ∈ st.reached) (h : ¬st.Valid q) :
    ∃ f, (Peer.onLocalIdEvent p j).run st = .fault f := by
  obtain ⟨f, hf⟩ := updateSession_fault name hid hq h
  rw [onLocalIdEvent_eq hp htype hname]
  exact ⟨f, tryCatch_of_fault (bind_of_fault hf)⟩

/-! ## Dispatch -/

/-- The state after `m_pmd[key]`. -/
def Server.enter (st : Server) (p : SessionPtr) (key : String) : Server :=
  (st.heap p).elim st fun s =>
    if (s.pmd.lookup key).isSome then st
    else st.updateSession p fun s => { s with pmd := s.pmd ++ [(key, none)] }

def Server.handlerOf (st : Server) (p : SessionPtr) (key : String) : Option Handler :=
  (st.heap p).bind fun s => (s.pmd.lookup key).join

theorem lookupHandler_run (hp : st.Valid p) (key : String) :
    (Peer.lookupHandler p key).run st = .ret (st.handlerOf p key) (st.enter p key) := by
  obtain ⟨s, c, hs, -, hrun⟩ := deref_valid hp
  rw [Peer.lookupHandler, bind_of_ret hrun, Server.handlerOf, Server.enter, hs]
  cases hl : s.pmd.lookup key with
  | none =>
      simp only [hl, Option.bind_some, Option.join_none, Option.elim, Option.isSome_none,
        Bool.false_eq_true, if_false]
      rfl
  | some handler => simp [hl]

theorem wiring_enter (key : String) : (st.enter p key).wiring = st.wiring := by
  rw [Server.enter]
  cases st.heap p with
  | none => rfl
  | some s =>
      simp only [Option.elim]
      split
      · rfl
      · exact Server.wiring_updateSession fun _ => rfl

theorem onHeartbeat_run (hp : st.Valid p) (htype : j.find? "type" = some v) :
    ∃ j', j'.find? "type" = some v ∧
      (Peer.onHeartbeat p j).run st =
        .ret () ((st.tell p j').updateSession p fun s => { s with lastHeartbeat := st.now }) := by
  obtain ⟨w, j', hsub, htype'⟩ := subscript_ok htype "sessionId"
  refine ⟨j', htype', ?_⟩
  rw [Peer.onHeartbeat, hsub, ofExcept_ok, bind_of_ret (run_pure _ _),
    bind_of_ret (send_run hp j'), run_modify, Server.tell]
  cases st.heap p <;> rfl

theorem handleMessage_eq (hp : st.Valid p) {key : String}
    (htype : j.find? "type" = some (.str key)) :
    (Peer.handleMessage p j).run st =
      (Program.tryCatch (Peer.call p j (st.handlerOf p key)) fun _ => Pure.pure ()).run
        (st.enter p key) := by
  simp only [Peer.handleMessage, Program.tryCatch, run_bind, Json.subscript_of_find? htype,
    ofExcept_ok, run_pure, Json.getString, lookupHandler_run hp]

/-- The message `j` of type `key` arrives. -/
structure Delivers [Nlohmann] (data : Option (List UInt8)) (j : Json) (key : String) : Prop where
  parse : data.bind Nlohmann.parse = some j
  type : j.find? "type" = some (.str key)

section

variable [Nlohmann] {data : Option (List UInt8)} {key : String}

theorem onMessage_ignored (hp : st.Valid p) (h : ∀ j key, ¬Delivers data j key) :
    (Peer.onMessage p data).run st = .ret () st := by
  obtain ⟨s, c, -, -, hderef⟩ := deref_valid hp
  rw [Peer.onMessage, bind_of_ret hderef]
  cases data with
  | none => rfl
  | some text =>
      cases hparse : Nlohmann.parse text with
      | none => simp [Program.tryCatch, run_bind, hparse]
      | some j =>
          simp only [Program.tryCatch, run_bind, Option.elim, ofExcept_ok, run_pure, hparse,
            Peer.handleMessage]
          cases hsub : j.subscript "type" with
          | error e => simp
          | ok r =>
              obtain ⟨w, j'⟩ := r
              cases hget : w.getString with
              | error e => simp [hget]
              | ok key =>
                  exact absurd ⟨hparse, (subscript_getString hsub hget).1⟩ (h j key)

theorem onMessage_eq (hp : st.Valid p) (h : Delivers data j key) :
    (Peer.onMessage p data).run st =
      (Program.tryCatch (Program.tryCatch
        (Peer.call p j (st.handlerOf p key)) fun _ => Pure.pure ()) fun _ => Pure.pure ()).run
        (st.enter p key) := by
  obtain ⟨hdata, htype⟩ := h
  obtain ⟨text, rfl, hparse⟩ := Option.bind_eq_some_iff.mp hdata
  obtain ⟨s, c, -, -, hderef⟩ := deref_valid hp
  rw [Peer.onMessage, bind_of_ret hderef]
  simp only [Program.tryCatch, run_bind, Option.elim, ofExcept_ok, run_pure, hparse,
    handleMessage_eq hp htype]

theorem onMessage_of_ret (hp : st.Valid p) (h : Delivers data j key) {st' : Server}
    (hcall : (Peer.call p j (st.handlerOf p key)).run (st.enter p key) = .ret () st') :
    (Peer.onMessage p data).run st = .ret () st' := by
  rw [onMessage_eq hp h, tryCatch_of_ret (tryCatch_of_ret hcall)]

theorem onMessage_of_fault (hp : st.Valid p) (h : Delivers data j key) {f : Fault}
    (hcall : (Peer.call p j (st.handlerOf p key)).run (st.enter p key) = .fault f) :
    (Peer.onMessage p data).run st = .fault f := by
  rw [onMessage_eq hp h, tryCatch_of_fault (tryCatch_of_fault hcall)]

theorem onMessage_unknown (hp : st.Valid p) (h : Delivers data j key)
    (hnone : st.handlerOf p key = none) :
    (Peer.onMessage p data).run st = .ret () (st.enter p key) := by
  rw [onMessage_eq hp h, hnone]
  rfl

end

end

end Mgws
