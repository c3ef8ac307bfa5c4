import Mgws.Proofs.Alike
import Mgws.Proofs.Broadcast
import Mgws.Proofs.Format
/-!
# Names in the markup of other clients

A name that a session registers goes out in the directory, and from there into the rows of a table
and into the output area.  Nothing on the way refuses or escapes a tag delimiter, so the delimiters
in the markup of another client are the same for two names exactly when they are the same in the
names.
-/

namespace Mgws

open Lib Program

/-! ## The directory that goes out -/

namespace Server

variable (st : Server) (p q : SessionPtr)

structure Registers : Prop where
  small : st.idOf p < 2 ^ 31
  valid : ∀ r ∈ st.reached, st.Valid r
  found : (st.lookup (st.idOf p)).isSome

def roll (u : String) : List Browser.Entry :=
  st.reached.map fun r => ⟨st.idOf r, if r = q then u else st.nameOf r⟩

end Server

section

variable {st s : Server} {p q : SessionPtr} {c : Connection} {k : ConnPtr} {u : String}

theorem nameOf_rename (hq : st.Valid q) (r : SessionPtr) :
    (st.rename q u).nameOf r = if r = q then u else st.nameOf r := by
  show ((st.updateSession q _).heap r).elim "" _ = _
  split
  · next hr =>
      subst hr
      obtain ⟨x, hx, -⟩ := hq
      rw [Server.heap_updateSession_self, hx]
      rfl
  · next hr =>
      rw [Server.heap_updateSession_ne hr]
      rfl

theorem listing_renamed (hq : st.Valid q) :
    ((st.rename q u).tell p localIdChanged).listing =
      (st.roll q u).map Browser.Entry.toJson := by
  have hwiring := wiring_renamed st p q u
  rw [Server.listing, Server.roll, Server.reached_congr hwiring, List.map_map]
  refine List.map_congr_left fun r _ => ?_
  have hname : ((st.rename q u).tell p localIdChanged).nameOf r = (st.rename q u).nameOf r := by
    rw [Server.nameOf, heap_tell]
    rfl
  rw [idOf_congr hwiring, hname, nameOf_rename hq]
  rfl

theorem hits_congr (hwiring : s.wiring = st.wiring) (ps : List SessionPtr) :
    s.hits ps k = st.hits ps k := by
  rw [Server.hits, hwiring, Server.hits]

theorem conn?_changeName (hwf : st.Wf) (hall : ∀ r ∈ st.reached, st.Valid r) (hq : st.Valid q)
    (hc : st.conn? k = some c) (hother : st.wiring.owner p ≠ some k) :
    (st.changeName p q u).conn? k = some
      { c with
        send := c.send ++ if k ∈ st.front.map (·.ptr) then
          [.text (directoryMsg ((st.roll q u).map Browser.Entry.toJson))] else [] } := by
  obtain rfl : c.ptr = k := Server.ptr_of_conn? hc
  have hwiring := wiring_renamed st p q u
  have hnone : (st.rename q u).hits [p] c.ptr = 0 := by
    rw [hits_congr (wiring_rename u)]
    simp [Server.hits, hother]
  have htold : ((st.rename q u).tell p localIdChanged).conn? c.ptr = some c := by
    have hone : (st.rename q u).tell p localIdChanged =
      (st.rename q u).tells [p] localIdChanged := rfl
    rw [hone, conn?_tells]
    show (st.conn? c.ptr).map _ = _
    rw [hc, Option.map_some, hnone]
    simp [Connection.receive]
  rw [Server.changeName, Server.broadcast, conn?_tells, htold, Option.map_some,
    Server.reached_congr hwiring, hits_congr hwiring, hits_reached hwf hall, listing_renamed hq,
    Connection.receive]
  split <;> rfl

theorem directoryMsg_roll (h : st.roll q u ≠ []) :
    directoryMsg ((st.roll q u).map Browser.Entry.toJson) =
      (Browser.Message.sessionsChanged (st.roll q u)).toJson := by
  cases hroll : st.roll q u with
  | nil => exact absurd hroll h
  | cons => rfl

theorem roll_ne_nil (hc : c ∈ st.front) : st.roll q u ≠ [] := by
  obtain ⟨r, hr⟩ := attached_of_front hc
  have hmem := mem_reached_of_front hc hr
  rw [Server.roll, ne_eq, List.map_eq_nil_iff]
  exact List.ne_nil_of_mem hmem

end

namespace Browser

theorem Entry.toJson_injective : Function.Injective Entry.toJson := by
  rintro ⟨id, name⟩ ⟨id', name'⟩ h
  simp only [Entry.toJson, Json.obj.injEq, List.cons.injEq, Prod.mk.injEq, Json.int.injEq,
    Json.str.injEq, Int.natCast_inj, true_and, and_true] at h
  obtain ⟨rfl, rfl⟩ := h
  rfl

theorem toJson_sessionsChanged_injective {as bs : List Entry}
    (h : (Message.sessionsChanged as).toJson = (Message.sessionsChanged bs).toJson) : as = bs := by
  simp only [Message.toJson, Json.obj.injEq, List.cons.injEq, Prod.mk.injEq, Json.arr.injEq,
    true_and, and_true] at h
  exact List.map_injective_iff.mpr Entry.toJson_injective h

def Receives (st : Server) (p : SessionPtr) (u : String) (k : ConnPtr) (sessions : List Entry) :
    Prop :=
  ∃ s c d, (Peer.handleMessage p (Message.localIdEvent (st.idOf p) (.text u)).toJson).run st =
      .ret () s ∧
    st.conn? k = some c ∧ s.conn? k = some d ∧
    d.send = c.send ++ [.text (Message.sessionsChanged sessions).toJson]

section

variable {st s : Server} {p q : SessionPtr} {c : Connection} {k : ConnPtr} {u : String}

theorem newName_localIdEvent (id : Nat) (u : String) :
    (Message.localIdEvent id (.text u)).toJson.newName id = some u :=
  newName_eq_some_iff.mpr ⟨⟨_, rfl, eqNat_int_iff.mpr rfl⟩, rfl⟩

theorem handleMessage_localIdEvent (hwf : st.Wf) (hp : st.Valid p) :
    (Peer.handleMessage p (Message.localIdEvent (st.idOf p) (.text u)).toJson).run st =
      (Peer.onLocalIdEvent p (Message.localIdEvent (st.idOf p) (.text u)).toJson).run st := by
  have hhandler : st.handlerOf p "LocalIdEvent" = some .localIdEvent := by
    rw [handlerOf_eq hwf.tables hp]
    rfl
  rw [handleMessage_eq hp (find?_type _), Message.type, hhandler, enter_of_handlerOf hhandler]
  show (Program.tryCatch (Peer.onLocalIdEvent p _) _).run st = _
  rw [Peer.onLocalIdEvent_eq_try]
  simp only [Program.tryCatch]
  cases (Peer.tryLocalIdEvent p
    (Message.localIdEvent (st.idOf p) (.text u)).toJson).run st <;> rfl

theorem handleMessage_registers (hwf : st.Wf) (hp : st.Valid p) (hregisters : st.Registers p)
    (hq : st.lookup (st.idOf p) = some q) :
    (Peer.handleMessage p (Message.localIdEvent (st.idOf p) (.text u)).toJson).run st =
      .ret () (st.changeName p q u) := by
  rw [handleMessage_localIdEvent hwf hp]
  exact onLocalIdEvent_found hp (find?_type _) (newName_localIdEvent _ u) hregisters.valid
    hregisters.small hq

/-- A message that returns has renamed a session or changed nothing. -/
theorem handleMessage_ret (hwf : st.Wf) (hp : st.Valid p)
    (hrun : (Peer.handleMessage p (Message.localIdEvent (st.idOf p) (.text u)).toJson).run st =
      .ret () s) :
    st.Registers p ∨ s = st := by
  rw [handleMessage_localIdEvent hwf hp] at hrun
  by_cases hsmall : st.idOf p < 2 ^ 31
  swap
  · rw [onLocalIdEvent_ignored hp (find?_type _) (.inr (Nat.le_of_not_lt hsmall))] at hrun
    cases hrun
    exact .inr rfl
  rcases st.reached_valid_or with hall | ⟨r, hr, hinvalid⟩
  swap
  · obtain ⟨f, hf⟩ :=
      onLocalIdEvent_fault hp (find?_type _) (newName_localIdEvent _ u) hsmall hr hinvalid
    rw [hf] at hrun
    cases hrun
  cases hlookup : st.lookup (st.idOf p) with
  | none =>
      rw [onLocalIdEvent_missing hp (find?_type _) (newName_localIdEvent _ u) hall hsmall
        hlookup] at hrun
      cases hrun
  | some q => exact .inl ⟨hsmall, hall, by rw [hlookup]; rfl⟩

/-- The directory that another client receives. -/
theorem receives_iff (hwf : st.Wf) (hp : st.Valid p) (hother : st.wiring.owner p ≠ some k)
    {sessions : List Entry} :
    Receives st p u k sessions ↔ st.Registers p ∧ k ∈ st.front.map (·.ptr) ∧
      (st.conn? k).isSome ∧ ∃ q, st.lookup (st.idOf p) = some q ∧ sessions = st.roll q u := by
  constructor
  · rintro ⟨s, c, d, hrun, hc, hd, hsend⟩
    rcases handleMessage_ret hwf hp hrun with hregisters | rfl
    swap
    · rw [hc] at hd
      cases hd
      exact absurd hsend (by simp)
    obtain ⟨q, hq⟩ := Option.isSome_iff_exists.mp hregisters.found
    rw [handleMessage_registers hwf hp hregisters hq] at hrun
    cases hrun
    have hqv := hregisters.valid q (lookup_mem hq).1
    rw [conn?_changeName hwf hregisters.valid hqv hc hother] at hd
    cases hd
    have hframe := List.append_cancel_left hsend
    split at hframe
    swap
    · cases hframe
    next hfront =>
      refine ⟨hregisters, hfront, by rw [hc]; rfl, q, hq, ?_⟩
      obtain ⟨e, he, -⟩ := List.mem_map.mp hfront
      rw [directoryMsg_roll (roll_ne_nil he)] at hframe
      simp only [List.cons.injEq, Frame.text.injEq, and_true] at hframe
      exact (toJson_sessionsChanged_injective hframe).symm
  · rintro ⟨hregisters, hfront, hconn, q, hq, rfl⟩
    obtain ⟨c, hc⟩ := Option.isSome_iff_exists.mp hconn
    have hqv := hregisters.valid q (lookup_mem hq).1
    obtain ⟨e, he, -⟩ := List.mem_map.mp hfront
    refine ⟨_, c, _, handleMessage_registers hwf hp hregisters hq, hc,
      conn?_changeName hwf hregisters.valid hqv hc hother, ?_⟩
    rw [if_pos hfront, directoryMsg_roll (roll_ne_nil he)]

end

/-! ## Where a page writes names -/

inductive Sink where
  | table
  | output
  deriving DecidableEq, Repr

def Client.tags (c : Client) : Sink → List (List Char)
  | .table => c.rows.map fun row => delimiters row.innerHTML
  | .output => [delimiters c.output]

theorem Client.Alike.tags {c d : Client}
    (h : c.Alike (fun s t => delimiters s = delimiters t) d) (sink : Sink) :
    c.tags sink = d.tags sink := by
  cases sink with
  | table =>
      have hrows : List.Forall₂ (Row.Alike _) c.rows d.rows := h.texts.rows
      simp only [Client.tags]
      generalize c.rows = rows at hrows
      generalize d.rows = rows' at hrows
      induction hrows with
      | nil => rfl
      | cons hrow _ ih => rw [List.map_cons, List.map_cons, hrow.innerHTML, ih]
  | output => exact congrArg (fun tags => [tags]) h.texts.output

structure Client.Free (c : Client) : Prop where
  callState : c.callState = .idle
  socketClosed : c.socketClosed = false

section

variable {c : Client}

theorem Client.Free.sessionsChanged (h : c.Free) (sessions : List Entry) : ∃ d,
    c.after (.message (.sessionsChanged sessions)) = d ∧ d.Free ∧ d.sessionID = c.sessionID ∧
      d.output = c.output ∧ d.tags .table =
        (sessions.filter fun session => session.sessionId ≠ c.sessionID).map
          fun session => delimiters session.cell := by
  obtain ⟨remotes, hfold⟩ := foldl_addRow sessions c.clearRemotesTable
  have hkeeps : ¬c.Vanishes sessions := fun hvanishes => hvanishes.1 h.callState
  have hafter : c.after (.message (.sessionsChanged sessions)) =
      sessions.foldl Client.addRow c.clearRemotesTable := by
    rw [Client.after, h.socketClosed, if_neg Bool.false_ne_true]
    show finish ((onSessionsChangedMessage sessions).run c) = _
    rw [onSessionsChangedMessage, bind_of_ret (detectVanishedSession_run_keeps hkeeps)]
    rfl
  refine ⟨_, hafter, ?_⟩
  rw [hfold]
  refine ⟨⟨h.callState, h.socketClosed⟩, rfl, rfl, ?_⟩
  show List.map _ ([] ++ List.map _ _) = _
  rw [List.nil_append, List.map_map]
  rfl

theorem output_call (h : c.socketClosed = false) (name : Name) (targetId : String)
    (sessionId : Nat) :
    (c.after (.message (.call name targetId sessionId none))).output =
      c.output ++ ("call from " ++ name.toText ++ "<br>") := by
  have hkeeps : Keeps Client.output (setRemoteDescription none) :=
    keeps_getPc.bind fun _ => keeps_raise _
  rw [Client.after, h, if_neg Bool.false_ne_true]
  show (finish ((setRemoteDescription none).run (c.rung name sessionId))).output = _
  exact hkeeps.finish _

end

theorem delimiters_cell_iff (id : Nat) {u₁ u₂ : String} :
    delimiters (Entry.cell ⟨id, u₁⟩) = delimiters (Entry.cell ⟨id, u₂⟩) ↔
      delimiters u₁ = delimiters u₂ :=
  delimiters_between_iff _ _

/-! ## Two names -/

/-- The texts are the same, or they are the two names. -/
def Swaps (u₁ u₂ s t : String) : Prop := s = t ∨ s = u₁ ∧ t = u₂

/-- The session `p` registers `u₁` in one run and `u₂` in another.  When another client receives
its directory, and whatever it takes after that, up to the name in messages, it ends with the same
tag delimiters in both. -/
def KeepsTags (sink : Sink) (st : Server) (p : SessionPtr) (u₁ u₂ : String) : Prop :=
  ∀ k sessions₁ sessions₂ c es₁ es₂ c₁ c₂, st.wiring.owner p ≠ some k →
    Receives st p u₁ k sessions₁ → Receives st p u₂ k sessions₂ →
    Reachable c → c.sessionID = sessionId k →
    List.Forall₂ (Event.Alike (Swaps u₁ u₂)) es₁ es₂ →
    Transition.run step c (.message (.sessionsChanged sessions₁) :: es₁) = .ok c₁ →
    Transition.run step c (.message (.sessionsChanged sessions₂) :: es₂) = .ok c₂ →
    c₁.tags sink = c₂.tags sink

section

variable {sink : Sink} {st : Server} {p q : SessionPtr} {c : Connection} {u₁ u₂ : String}

theorem forall₂_roll (h : delimiters u₁ = delimiters u₂) :
    List.Forall₂ (Entry.Alike fun s t => delimiters s = delimiters t) (st.roll q u₁)
      (st.roll q u₂) := by
  rw [Server.roll, Server.roll, List.forall₂_map_left_iff, List.forall₂_map_right_iff,
    List.forall₂_same]
  intro r _
  refine ⟨rfl, ?_⟩
  show delimiters (if r = q then u₁ else _) = delimiters (if r = q then u₂ else _)
  split
  · exact h
  · rfl

theorem keepsTags_of_delimiters (hwf : st.Wf) (hp : st.Valid p)
    (h : delimiters u₁ = delimiters u₂) : KeepsTags sink st p u₁ u₂ := by
  intro k sessions₁ sessions₂ c es₁ es₂ c₁ c₂ hother h₁ h₂ _ _ hes hrun₁ hrun₂
  obtain ⟨-, -, -, q, hq, rfl⟩ := (receives_iff hwf hp hother).mp h₁
  obtain ⟨-, -, -, q', hq', rfl⟩ := (receives_iff hwf hp hother).mp h₂
  rw [hq] at hq'
  cases hq'
  have hswaps : ∀ s t, Swaps u₁ u₂ s t → delimiters s = delimiters t := by
    rintro s t (rfl | ⟨rfl, rfl⟩)
    · rfl
    · exact h
  have hes' := hes.imp fun _ _ he => Event.Alike.mono hswaps he
  obtain ⟨d, hd, halike⟩ := (Client.Alike.refl appendCongr_delimiters c).run
    appendCongr_delimiters (.cons (.message (.sessionsChanged (forall₂_roll h))) hes') hrun₁
  rw [hrun₂] at hd
  cases hd
  exact halike.tags sink

/-- The rows of two directories give the names away. -/
theorem delimiters_of_rows {id : Nat} (hq : q ∈ st.reached) (hid : st.idOf q ≠ id)
    (h : ((st.roll q u₁).filter fun session => session.sessionId ≠ id).map
        (fun session => delimiters session.cell) =
      ((st.roll q u₂).filter fun session => session.sessionId ≠ id).map
        fun session => delimiters session.cell) :
    delimiters u₁ = delimiters u₂ := by
  rw [Server.roll, Server.roll, List.filter_map, List.filter_map, List.map_map, List.map_map] at h
  have hmem : q ∈ st.reached.filter fun r => st.idOf r ≠ id :=
    List.mem_filter.mpr ⟨hq, decide_eq_true hid⟩
  have hcell := List.map_inj_left.mp h q hmem
  simp only [Function.comp_def, if_true] at hcell
  exact (delimiters_cell_iff _).mp hcell

theorem delimiters_of_call {d₁ d₂ : Client} (h₁ : d₁.Free) (h₂ : d₂.Free)
    (houtput : d₁.output = d₂.output) {targetId : String} {id : Nat}
    (h : (d₁.after (.message (.call (.text u₁) targetId id none))).tags .output =
      (d₂.after (.message (.call (.text u₂) targetId id none))).tags .output) :
    delimiters u₁ = delimiters u₂ := by
  simp only [Client.tags, List.cons.injEq, and_true, output_call h₁.socketClosed,
    output_call h₂.socketClosed, houtput, delimiters_append, Name.toText,
    List.append_cancel_left_eq, List.append_cancel_right_eq] at h
  exact h

theorem delimiters_of_entry {d₁ d₂ : Client} (h₁ : d₁.Free) (h₂ : d₂.Free) {id : Nat}
    (hid₁ : id ≠ d₁.sessionID) (hid₂ : id ≠ d₂.sessionID)
    (h : (d₁.after (.message (.sessionsChanged [⟨id, u₁⟩]))).tags .table =
      (d₂.after (.message (.sessionsChanged [⟨id, u₂⟩]))).tags .table) :
    delimiters u₁ = delimiters u₂ := by
  obtain ⟨e₁, rfl, -, -, -, he₁⟩ := h₁.sessionsChanged [⟨id, u₁⟩]
  obtain ⟨e₂, rfl, -, -, -, he₂⟩ := h₂.sessionsChanged [⟨id, u₂⟩]
  have hlisted : ∀ {own : Nat} (u : String), id ≠ own →
      ([⟨id, u⟩] : List Entry).filter (fun session => session.sessionId ≠ own) = [⟨id, u⟩] :=
    fun u hne => by simp [hne]
  rw [he₁, he₂, hlisted u₁ hid₁, hlisted u₂ hid₂] at h
  exact (delimiters_cell_iff _).mp (List.singleton_inj.mp h)

theorem delimiters_of_keepsTags (hwf : st.Wf) (hp : st.Valid p) (hregisters : st.Registers p)
    (hc : c ∈ st.front) (hother : st.wiring.owner p ≠ some c.ptr)
    (h : KeepsTags sink st p u₁ u₂) : delimiters u₁ = delimiters u₂ := by
  obtain ⟨q, hq⟩ := Option.isSome_iff_exists.mp hregisters.found
  obtain ⟨hreached, hid⟩ := lookup_mem hq
  have hconn : (st.conn? c.ptr).isSome := by rw [hwf.conn?_of_mem (mem_conns_of_front hc)]; rfl
  have hreceives : ∀ u, Receives st p u c.ptr (st.roll q u) := fun u =>
    (receives_iff hwf hp hother).mpr
      ⟨hregisters, List.mem_map_of_mem hc, hconn, q, hq, rfl⟩
  -- A page that has just joined.
  have hpage : ∃ page, Reachable page ∧ page.sessionID = sessionId c.ptr ∧ page.Free :=
    ⟨(loaded .null "").after (.message (.sessionID (sessionId c.ptr))),
      ⟨.null, "", .step .init trivial rfl⟩, rfl, rfl, rfl⟩
  obtain ⟨page, hpage, hsession, hfree⟩ := hpage
  obtain ⟨d₁, hd₁, hfree₁, hsession₁, houtput₁, htable₁⟩ := hfree.sessionsChanged (st.roll q u₁)
  obtain ⟨d₂, hd₂, hfree₂, hsession₂, houtput₂, htable₂⟩ := hfree.sessionsChanged (st.roll q u₂)
  have hrun : ∀ es₁ es₂, List.Forall₂ (Event.Alike (Swaps u₁ u₂)) es₁ es₂ → ∀ c₁ c₂,
      Transition.run step d₁ es₁ = .ok c₁ → Transition.run step d₂ es₂ = .ok c₂ →
      c₁.tags sink = c₂.tags sink := by
    intro es₁ es₂ hes c₁ c₂ hrun₁ hrun₂
    subst hd₁ hd₂
    exact h c.ptr _ _ page es₁ es₂ c₁ c₂ hother (hreceives u₁) (hreceives u₂) hpage hsession hes
      hrun₁ hrun₂
  cases sink with
  | output =>
      have htags := hrun
        [.message (.call (.text u₁) (sessionId c.ptr).repr (st.idOf p) none)]
        [.message (.call (.text u₂) (sessionId c.ptr).repr (st.idOf p) none)]
        (.cons (.message (.call (.text (.inr ⟨rfl, rfl⟩)))) .nil) _ _ rfl rfl
      exact delimiters_of_call hfree₁ hfree₂ (houtput₁.trans houtput₂.symm) htags
  | table =>
      by_cases hown : st.idOf q = sessionId c.ptr
      · -- The other client has the same id, and skips the row until the user has another one.
        have htags := hrun
          [.message (.sessionsChanged [⟨sessionId c.ptr + 1, u₁⟩])]
          [.message (.sessionsChanged [⟨sessionId c.ptr + 1, u₂⟩])]
          (.cons (.message (.sessionsChanged (.cons ⟨rfl, .inr ⟨rfl, rfl⟩⟩ .nil))) .nil) _ _
          rfl rfl
        refine delimiters_of_entry hfree₁ hfree₂ ?_ ?_ htags
        · rw [hsession₁, hsession]
          exact Nat.succ_ne_self _
        · rw [hsession₂, hsession]
          exact Nat.succ_ne_self _
      · have htags := hrun [] [] .nil d₁ d₂ rfl rfl
        rw [htable₁, htable₂, hsession] at htags
        exact delimiters_of_rows hreached hown htags

end

/-- The markup of the other clients has the same tag delimiters for two names exactly when the
names have, or no other client is told of them. -/
theorem keepsTags_iff [Nlohmann] (sink : Sink) (st : Server) (p : SessionPtr) (u₁ u₂ : String)
    (h : Mgws.Reachable st) (hp : st.Valid p) :
    KeepsTags sink st p u₁ u₂ ↔
      (st.Registers p → (∃ c ∈ st.front, st.wiring.owner p ≠ some c.ptr) →
        delimiters u₁ = delimiters u₂) := by
  obtain ⟨hwf, -⟩ := reachable_wf h
  constructor
  · rintro hkeeps hregisters ⟨c, hc, hother⟩
    exact delimiters_of_keepsTags hwf hp hregisters hc hother hkeeps
  · intro hsame k sessions₁ sessions₂ c es₁ es₂ c₁ c₂ hother h₁
    obtain ⟨hregisters, hfront, -⟩ := (receives_iff hwf hp hother).mp h₁
    obtain ⟨e, he, rfl⟩ := List.mem_map.mp hfront
    exact keepsTags_of_delimiters hwf hp (hsame hregisters ⟨e, he, hother⟩) _ _ _ c es₁ es₂ c₁ c₂
      hother h₁

theorem keepsTags_bob :
    letI := parserOf "" .null
    ∃ st, Transition.run Mgws.step initial (joining 2 ++ joining 3) = .ok st ∧
      KeepsTags .table st 0 "ann" "bob" := by
  let _ := parserOf "" .null
  have hjoined : ∃ st s, Transition.run Mgws.step initial (joining 2 ++ joining 3) = .ok st ∧
      st.heap 0 = some s ∧ (st.conn? s.connection).isSome :=
    ⟨_, _, rfl, rfl, rfl⟩
  obtain ⟨st, s, hrun, hheap, hconn⟩ := hjoined
  exact ⟨st, hrun, (keepsTags_iff .table st 0 "ann" "bob" (Transition.reachable_of_run _ hrun)
    ⟨s, hheap, hconn⟩).mpr fun _ _ => by decide⟩

/-- The name "<b>" opens a tag in the table of the other client. -/
theorem not_keepsTags_of_tag :
    ¬∀ [Nlohmann] (sink : Sink) (st : Server) (p : SessionPtr) (u₁ u₂ : String),
      Mgws.Reachable st → st.Valid p → KeepsTags sink st p u₁ u₂ := by
  intro hall
  let _ := parserOf "" .null
  have hjoined : ∃ st c s t, Transition.run Mgws.step initial (joining 2 ++ joining 3) = .ok st ∧
      c ∈ st.front ∧ c.ptr = 3 ∧ st.wiring.owner 0 = some 2 ∧ st.reached = [1, 0] ∧
      st.heap 0 = some s ∧ (st.conn? s.connection).isSome ∧ st.heap 1 = some t ∧
      (st.conn? t.connection).isSome ∧ st.idOf 0 = 2 ∧ (st.lookup 2).isSome :=
    ⟨_, _, _, _, rfl, .head _, rfl, rfl, rfl, rfl, rfl, rfl, rfl, rfl, rfl⟩
  obtain ⟨st, c, s, t, hrun, hc, hptr, howner, hreached, hs, hsc, ht, htc, hid, hlookup⟩ := hjoined
  have hreach : Mgws.Reachable st := Transition.reachable_of_run _ hrun
  have hp : st.Valid 0 := ⟨s, hs, hsc⟩
  have hvalid : ∀ r ∈ st.reached, st.Valid r := by
    intro r hr
    rw [hreached, List.mem_pair] at hr
    rcases hr with rfl | rfl
    · exact ⟨t, ht, htc⟩
    · exact hp
  have hregisters : st.Registers 0 := ⟨by rw [hid]; decide, hvalid, by rw [hid]; exact hlookup⟩
  have hother : st.wiring.owner 0 ≠ some c.ptr := by
    rw [howner, hptr]
    decide
  have hsame : delimiters "ann" = delimiters "<b>" :=
    delimiters_of_keepsTags (reachable_wf hreach).1 hp hregisters hc hother
      (hall .table st 0 "ann" "<b>" hreach hp)
  exact absurd hsame (by decide)

end Browser

end Mgws
