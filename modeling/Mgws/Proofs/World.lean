import Mgws.Browser.World
import Mgws.Lib.Markup
import Mgws.Proofs.Mail
import Mgws.Proofs.Replies
/-!
# The server passes the messages on

The server and its pages do what the pages and their letters do: whatever comes in and in whatever
order, each page reads the letters to it as texts.
-/

namespace Mgws

theorem Effects.nextid_le {m : Option (ConnPtr × Json)}
    {R : Server → ConnPtr → Bool → FactoryRun → Prop} {st s : Server} (h : Effects m R st s) :
    st.nextid ≤ s.nextid := by
  refine h.invariant (I := fun t => st.nextid ≤ t.nextid) le_rfl fun t u heffect ht => ?_
  have hwiring : t.wiring.nextid ≤ u.wiring.nextid := by
    cases heffect with
    | inner hinner =>
        rcases hinner.wiring with hw | ⟨k, hasKey, run, -, -, hw⟩
        · rw [hw]
        · rw [hw, Wiring.nextid_join]
    | close _ _ hcloses =>
        cases hcloses with
        | plain => rw [Server.wiring_unlink]; rfl
        | session => rw [wiring_broadcast, Server.wiring_delete, Server.wiring_unlink]; rfl
    | free | clock => exact le_rfl
    | accept => exact Nat.le_succ _
    | probe => rw [wiring_probe]
  exact ht.trans hwiring

theorem noThrow_of_isPlain {a : Action} (h : a.isPlain) : a.NoThrow := by
  cases a with
  | http k turns | close k turns =>
      intro hasKey run hmem
      exact absurd (List.all_eq_true.mp h _ hmem) (by simp [HttpTurn.isPlain])
  | _ => trivial

namespace Browser

open Lib Program

/-! ## Reading what was written -/

theorem sessions?_toJson (sessions : List Entry) :
    sessions? (Message.sessionsChanged sessions).toJson = some sessions := by
  have hmap : (sessions.map Entry.toJson).mapM Entry.ofJson? = some sessions := by
    induction sessions with
    | nil => rfl
    | cons entry sessions ih =>
        rw [List.map_cons, List.mapM_cons, ih]
        rfl
  exact hmap

/-- A page reads of a message what was written. -/
theorem ofJson?_toJson {msg : Message} (h : ∀ type, msg ≠ .other type) (hwell : msg.wellFormed) :
    Message.ofJson? msg.toJson = some msg := by
  cases msg with
  | sessionsChanged sessions =>
      show (sessions? _ >>= fun entries => some (Message.sessionsChanged entries)) = _
      rw [sessions?_toJson]
      rfl
  | registerSession sessionId appVersion userName | localIdEvent sessionId userName
  | hangup userName targetId | iceCandidate userName targetId =>
      cases userName with
      | illFormed => cases hwell
      | _ => rfl
  | call userName targetId sessionId session | answer userName targetId sessionId session =>
      cases userName with
      | illFormed => cases hwell
      | _ => cases session <;> rfl
  | other type => exact absurd rfl (h type)
  | sessionID | localIdChanged | heartbeat => rfl

theorem Letter.Fits.ofJson? {page : ConnPtr → Option Client} {served : ConnPtr → Nat} {k : ConnPtr}
    {l : Letter} (h : l.Fits page served k) : Message.ofJson? l.msg.toJson = some l.msg := by
  obtain ⟨msg, origin⟩ := l
  rcases h with ⟨-, hnews⟩ | ⟨i, m, c, -, -, -, -, hgoes, -⟩
  · exact ofJson?_toJson (by rintro type rfl; cases hnews) hnews.wellFormed
  · exact ofJson?_toJson (by rintro type rfl; exact hgoes) hgoes.wellFormed

namespace World

/-! ## The server -/

/-- The server and the pages agree.  The connections that lead to a session are those of the
pages, and the texts that are queued for them are kept. -/
structure Steady [Nlohmann] (w : World) : Prop where
  server : ReachableNoThrow w.server
  unserved : ∀ k d, w.server.conn? k = some d → w.page k = none → d.attached = none
  serves : ∀ k d, w.server.conn? k = some d → (w.page k).isSome →
    d.isOpen = true ∧ d.pfn = .wsCb ∧ d.attached.isSome
  texts : ∀ k d, w.server.conn? k = some d → d.inbox = w.inbox k
  quiet : ∀ k, w.page k = none → w.inbox k = []
  bound : ∀ k, (w.page k).isSome → k ≤ w.server.nextid

section

variable {w w' : World} {s t : Server} {k : ConnPtr} {d : Connection}
  {all : ConnPtr → List Json}

theorem conn?_accept (hd : s.accept.conn? k = some d) :
    s.conn? k = some d ∨ (k = s.nextid + 1 ∧ d.attached = none ∧ d.inbox = []) := by
  rw [Server.conn?, Server.allocated, Server.accept, List.cons_append, List.find?_cons] at hd
  split at hd
  · next hptr =>
      cases hd
      exact .inr ⟨(of_decide_eq_true hptr).symm, rfl, rfl⟩
  · exact .inl hd

theorem inbox_record (hd : s.conn? k = some d) : (w.record s).inbox k = d.inbox := by
  show (s.conn? k).elim _ _ = _
  rw [hd]
  rfl

theorem inbox_record_none (hd : s.conn? k = none) : (w.record s).inbox k = w.inbox k := by
  show (s.conn? k).elim _ _ = _
  rw [hd]
  rfl

variable [Nlohmann]

theorem steady_start : start.Steady where
  server := .init
  unserved k d hd _ := by
    have hmem : d ∈ initial.conns := Server.mem_conns_of_conn? rfl hd
    rw [List.mem_singleton.mp hmem]
    rfl
  serves _ _ _ hk := by cases hk
  texts k d hd := by
    have hmem : d ∈ initial.conns := Server.mem_conns_of_conn? rfl hd
    rw [List.mem_singleton.mp hmem]
    rfl
  quiet _ _ := rfl
  bound _ hk := by cases hk

theorem Steady.page_of_hears (h : w.Steady) (hk : w.server.Hears k) : (w.page k).isSome := by
  obtain ⟨x, hx, hptr, hattached⟩ := hk
  obtain ⟨d, hd, rfl⟩ := List.mem_map.mp hx
  obtain ⟨hwf, -⟩ := reachable_wf h.server.reachable
  have hconn : w.server.conn? k = some d := hptr ▸ hwf.conn?_of_mem hd
  by_contra hnone
  rw [Connection.attached_wire, h.unserved k d hconn (by simpa using hnone)] at hattached
  cases hattached

/-- The server has taken a step in which it queued texts for pages. -/
theorem Steady.record (h : w.Steady) (hserver : ReachableNoThrow s)
    (hnextid : w.server.nextid ≤ s.nextid) (ht : t = w.server ∨ t = w.server.accept)
    (hgrows : t.Grows s all) (hall : ∀ k, all k ≠ [] → (w.page k).isSome ∧ (s.conn? k).isSome) :
    (w.record s).Steady ∧ ∀ k, (w.record s).inbox k = w.inbox k ++ all k := by
  -- each connection of `s` is one of the server before, or is new
  have hconn : ∀ k d, s.conn? k = some d → d.inbox = w.inbox k ++ all k ∧
      (w.page k = none → d.attached = none) ∧
      ((w.page k).isSome → d.isOpen = true ∧ d.pfn = .wsCb ∧ d.attached.isSome) := by
    intro k d hd
    obtain ⟨e, he, hed⟩ := hgrows k d hd
    have hattached : d.attached = e.attached := by
      rw [← Connection.attached_wire, hed.wire, Connection.attached_wire]
    have hcases : w.server.conn? k = some e ∨
        (k = w.server.nextid + 1 ∧ e.attached = none ∧ e.inbox = []) := by
      rcases ht with rfl | rfl
      · exact .inl he
      · exact conn?_accept he
    rcases hcases with he | ⟨rfl, hnone, hempty⟩
    · refine ⟨by rw [hed.inbox, h.texts k e he], fun hk => ?_, fun hk => ?_⟩
      · rw [hattached, h.unserved k e he hk]
      · obtain ⟨hopen, hpfn, hsome⟩ := h.serves k e he hk
        obtain ⟨hopen', hpfn'⟩ := hed.served hopen hpfn
        exact ⟨hopen', hpfn', hattached ▸ hsome⟩
    · have hfresh : w.page (w.server.nextid + 1) = none := by
        by_contra hsome
        have hbound := h.bound _ (Option.isSome_iff_ne_none.mpr hsome)
        exact absurd hbound (Nat.not_succ_le_self _)
      refine ⟨by rw [hed.inbox, hempty, h.quiet _ hfresh], fun _ => hattached.trans hnone,
        fun hk => ?_⟩
      rw [hfresh] at hk
      cases hk
  have hinbox : ∀ k, (w.record s).inbox k = w.inbox k ++ all k := by
    intro k
    cases hd : s.conn? k with
    | none =>
        have hnone : all k = [] := by
          by_contra hne
          have hsome := (hall k hne).2
          rw [hd] at hsome
          cases hsome
        rw [inbox_record_none hd, hnone, List.append_nil]
    | some d => exact (inbox_record hd).trans (hconn k d hd).1
  refine ⟨⟨hserver, fun k d hd => (hconn k d hd).2.1, fun k d hd => (hconn k d hd).2.2,
    fun k d hd => (inbox_record hd).symm, fun k hk => ?_,
    fun k hk => (h.bound k hk).trans hnextid⟩, hinbox⟩
  have hnone : all k = [] := by
    by_contra hne
    have hsome := (hall k hne).1
    rw [show w.page k = none from hk] at hsome
    cases hsome
  rw [hinbox, h.quiet k hk, hnone]
  rfl

theorem Steady.congr (h : w.Steady) (hserver : w'.server = w.server)
    (hinbox : w'.inbox = w.inbox) (hpage : ∀ k, (w'.page k).isSome = (w.page k).isSome) :
    w'.Steady := by
  have hnone : ∀ k, w'.page k = none → w.page k = none := by
    intro k hk
    have hsame := hpage k
    rw [hk] at hsame
    exact Option.isNone_iff_eq_none.mp (Option.isSome_eq_false_iff.mp hsame.symm)
  constructor
  · rw [hserver]
    exact h.server
  · rw [hserver]
    exact fun k d hd hk => h.unserved k d hd (hnone k hk)
  · rw [hserver]
    exact fun k d hd hk => h.serves k d hd (hpage k ▸ hk)
  · rw [hserver, hinbox]
    exact h.texts
  · rw [hinbox]
    exact fun k hk => h.quiet k (hnone k hk)
  · rw [hserver]
    exact fun k hk => h.bound k (hpage k ▸ hk)

theorem Steady.taken (h : w.Steady) {a : Action} (ha : a.NoThrow)
    (hstep : Mgws.step w.server a = .ok s) :
    ReachableNoThrow s ∧ w.server.nextid ≤ s.nextid := by
  obtain ⟨hwf, hdetached⟩ := reachable_wf h.server.reachable
  exact ⟨h.server.step ha hstep,
    (step_effects hwf hdetached (joins_returns ha) hstep).nextid_le⟩

theorem Steady.join (h : w.Steady) (storedName : Name) (host : String)
    (hd : w.server.conn? k = some d) (hopen : d.isOpen = true) (hpfn : d.pfn = .httpCb)
    (hresp : d.isResp = false)
    (hstep : Mgws.step w.server (.http k [.message (.websock true .returns)]) = .ok s) :
    w.page k = none ∧ ((w.record s).setPage k (loaded storedName host)).Steady ∧
      (w.record s).inbox =
        Function.update w.inbox k [(Message.sessionID (sessionId k)).toJson] := by
  obtain ⟨hserver, hnextid⟩ :=
    h.taken (a := .http k _) (by simp [Action.NoThrow, FactoryRun.made]) hstep
  have hjoined := step_joined hd hopen hpfn hresp hstep
  obtain ⟨d', f, hd', hf, hattached, hinbox, hopen', hpfn'⟩ := hjoined.self
  cases hd.symm.trans hd'
  have hnone : w.page k = none := by
    by_contra hsome
    obtain ⟨-, hserved, -⟩ := h.serves k d hd (Option.isSome_iff_ne_none.mpr hsome)
    rw [hpfn] at hserved
    cases hserved
  have hpage : ∀ i ≠ k, Function.update w.page k (some (loaded storedName host)) i = w.page i :=
    fun i hi => Function.update_of_ne hi ..
  have hself : (w.record s).inbox k = [sessionIdMsg (sessionId k)] := by
    rw [inbox_record hf, hinbox, h.texts k d hd, h.quiet k hnone]
    rfl
  have hinboxes : ∀ i ≠ k, (w.record s).inbox i = w.inbox i := by
    intro i hi
    cases he : s.conn? i with
    | none => exact inbox_record_none he
    | some e =>
        obtain ⟨c, hc, hgrows⟩ := hjoined.others i hi e he
        rw [inbox_record he, hgrows.inbox, h.texts i c hc, List.append_nil]
  have hne : ∀ i, Function.update w.page k (some (loaded storedName host)) i = none → i ≠ k := by
    rintro i hi rfl
    rw [Function.update_self] at hi
    cases hi
  refine ⟨hnone, ⟨hserver, fun i e he hi => ?_, fun i e he hi => ?_,
    fun i e he => (inbox_record he).symm, fun i hi => ?_, fun i hi => ?_⟩, ?_⟩
  · obtain ⟨c, hc, hgrows⟩ := hjoined.others i (hne i hi) e he
    rw [← Connection.attached_wire, hgrows.wire, Connection.attached_wire]
    exact h.unserved i c hc ((hpage i (hne i hi)).symm.trans hi)
  · by_cases hik : i = k
    · subst hik
      cases hf.symm.trans he
      exact ⟨hopen', hpfn', hattached⟩
    · obtain ⟨c, hc, hgrows⟩ := hjoined.others i hik e he
      obtain ⟨hopened, hcb, hsome⟩ := h.serves i c hc ((hpage i hik).symm ▸ hi)
      obtain ⟨hopened', hcb'⟩ := hgrows.served hopened hcb
      refine ⟨hopened', hcb', ?_⟩
      rwa [← Connection.attached_wire, hgrows.wire, Connection.attached_wire]
  · exact (hinboxes i (hne i hi)).trans (h.quiet i ((hpage i (hne i hi)).symm.trans hi))
  · by_cases hik : i = k
    · obtain ⟨hwf, -⟩ := reachable_wf h.server.reachable
      have hbound := hwf.wiring.bound d.wire (Server.mem_allocated_wiring.mpr
        ⟨d, Server.mem_allocated_of_conn? hd, rfl⟩)
      have hptr : d.wire.ptr = k := Server.ptr_of_conn? hd
      rw [hptr] at hbound
      rw [hik]
      exact hbound.trans hnextid
    · exact (h.bound i ((hpage i hik).symm ▸ hi)).trans hnextid
  · funext i
    by_cases hik : i = k
    · rw [hik, Function.update_self]
      exact hself
    · rw [Function.update_of_ne hik]
      exact hinboxes i hik

/-! ## The pages and their letters -/

/-- The pages are the same, and have read and sent as much; the letters are the texts. -/
structure Shows (w : World) (n : Net) : Prop where
  page : n.page = w.page
  read : n.read = w.read
  served : n.served = w.served
  inbox : ∀ k, w.inbox k = (n.mail k).map fun l => l.msg.toJson

/-- The server and its pages, and what they do in the view of the pages. -/
structure Refines (w : World) (n : Net) : Prop where
  steady : w.Steady
  shows : w.Shows n
  net : n.Sound

omit [Nlohmann] in
theorem exists_map_toJson {P : Message → Prop} {js : List Json}
    (h : ∀ j ∈ js, ∃ msg, j = msg.toJson ∧ P msg) :
    ∃ msgs : List Message, js = msgs.map Message.toJson ∧ ∀ msg ∈ msgs, P msg := by
  induction js with
  | nil => exact ⟨[], rfl, fun msg hmsg => absurd hmsg List.not_mem_nil⟩
  | cons j js ih =>
      obtain ⟨msg, rfl, hmsg⟩ := h j List.mem_cons_self
      obtain ⟨msgs, rfl, hmsgs⟩ := ih fun j hj => h j (List.mem_cons_of_mem _ hj)
      exact ⟨msg :: msgs, rfl, List.forall_mem_cons.mpr ⟨hmsg, hmsgs⟩⟩

theorem Steady.news_of_lists (h : w.Steady) {j : Json} (hlists : w.server.Lists k j) :
    (w.page k).isSome ∧ ∃ msg, j = msg.toJson ∧ News w.page msg := by
  obtain ⟨hk, es, rfl, hne, hes⟩ := hlists
  refine ⟨h.page_of_hears hk,
    .sessionsChanged (es.map fun e => ⟨e.1, e.2⟩), ?_, .directory fun entry hentry => ?_⟩
  · cases es with
    | nil => exact absurd rfl hne
    | cons e es =>
        show directoryMsg (_ :: _) = _
        rw [Message.toJson, List.map_map]
        rfl
  · obtain ⟨e, he, rfl⟩ := List.mem_map.mp hentry
    obtain ⟨i, hi, hid⟩ := hes e he
    exact ⟨i, h.page_of_hears hi, hid⟩

/-- The server has taken a step in which it told some pages news. -/
theorem Refines.news {n : Net} (h : w.Refines n) (hserver : ReachableNoThrow s)
    (hnextid : w.server.nextid ≤ s.nextid) (ht : t = w.server ∨ t = w.server.accept)
    (hadds : t.Adds s fun k j => (w.page k).isSome ∧ ∃ msg, j = msg.toJson ∧ News w.page msg) :
    ∃ n', Net.Step n n' ∧ (w.record s).Refines n' := by
  obtain ⟨all, hgrows, hall⟩ := hadds
  -- a connection that is gone by then hears nothing
  obtain ⟨heard, hheard⟩ : ∃ heard : ConnPtr → List Json,
      ∀ k, heard k = if (s.conn? k).isSome then all k else [] := ⟨_, fun _ => rfl⟩
  have hgrows' : t.Grows s heard := by
    intro k d hd
    rw [hheard, hd]
    exact hgrows k d hd
  have hmem : ∀ k, ∀ j ∈ heard k, j ∈ all k ∧ (s.conn? k).isSome := by
    intro k j hj
    rw [hheard] at hj
    split at hj
    · next hsome => exact ⟨hj, hsome⟩
    · cases hj
  have hmsgs : ∀ k, ∃ msgs : List Message, heard k = msgs.map Message.toJson ∧
      ∀ msg ∈ msgs, (w.page k).isSome ∧ News w.page msg := by
    intro k
    refine exists_map_toJson fun j hj => ?_
    obtain ⟨hk, msg, heq, hnews⟩ := hall k j (hmem k j hj).1
    exact ⟨msg, heq, hk, hnews⟩
  choose msgs htexts hnews using hmsgs
  obtain ⟨hsteady, hinbox⟩ := h.steady.record hserver hnextid ht hgrows' fun k hne => by
    obtain ⟨j, hj⟩ := List.exists_mem_of_ne_nil _ hne
    exact ⟨(hall k j (hmem k j hj).1).1, (hmem k j hj).2⟩
  have hstep : Net.Step n (n.post fun k => (msgs k).map (⟨·, none⟩)) :=
    .news (by rw [h.shows.page]; exact hnews)
  refine ⟨_, hstep, hsteady, ⟨h.shows.page, h.shows.read, h.shows.served, fun k => ?_⟩,
    h.net.step hstep⟩
  show _ = (n.mail k ++ (msgs k).map _).map _
  rw [hinbox, h.shows.inbox, htexts, List.map_append, List.map_map]
  rfl

/-- The server has passed on the next message of the page at `k`. -/
theorem Refines.pass {n : Net} (h : w.Refines n) {c : Client} {msg : Message}
    {dest : Option ConnPtr} (hserver : ReachableNoThrow s) (hnextid : w.server.nextid ≤ s.nextid)
    (hpage : w.page k = some c) (hmsg : c.sent[w.served k]? = some msg)
    (hsends : w.server.Sends s dest msg.toJson) (hecho : msg.isHeartbeat → dest = some k)
    (hdest : ∀ k', dest = some k' → (w.page k').isSome ∧ (s.conn? k').isSome ∧
      msg.GoesTo k k') :
    ∃ n', Net.Step n n' ∧ { w.record s with
      served := Function.update w.served k (w.served k + 1) }.Refines n' := by
  obtain ⟨hsteady, hinbox⟩ := h.steady.record hserver hnextid (.inl rfl) hsends fun k' hne => by
    have hk' : dest = some k' := by
      by_contra hother
      exact hne (if_neg hother)
    exact ⟨(hdest k' hk').1, (hdest k' hk').2.1⟩
  have hpage' : n.page k = some c := by
    rw [h.shows.page]
    exact hpage
  have hmsg' : c.sent[n.served k]? = some msg := by
    rw [h.shows.served]
    exact hmsg
  have hstep : Net.Step n (n.pass k msg dest) := by
    refine .serve hpage' hmsg' hecho fun k' hk' => ?_
    obtain ⟨hsome, -, hgoes⟩ := hdest k' hk'
    rw [h.shows.page]
    exact ⟨hsome, hgoes⟩
  refine ⟨_, hstep, hsteady.congr rfl rfl fun _ => rfl,
    ⟨h.shows.page, h.shows.read, ?_, fun k' => ?_⟩, h.net.step hstep⟩
  · show Function.update n.served k (n.served k + 1) = _
    rw [h.shows.served]
  · show (w.record s).inbox k' = (n.mail k' ++ if dest = some k' then _ else []).map _
    rw [hinbox, h.shows.inbox, List.map_append]
    split <;> rfl

omit [Nlohmann] in
theorem goesTo_of_target? {i : ConnPtr} {msg : Message} (hwell : msg.wellFormed)
    (h : msg.target? = some (sessionId k).repr) : msg.GoesTo i k := by
  cases msg with
  | call | answer | hangup | iceCandidate => exact ⟨hwell, Option.some.inj h⟩
  | _ => cases h

omit [Nlohmann] in
theorem not_isHeartbeat_of_target? {target : String} {msg : Message}
    (h : msg.target? = some target) : msg.isHeartbeat = false := by
  cases msg with
  | heartbeat => cases h
  | _ => rfl

/-- The server takes the next message of the page at `k`. -/
theorem Refines.serve {n : Net} (h : w.Refines n) {c : Client} {msg : Message} {data : List UInt8}
    (hpage : w.page k = some c) (hmsg : c.sent[w.served k]? = some msg)
    (hd : w.server.conn? k = some d) (hdata : Nlohmann.parse data = msg.json?)
    (hstep : Mgws.step w.server (.ws k ⟨129, data⟩) = .ok s) :
    ∃ n', Relation.ReflTransGen Net.Step n n' ∧ { w.record s with
      served := Function.update w.served k (w.served k + 1) }.Refines n' := by
  obtain ⟨hwf, hdetached⟩ := reachable_wf h.steady.server.reachable
  have hk : (w.page k).isSome := by
    rw [hpage]
    rfl
  obtain ⟨hopen, hpfn, hattached⟩ := h.steady.serves k d hd hk
  have hsigned := (h.net.page k c (by rw [h.shows.page]; exact hpage)).sent msg
    (List.mem_of_getElem? hmsg)
  have hserved := Browser.served hwf hdetached (reachableNoThrow_sound h.steady.server) hd hopen
    hpfn hattached hsigned.isSent hdata hstep
  obtain ⟨hserver, hnextid⟩ := h.steady.taken (a := .ws k _) trivial hstep
  have hkeeps : ∀ i, (s.conn? i).isSome ↔ (w.server.conn? i).isSome := by
    have hjoins : Joins NoJoin w.server (.ws k ⟨129, data⟩) := trivial
    cases step_took hwf hdetached hjoins hstep with
    | inners hinners => exact hinners.conn?_isSome
  cases hserved with
  | echo hbeat hsends =>
      obtain ⟨n', hnet, hrefines⟩ := h.pass hserver hnextid hpage hmsg hsends (fun _ => rfl)
        fun k' hk' => by
          cases hk'
          refine ⟨hk, (hkeeps k).mpr (by rw [hd]; rfl), ?_⟩
          cases msg with
          | heartbeat => exact rfl
          | _ => cases hbeat
      exact ⟨n', .single hnet, hrefines⟩
  | relay hwell htarget hsends hdest =>
      obtain ⟨n', hnet, hrefines⟩ := h.pass hserver hnextid hpage hmsg hsends
        (fun hbeat => absurd hbeat (by simp [not_isHeartbeat_of_target? htarget]))
        fun k' hk' => by
          obtain ⟨hhears, hid⟩ := hdest k' hk'
          refine ⟨h.steady.page_of_hears hhears, (hkeeps k').mpr ?_, goesTo_of_target? hwell ?_⟩
          · obtain ⟨x, hx, hptr, -⟩ := hhears
            obtain ⟨e, he, rfl⟩ := List.mem_map.mp hx
            have hconn := hwf.conn?_of_mem he
            rw [show e.ptr = k' from hptr] at hconn
            rw [hconn]
            rfl
          · rw [hid]
            exact htarget
      exact ⟨n', .single hnet, hrefines⟩
  | notice hbeat _ hadds =>
      -- what the server says goes first, and the message then goes nowhere
      obtain ⟨n', hnet, hrefines⟩ := h.news hserver hnextid (.inl rfl)
        (hadds.mono fun k' j hj => by
          cases hj with
          | confirms => exact ⟨hk, _, rfl, .confirmed⟩
          | lists hlists => exact h.steady.news_of_lists hlists)
      have hsame : (w.record s).record s = w.record s := by
        have hinbox : ((w.record s).record s).inbox = (w.record s).inbox := by
          funext k'
          cases hd' : s.conn? k' with
          | none => exact inbox_record_none hd'
          | some e => exact (inbox_record hd').trans (inbox_record hd').symm
        exact congrArg (fun inbox => { w.record s with inbox := inbox }) hinbox
      obtain ⟨n'', hnet', hrefines'⟩ := hrefines.pass (s := s) hserver le_rfl hpage hmsg
        (sends_none s msg.toJson) (fun hbeat' => absurd hbeat' (by simp [hbeat]))
        fun k' hk' => by cases hk'
      rw [hsame] at hrefines'
      exact ⟨n'', (Relation.ReflTransGen.single hnet).tail hnet', hrefines'⟩

theorem Refines.ofJson? {n : Net} (h : w.Refines n) {l : Letter} (hk : (w.page k).isSome)
    (hl : l ∈ n.mail k) : Message.ofJson? l.msg.toJson = some l.msg := by
  obtain ⟨rest, hrest, hfits⟩ := h.net.greeted k (h.shows.page ▸ hk)
  rw [hrest] at hl
  rcases List.mem_cons.mp hl with rfl | hl
  · exact ofJson?_toJson (by rintro type ⟨⟩) rfl
  · exact (hfits l hl).ofJson?

theorem Refines.dispatch {n n' : Net} (h : w.Refines n) {c c' : Client} (hstep : Net.Step n n')
    (hpage : w.page k = some c) (hsteady : w'.server = w.server ∧ w'.inbox = w.inbox)
    (hpage' : w'.page = Function.update w.page k (some c'))
    (hshows : w'.Shows n') : w'.Refines n' := by
  refine ⟨h.steady.congr hsteady.1 hsteady.2 fun i => ?_, hshows, h.net.step hstep⟩
  rw [hpage']
  by_cases hi : i = k
  · rw [hi, Function.update_self, hpage]
    rfl
  · rw [Function.update_of_ne hi]

/-- A step of the server and its pages is some steps of the pages alone. -/
theorem Refines.step {n : Net} (h : w.Refines n) (hstep : Step w w') :
    ∃ n', Relation.ReflTransGen Net.Step n n' ∧ w'.Refines n' := by
  obtain ⟨hwf, hdetached⟩ := reachable_wf h.steady.server.reachable
  cases hstep with
  | plain ha hs =>
      obtain ⟨hserver, hnextid⟩ := h.steady.taken (noThrow_of_isPlain ha) hs
      obtain ⟨t, ht, hadds⟩ := step_adds hwf hdetached ha hs
      obtain ⟨n', hnet, hrefines⟩ := h.news hserver hnextid ht
        (hadds.mono fun _ _ hj => h.steady.news_of_lists hj)
      exact ⟨n', .single hnet, hrefines⟩
  | @join k d s storedName host hd hopen hpfn hresp hs =>
      obtain ⟨hnone, hsteady, hinbox⟩ :=
        h.steady.join storedName host hd hopen hpfn hresp hs
      have hnet : Net.Step n _ := .join storedName host (h.shows.page ▸ hnone)
      refine ⟨_, .single hnet, hsteady, ⟨?_, h.shows.read, h.shows.served, fun i => ?_⟩,
        h.net.step hnet⟩
      · show Function.update n.page k _ = Function.update w.page k _
        rw [h.shows.page]
      · show (w.record s).inbox i = (Function.update n.mail k _ i).map _
        rw [hinbox]
        by_cases hi : i = k
        · rw [hi, Function.update_self, Function.update_self]
          rfl
        · rw [Function.update_of_ne hi, Function.update_of_ne hi]
          exact h.shows.inbox i
  | @control k frame s hop hs =>
      obtain ⟨hserver, hnextid⟩ := h.steady.taken (a := .ws k frame) trivial hs
      obtain ⟨n', hnet, hrefines⟩ := h.news hserver hnextid (.inl rfl)
        (step_control_adds hop hs).adds
      exact ⟨n', .single hnet, hrefines⟩
  | serve hpage hmsg hd hdata hs => exact h.serve hpage hmsg hd hdata hs
  | @event k c e hpage he =>
      have hnet : Net.Step n _ := .event (h.shows.page ▸ hpage) he
      refine ⟨_, .single hnet, h.dispatch hnet hpage ⟨rfl, rfl⟩ rfl
        ⟨?_, h.shows.read, h.shows.served, h.shows.inbox⟩⟩
      show Function.update n.page k _ = Function.update w.page k _
      rw [h.shows.page]
  | @deliver k c j msg hpage hopen hj hmsg =>
      have hpage' : n.page k = some c := h.shows.page ▸ hpage
      rw [h.shows.inbox, ← h.shows.read, List.getElem?_map] at hj
      obtain ⟨l, hl, rfl⟩ := Option.map_eq_some_iff.mp hj
      have hread := h.ofJson? (by rw [hpage]; rfl) (List.mem_of_getElem? hl)
      obtain rfl : l.msg = msg := Option.some.inj (hread.symm.trans hmsg)
      have hnet : Net.Step n _ := .deliver hpage' hopen hl
      refine ⟨_, .single hnet, h.dispatch hnet hpage ⟨rfl, rfl⟩ rfl
        ⟨?_, ?_, h.shows.served, h.shows.inbox⟩⟩
      · show Function.update n.page k _ = Function.update w.page k _
        rw [h.shows.page]
      · show Function.update n.read k _ = Function.update w.read k _
        rw [h.shows.read]

theorem refines_of_reachable (h : Reachable w) : ∃ n, Net.Reachable n ∧ w.Refines n := by
  induction h with
  | refl =>
      exact ⟨Net.start, .refl, steady_start, ⟨rfl, rfl, rfl, fun _ => rfl⟩, Net.sound_start⟩
  | tail _ hstep ih =>
      obtain ⟨n, hn, hrefines⟩ := ih
      obtain ⟨n', hn', hrefines'⟩ := hrefines.step hstep
      exact ⟨n', hn.trans hn', hrefines'⟩

end

end World

/-! ## A run to look at -/

namespace World

variable {texts : List (String × Message)} {w w' : World}

theorem ok_of_toOption {ε α : Type} {x : Except ε α} {a : α} (h : x.toOption = some a) :
    x = .ok a := by
  cases x with
  | error => cases h
  | ok =>
      cases h
      rfl

theorem step_of_next {a : Act} (h : w.next texts a = some w') :
    letI := parserOfMessages texts
    Step w w' := by
  let _ := parserOfMessages texts
  cases a <;> simp only [next, Option.bind_eq_bind, Option.bind_eq_some_iff, Option.guard_eq_some',
    Option.pure_def, Option.some.injEq] at h
  case plain =>
    obtain ⟨-, ha, s, hs, rfl⟩ := h
    exact .plain ha (ok_of_toOption hs)
  case join storedName host =>
    obtain ⟨c, hc, -, ⟨hopen, hpfn, hresp⟩, s, hs, rfl⟩ := h
    exact .join storedName host hc hopen hpfn hresp (ok_of_toOption hs)
  case control =>
    obtain ⟨-, hop, s, hs, rfl⟩ := h
    exact .control hop (ok_of_toOption hs)
  case serve =>
    obtain ⟨c, hc, msg, hmsg, -, hsome, text, htext, -, hparse, s, hs, rfl⟩ := h
    obtain ⟨d, hd⟩ := Option.isSome_iff_exists.mp hsome
    have hsame : text.2 = msg := by simpa using List.find?_some htext
    have hdata : Nlohmann.parse (bytes text.1) = msg.json? := by
      rw [← hsame]
      exact congrArg (Option.bind · (·.2.json?)) hparse
    exact .serve hc hmsg hd hdata (ok_of_toOption hs)
  case event =>
    obtain ⟨c, hc, -, he, rfl⟩ := h
    exact .event hc he
  case deliver =>
    obtain ⟨c, hc, -, hopen, j, hj, msg, hmsg, rfl⟩ := h
    exact .deliver hc hopen hj hmsg

theorem reachable_of_acts {acts : List Act} (h : acts.foldlM (next texts) start = some w) :
    letI := parserOfMessages texts
    Reachable w := by
  let _ := parserOfMessages texts
  suffices hrun : ∀ (acts : List Act) (v : World), Reachable v →
      acts.foldlM (next texts) v = some w → Reachable w from hrun acts start .refl h
  intro acts
  induction acts with
  | nil =>
      rintro v hv ⟨⟩
      exact hv
  | cons a acts ih =>
      intro v hv hacts
      rw [List.foldlM_cons] at hacts
      obtain ⟨u, hu, hrest⟩ := Option.bind_eq_some_iff.mp hacts
      exact ih u (hv.tail (step_of_next hu)) hrest

/-- The call has been relayed, and ann has not read the echo of her Heartbeat yet. -/
theorem reachable_call :
    letI := parserOfMessages callTexts
    ∃ w c d, Reachable w ∧ w.page 2 = some c ∧ w.page 3 = some d ∧
      (w.read 2 = 4 ∧ w.served 2 = 4 ∧ c.sent.length = 4 ∧ c.heartbeatsMissed = 1 ∧
        c.callState = .calling ∧ d.callState = .ringing) ∧
      ((w.inbox 3).filterMap Message.ofJson?).getLast? =
        some (.call (.text "ann") "3" 2 (some ⟨"offer", "v=0"⟩)) := by
  have hrun : ((callActs.foldlM (next callTexts) start).any fun w =>
      (w.page 2).any fun c => (w.page 3).any fun d =>
        (w.read 2 = 4 ∧ w.served 2 = 4 ∧ c.sent.length = 4 ∧ c.heartbeatsMissed = 1 ∧
          c.callState = .calling ∧ d.callState = .ringing) ∧
        ((w.inbox 3).filterMap Message.ofJson?).getLast? =
          some (.call (.text "ann") "3" 2 (some ⟨"offer", "v=0"⟩))) = true := by
    decide +kernel
  simp only [Option.any_eq_true, decide_eq_true_eq] at hrun
  obtain ⟨w, hw, c, hc, d, hd, hstate⟩ := hrun
  exact ⟨w, c, d, reachable_of_acts hw, hc, hd, hstate⟩

end World

/-! ## Every run -/

namespace World

/-- Every run of the server and its pages is a run of the pages and their letters: the same
pages, which read the same and send the same. -/
theorem simulated [Nlohmann] {w : World} (h : Reachable w) :
    ∃ n, Net.Reachable n ∧ w.Shows n := by
  obtain ⟨n, hn, hrefines⟩ := refines_of_reachable h
  exact ⟨n, hn, hrefines.shows⟩

theorem simulated_call :
    letI := parserOfMessages callTexts
    ∃ (w : World) (c d : Client), w.page 2 = some c ∧ w.page 3 = some d ∧
      c.callState = .calling ∧ d.callState = .ringing ∧ ∃ n, Net.Reachable n ∧ w.Shows n := by
  let _ := parserOfMessages callTexts
  obtain ⟨w, c, d, hw, hc, hd, ⟨-, -, -, -, hcalling, hringing⟩, -⟩ := reachable_call
  exact ⟨w, c, d, hc, hd, hcalling, hringing, simulated hw⟩

/-- The first text for a page is its id.  Each other one is news of the server, or a message that
the page it comes from has sent for this one under its own id and name; it reads as it was
written, and those of one page come in the order in which they were sent, none twice.  No
Heartbeat that the server has taken is missing. -/
theorem delivered [Nlohmann] {w : World} {k : ConnPtr} {c : Client} (h : Reachable w)
    (hpage : w.page k = some c) : ∃ letters : List Letter,
      w.inbox k = (Message.sessionID (sessionId k)).toJson :: letters.map (·.msg.toJson) ∧
      (∀ l ∈ letters, l.Fits w.page w.served k ∧
        Message.ofJson? l.msg.toJson = some l.msg) ∧
      (∀ i, (letters.filterMap (·.from? i)).Pairwise (· < ·)) ∧
      ∀ m msg, m < w.served k → c.sent[m]? = some msg → msg.isHeartbeat →
        m ∈ letters.filterMap (·.from? k) := by
  obtain ⟨n, -, hrefines⟩ := refines_of_reachable h
  have hnet := hrefines.net
  have hk : (w.page k).isSome := by
    rw [hpage]
    rfl
  rw [← hrefines.shows.page] at hpage
  obtain ⟨letters, hmail, hfits⟩ := hnet.greeted k (by rw [hpage]; rfl)
  have hpositions : ∀ i, n.positions i k = letters.filterMap (·.from? i) := by
    intro i
    rw [Net.positions, hmail]
    rfl
  refine ⟨letters, ?_, fun l hl => ⟨?_, ?_⟩, fun i => ?_, fun m msg hm hmsg hbeat => ?_⟩
  · rw [hrefines.shows.inbox, hmail]
    rfl
  · rw [← hrefines.shows.page, ← hrefines.shows.served]
    exact hfits l hl
  · exact hrefines.ofJson? hk (hmail ▸ List.mem_cons_of_mem _ hl)
  · rw [← hpositions]
    exact hnet.ordered i k
  · rw [← hpositions]
    exact hnet.echoed k c m msg hpage (hrefines.shows.served ▸ hm) hmsg hbeat

theorem delivered_call :
    letI := parserOfMessages callTexts
    ∃ (w : World) (letters : List Letter),
      w.inbox 3 = (Message.sessionID (sessionId 3)).toJson :: letters.map (·.msg.toJson) ∧
      ∃ l ∈ letters, l.msg = .call (.text "ann") "3" 2 (some ⟨"offer", "v=0"⟩) ∧
        l.Fits w.page w.served 3 := by
  let _ := parserOfMessages callTexts
  obtain ⟨w, c, d, hw, -, hd, -, hlast⟩ := reachable_call
  obtain ⟨letters, hletters, hfits, -⟩ := delivered hw hd
  refine ⟨w, letters, hletters, ?_⟩
  obtain ⟨j, hj, hread⟩ := List.mem_filterMap.mp (List.mem_of_getLast? hlast)
  rw [hletters] at hj
  rcases List.mem_cons.mp hj with rfl | hj
  · cases hread
  · obtain ⟨l, hl, rfl⟩ := List.mem_map.mp hj
    exact ⟨l, hl, Option.some.inj ((hfits l hl).2.symm.trans hread), (hfits l hl).1⟩

theorem delimiters_cell {session : Entry} (h : delimiters session.userName = []) :
    delimiters session.cell = ['<', '>', '<', '>'] := by
  rw [Entry.cell, delimiters_append, delimiters_append, delimiters_append, delimiters_append, h,
    delimiters_repr]
  rfl

/-- A page goes by the id of its session once it has read anything.  It lists, selects and calls
sessions of other pages only, never its own, and everything that it sends is to one of them and
carries its id and its name.  A click in a row whose name has no tags is one on its cell. -/
theorem page_sound [Nlohmann] {w : World} {k : ConnPtr} {c : Client} (h : Reachable w)
    (hpage : w.page k = some c) :
    c.Sound (sessionId k) (Other w.page k) (w.read k) ∧
      ∀ row ∈ c.rows, ∃ session : Entry, row = session.row ∧
        (delimiters session.userName = [] →
          delimiters row.innerHTML = ['<', '>', '<', '>']) := by
  obtain ⟨n, -, hrefines⟩ := refines_of_reachable h
  rw [← hrefines.shows.page] at hpage
  have hsound := hrefines.net.page k c hpage
  rw [hrefines.shows.page, hrefines.shows.read] at hsound
  refine ⟨hsound, fun row hrow => ?_⟩
  obtain ⟨session, rfl⟩ := hsound.knows.made row hrow
  exact ⟨session, rfl, delimiters_cell⟩

theorem page_sound_call :
    letI := parserOfMessages callTexts
    ∃ (w : World) (c : Client), w.page 2 = some c ∧ c.sent.length = 4 ∧
      c.callState = .calling ∧ c.sessionID = sessionId 2 ∧
      ∀ msg ∈ c.sent, msg.Signed (sessionId 2) (Other w.page 2) c.userName := by
  let _ := parserOfMessages callTexts
  obtain ⟨w, c, d, hw, hpage, -, ⟨hread, -, hsent, -, hcalling, -⟩, -⟩ := reachable_call
  obtain ⟨hsound, -⟩ := page_sound hw hpage
  exact ⟨w, c, hpage, hsent, hcalling, hsound.told (by rw [hread]; decide), hsound.sent⟩

end World

end Browser

end Mgws
