import Mgws.Proofs.World
/-!
# The heartbeat among other pages

For each page, the letters and what it has sent are a link to the server, whatever the other
pages do.  A page that misses echoes has as many Heartbeats on their way.
-/

namespace Mgws.Browser

open Lib

section

variable {α : Type} {xs ys : List α} {m : Nat} {x : α}

theorem drop_zipIdx_append (h : m ≤ xs.length) :
    (xs ++ ys).zipIdx.drop m = xs.zipIdx.drop m ++ (xs ++ ys).zipIdx.drop xs.length := by
  have hlength : xs.zipIdx.length = xs.length := List.length_zipIdx
  rw [List.zipIdx_append, List.drop_append_of_le_length (by rwa [hlength]),
    List.drop_append_of_le_length hlength.ge, ← hlength, List.drop_length, List.nil_append]

theorem drop_zipIdx_eq_cons (h : xs[m]? = some x) :
    xs.zipIdx.drop m = (x, m) :: xs.zipIdx.drop (m + 1) := by
  obtain ⟨hlt, rfl⟩ := List.getElem?_eq_some_iff.mp h
  rw [List.drop_eq_getElem_cons (by rwa [List.length_zipIdx]), List.getElem_zipIdx, Nat.zero_add]

end

/-! ## One page and its letters -/

/-- The page at `k` and its letters are a link to the server that some run has led to. -/
structure Net.Linked (n : Net) (k : ConnPtr) (c : Client) (l : Link) : Prop where
  reachable : ∃ storedName host,
    Transition.Reachable Link.step (Link.start storedName host (sessionId k)) l
  read : n.read k ≤ (n.mail k).length
  page : l.page = c
  toServer : l.toServer = c.sent.zipIdx.drop (n.served k)
  toClient : l.toClient = ((n.mail k).drop (n.read k)).map fun x => (x.msg, x.from? k)
  echoed : l.echoed = ((n.mail k).take (n.read k)).filterMap (·.from? k)

section

variable {n n' : Net} {i k : ConnPtr} {c d : Client} {l : Link} {msg : Message}

theorem Net.Linked.congr (h : n.Linked k c l) (hmail : n'.mail k = n.mail k)
    (hread : n'.read k = n.read k) (hserved : n'.served k = n.served k) : n'.Linked k c l :=
  ⟨h.reachable, by rw [hmail, hread]; exact h.read, h.page, by rw [hserved]; exact h.toServer,
    by rw [hmail, hread]; exact h.toClient, by rw [hmail, hread]; exact h.echoed⟩

theorem Net.Linked.after (h : n.Linked k c l) (a : Link.Act) : ∃ storedName host,
    Transition.Reachable Link.step (Link.start storedName host (sessionId k)) (l.after a) := by
  obtain ⟨storedName, host, hl⟩ := h.reachable
  exact ⟨storedName, host, hl.step (e := a) trivial rfl⟩

theorem Net.Linked.push (h : n.Linked k c l) {x : Letter} (hx : x.from? k = none)
    (hmsg : x.msg.isSessionID = false) {n' : Net} (hmail : n'.mail k = n.mail k ++ [x])
    (hread : n'.read k = n.read k) (hserved : n'.served k = n.served k) :
    n'.Linked k c (l.after (.push x.msg)) := by
  have hafter : l.after (.push x.msg) = { l with toClient := l.toClient ++ [(x.msg, none)] } :=
    if_neg (by simp [hmsg])
  refine ⟨h.after _, ?_, ?_, ?_, ?_, ?_⟩
  · rw [hmail, hread, List.length_append]
    exact h.read.trans (Nat.le_add_right _ _)
  · rw [hafter]
    exact h.page
  · rw [hafter, hserved]
    exact h.toServer
  · rw [hafter, hmail, hread, List.drop_append_of_le_length h.read, List.map_append, ← h.toClient,
      List.map_singleton, hx]
  · rw [hafter, hmail, hread, List.take_append_of_le_length h.read]
    exact h.echoed

theorem Net.Linked.pushes (h : n.Linked k c l) {xs : List Letter}
    (hxs : ∀ x ∈ xs, x.from? k = none ∧ x.msg.isSessionID = false)
    (hmail : n'.mail k = n.mail k ++ xs) (hread : n'.read k = n.read k)
    (hserved : n'.served k = n.served k) :
    ∃ l', n'.Linked k c l' := by
  induction xs generalizing n l with
  | nil => exact ⟨l, h.congr (hmail.trans (List.append_nil _)) hread hserved⟩
  | cons x xs ih =>
      obtain ⟨⟨hx, hmsg⟩, hrest⟩ := List.forall_mem_cons.mp hxs
      let n₁ : Net := { n with mail := fun i => n.mail i ++ [x] }
      have hpush : n₁.Linked k c (l.after (.push x.msg)) := h.push hx hmsg rfl rfl rfl
      refine ih hpush hrest ?_ hread hserved
      rw [hmail, List.append_assoc]
      rfl

theorem Net.Linked.event (h : n.Linked k c l) (hserved : n.served k ≤ c.sent.length) {e : Event}
    (he : e.isMessage = false) : n.Linked k (c.after e) (l.after (.event e)) := by
  obtain ⟨msgs, hsent, -⟩ := after_says c e
  have hafter : l.after (.event e) = l.dispatch e := if_neg (by simp [he])
  refine ⟨h.after _, h.read, ?_, ?_, ?_, ?_⟩
  · rw [hafter, Link.dispatch, h.page]
  · rw [hafter, Link.dispatch, h.page, h.toServer, hsent, ← drop_zipIdx_append hserved]
  · rw [hafter]
    exact h.toClient
  · rw [hafter]
    exact h.echoed

theorem Net.Linked.deliver (h : n.Linked k c l) (hserved : n.served k ≤ c.sent.length)
    {x : Letter} (hopen : c.socketClosed = false) (hx : (n.mail k)[n.read k]? = some x)
    (hmail : n'.mail k = n.mail k) (hread : n'.read k = n.read k + 1)
    (hserved' : n'.served k = n.served k) :
    n'.Linked k (c.after (.message x.msg)) (l.after .deliver) := by
  obtain ⟨hlt, hget⟩ := List.getElem?_eq_some_iff.mp hx
  have hdrop : (n.mail k).drop (n.read k) = x :: (n.mail k).drop (n.read k + 1) := by
    rw [List.drop_eq_getElem_cons hlt, hget]
  have hclient : l.toClient = (x.msg, x.from? k) ::
      ((n.mail k).drop (n.read k + 1)).map fun x => (x.msg, x.from? k) := by
    rw [h.toClient, hdrop, List.map_cons]
  obtain ⟨msgs, hsent, -⟩ := after_says c (.message x.msg)
  have hafter : l.after .deliver =
      { l with
        toClient := ((n.mail k).drop (n.read k + 1)).map fun x : Letter => (x.msg, x.from? k)
        echoed := l.echoed ++ (x.from? k).toList }.dispatch (.message x.msg) := by
    have hclosed : l.page.socketClosed = false := h.page ▸ hopen
    rw [Link.after, hclient]
    simp only [hclosed, Bool.false_eq_true, if_false]
  refine ⟨h.after _, ?_, ?_, ?_, ?_, ?_⟩
  · rw [hmail, hread]
    exact hlt
  · rw [hafter, Link.dispatch, h.page]
  · rw [hafter, Link.dispatch, h.page, h.toServer, hsent, hserved', ← drop_zipIdx_append hserved]
  · rw [hafter, hmail, hread]
    rfl
  · rw [hafter, hmail, hread, List.take_add_one, hx, Option.toList_some, List.filterMap_append,
      ← h.echoed]
    show l.echoed ++ _ = _
    cases hfrom : x.from? k <;> simp [hfrom]

theorem Net.Linked.serve (h : n.Linked k c l) (hmsg : c.sent[n.served k]? = some msg)
    {xs : List Letter} (hecho : msg.isHeartbeat → xs = [⟨msg, some (k, n.served k)⟩])
    (hother : msg.isHeartbeat = false → xs = []) (hmail : n'.mail k = n.mail k ++ xs)
    (hread : n'.read k = n.read k) (hserved : n'.served k = n.served k + 1) :
    n'.Linked k c (l.after .serve) := by
  have hserver : l.toServer = (msg, n.served k) :: c.sent.zipIdx.drop (n.served k + 1) := by
    rw [h.toServer, drop_zipIdx_eq_cons hmsg]
  have hxs : xs.map (fun x => (x.msg, x.from? k)) =
      if msg.isHeartbeat then [(msg, some (n.served k))] else [] := by
    cases hbeat : msg.isHeartbeat with
    | true => simp [hecho hbeat, Letter.from?]
    | false => simp [hother hbeat]
  have hafter : l.after .serve =
      { l with
        toServer := c.sent.zipIdx.drop (n.served k + 1)
        toClient := l.toClient ++ xs.map fun x => (x.msg, x.from? k) } := by
    rw [Link.after, hserver, hxs]
  refine ⟨h.after _, ?_, ?_, ?_, ?_, ?_⟩
  · rw [hmail, hread, List.length_append]
    exact h.read.trans (Nat.le_add_right _ _)
  · rw [hafter]
    exact h.page
  · rw [hafter, hserved]
  · rw [hafter, hmail, hread, List.drop_append_of_le_length h.read, List.map_append, ← h.toClient]
  · rw [hafter, hmail, hread, List.take_append_of_le_length h.read]
    exact h.echoed

theorem Net.Linked.start (hmail : n.mail k = [⟨.sessionID (sessionId k), none⟩])
    (hread : n.read k = 0) (hserved : n.served k = 0) (storedName : Name) (host : String) :
    n.Linked k (loaded storedName host) (Link.start storedName host (sessionId k)) := by
  refine ⟨⟨storedName, host, .init⟩, ?_, rfl, ?_, ?_, ?_⟩
  · rw [hread]
    exact Nat.zero_le _
  · rw [hserved]
    rfl
  · rw [hmail, hread]
    rfl
  · rw [hmail, hread]
    rfl

/-- The message goes to no page but the one that is meant, and a page is not its own peer. -/
theorem Net.Sound.dest_ne (h : n.Sound) (hpage : n.page k = some c) {m : Nat}
    (hmsg : c.sent[m]? = some msg) (hbeat : msg.isHeartbeat = false) : ¬msg.GoesTo k k := by
  intro hgoes
  rcases ((h.page k c hpage).sent msg (List.mem_of_getElem? hmsg)).goesTo hgoes with htrue | hother
  · rw [hbeat] at htrue
    cases htrue
  · exact hother.1 rfl

theorem Net.linked_pass (h : n.Sound) (hlinked : n.Linked k c l) (hpage : n.page k = some c)
    (hi : n.page i = some d) (hmsg : d.sent[n.served i]? = some msg) {dest : Option ConnPtr}
    (hecho : msg.isHeartbeat → dest = some i)
    (hdest : ∀ k', dest = some k' → (n.page k').isSome ∧ msg.GoesTo i k') :
    ∃ l', (n.pass i msg dest).Linked k c l' := by
  by_cases hik : k = i
  · subst hik
    obtain rfl : c = d := Option.some.inj (hpage.symm.trans hi)
    refine ⟨_, hlinked.serve hmsg (fun hbeat => ?_) (fun hbeat => ?_) rfl rfl
      (Function.update_self ..)⟩
    · exact if_pos (hecho hbeat)
    · exact if_neg fun hself => h.dest_ne hpage hmsg hbeat (hdest k hself).2
  · have hletter : ∀ x ∈ (if dest = some k then [(⟨msg, some (i, n.served i)⟩ : Letter)] else []),
        x.from? k = none ∧ x.msg.isSessionID = false := by
      intro x hx
      split at hx
      swap
      · cases hx
      next hk =>
        rw [List.mem_singleton.mp hx]
        refine ⟨if_neg (Ne.symm hik), ?_⟩
        have hgoes := (hdest k hk).2
        cases msg with
        | sessionID => exact hgoes.elim
        | _ => rfl
    exact hlinked.pushes hletter rfl rfl (Function.update_of_ne hik ..)

theorem Net.linked_of_reachable (h : Net.Reachable n) :
    ∀ k c, n.page k = some c → ∃ l, n.Linked k c l := by
  induction h with
  | refl =>
      intro k c hc
      cases hc
  | @tail n n' hreach hstep ih =>
      have hsound := Net.sound_of_reachable hreach
      intro k c hc
      cases hstep with
      | @join i storedName host hnew =>
          rcases update_eq_some hc with ⟨rfl, rfl⟩ | ⟨hi, hc'⟩
          · obtain ⟨-, hread, hserved⟩ := hsound.idle k hnew
            refine ⟨_, .start ?_ ?_ ?_ storedName host⟩
            · exact Function.update_self ..
            · exact hread
            · exact hserved
          · obtain ⟨l, hl⟩ := ih k c hc'
            exact ⟨l, hl.congr (Function.update_of_ne hi ..) rfl rfl⟩
      | @news msgs hnews =>
          obtain ⟨l, hl⟩ := ih k c hc
          have hunsent : ∀ x ∈ (msgs k).map (⟨·, none⟩ : Message → Letter),
              x.from? k = none ∧ x.msg.isSessionID = false := by
            intro x hx
            obtain ⟨msg, hmsg, rfl⟩ := List.mem_map.mp hx
            refine ⟨rfl, ?_⟩
            cases (hnews k msg hmsg).2 <;> rfl
          exact hl.pushes hunsent rfl rfl rfl
      | serve hi hmsg hecho hdest =>
          obtain ⟨l, hl⟩ := ih k c hc
          exact Net.linked_pass hsound hl hc hi hmsg hecho hdest
      | @event i d e hi he =>
          rcases update_eq_some hc with ⟨rfl, rfl⟩ | ⟨-, hc'⟩
          · obtain ⟨l, hl⟩ := ih k d hi
            exact ⟨_, (hl.event (hsound.served k d hi) he).congr rfl rfl rfl⟩
          · obtain ⟨l, hl⟩ := ih k c hc'
            exact ⟨l, hl.congr rfl rfl rfl⟩
      | @deliver i d x hi hopen hx =>
          rcases update_eq_some hc with ⟨rfl, rfl⟩ | ⟨hik, hc'⟩
          · obtain ⟨l, hl⟩ := ih k d hi
            exact ⟨_, hl.deliver (hsound.served k d hi) hopen hx rfl (Function.update_self ..) rfl⟩
          · obtain ⟨l, hl⟩ := ih k c hc'
            exact ⟨l, hl.congr rfl (Function.update_of_ne hik ..) rfl⟩

/-! ## Heartbeats on their way -/

theorem beats_split (c : Client) (m : Nat) : ∃ old new, c.beats = old ++ new ∧
    (∀ p ∈ old, p < m ∧ ∃ msg, c.sent[p]? = some msg ∧ msg.isHeartbeat) ∧ old.Nodup ∧
    new.length = (c.sent.drop m).countP (·.isHeartbeat) := by
  have hlength : ∀ (msgs : List Message) (start : Nat), (((msgs.zipIdx start).filter fun sent =>
      sent.1.isHeartbeat).map fun sent => sent.2).length = msgs.countP (·.isHeartbeat) := by
    intro msgs start
    rw [List.length_map, ← List.countP_eq_length_filter]
    induction msgs generalizing start with
    | nil => rfl
    | cons msg msgs ih => rw [List.zipIdx_cons, List.countP_cons, List.countP_cons, ih]
  refine ⟨(((c.sent.take m).zipIdx).filter fun sent => sent.1.isHeartbeat).map fun sent => sent.2,
    _, ?_, fun p hp => ?_, ?_, hlength (c.sent.drop m) (0 + (c.sent.take m).length)⟩
  · rw [← List.map_append, ← List.filter_append, ← List.zipIdx_append, List.take_append_drop]
    rfl
  · obtain ⟨⟨msg, q⟩, hmem, rfl⟩ := List.mem_map.mp hp
    obtain ⟨hzip, hbeat⟩ := List.mem_filter.mp hmem
    obtain ⟨hlt, hget⟩ := List.getElem?_eq_some_iff.mp (List.mem_zipIdx_iff_getElem?.mp hzip)
    rw [List.length_take] at hlt
    rw [List.getElem_take] at hget
    exact ⟨Nat.lt_of_lt_of_le hlt (Nat.min_le_left _ _), msg,
      List.getElem?_eq_some_iff.mpr ⟨Nat.lt_of_lt_of_le hlt (Nat.min_le_right _ _), hget⟩, hbeat⟩
  · refine (List.Sublist.map _ List.filter_sublist).nodup ?_
    rw [List.zipIdx_map_snd]
    exact List.nodup_range'

theorem Net.Sound.isHeartbeat (h : n.Sound) (hpage : n.page k = some c) {x : Letter}
    (hx : x ∈ n.mail k) {m : Nat} (hfrom : x.from? k = some m) : x.msg.isHeartbeat := by
  have horigin := Net.Letter.origin_of_from? hfrom
  obtain ⟨rest, hrest, hfits⟩ := h.greeted k (by rw [hpage]; rfl)
  rw [hrest] at hx
  rcases List.mem_cons.mp hx with rfl | hx
  · cases horigin
  · rcases hfits x hx with ⟨hnone, -⟩ | ⟨i, m', d, hsome, -, hd, hmsg, hgoes, -⟩
    · rw [horigin] at hnone
      cases hnone
    · rw [horigin] at hsome
      cases hsome
      obtain rfl : c = d := Option.some.inj (hpage.symm.trans hd)
      by_contra hbeat
      exact h.dest_ne hpage hmsg (by simpa using hbeat) hgoes

/-- Every Heartbeat that was counted is on its way to the server or back. -/
theorem Net.Linked.beats_le (h : n.Linked k c l) (hsound : n.Sound) (hpage : n.page k = some c) :
    c.heartbeatsMissed ≤ (c.sent.drop (n.served k)).countP (·.isHeartbeat) +
      ((n.mail k).drop (n.read k)).countP (·.msg.isHeartbeat) := by
  obtain ⟨storedName, host, hl⟩ := h.reachable
  obtain ⟨-, hwatchdog⟩ := Link.reachable_wf hl
  have hle : c.heartbeatsMissed ≤ c.beats.length := by
    have hmissed := hwatchdog.le
    simp only [Link.watchdog, h.page] at hmissed
    exact hmissed
  have hunanswered : ∀ m ∈ c.beats.drop (c.beats.length - c.heartbeatsMissed),
      m ∉ ((n.mail k).take (n.read k)).filterMap (·.from? k) := by
    have hrecent := hwatchdog.unanswered
    simp only [Watchdog.recent, Link.watchdog, h.page, h.echoed] at hrecent
    exact hrecent
  obtain ⟨old, new, hbeats, hold, hnodup, hnew⟩ := beats_split c (n.served k)
  rw [hbeats, List.length_append] at hle hunanswered
  rcases Nat.le_or_ge c.heartbeatsMissed new.length with hfew | hmany
  · rw [← hnew]
    exact hfew.trans (Nat.le_add_right _ _)
  -- those of the counted ones that the server has taken have an echo that is not read yet
  have hdrop : old.length + new.length - c.heartbeatsMissed ≤ old.length := by omega
  rw [List.drop_append_of_le_length hdrop] at hunanswered
  obtain ⟨taken, htaken⟩ : ∃ taken,
      taken = old.drop (old.length + new.length - c.heartbeatsMissed) := ⟨_, rfl⟩
  have hunread : taken ⊆ ((n.mail k).drop (n.read k)).filterMap (·.from? k) := by
    intro p hp
    obtain ⟨hlt, msg, hmsg, hbeat⟩ := hold p (List.mem_of_mem_drop (htaken ▸ hp))
    have hechoed := hsound.echoed k c p msg hpage hlt hmsg hbeat
    rw [Net.positions, ← List.take_append_drop (n.read k) (n.mail k),
      List.filterMap_append] at hechoed
    refine (List.mem_append.mp hechoed).resolve_left (hunanswered p ?_)
    exact List.mem_append_left _ (htaken ▸ hp)
  have hcount : taken.length ≤ ((n.mail k).drop (n.read k)).countP (·.msg.isHeartbeat) := by
    have hnodup' : taken.Nodup := htaken ▸ hnodup.sublist (List.drop_sublist _ _)
    refine (List.Nodup.length_le_of_subset hnodup' hunread).trans ?_
    rw [List.length_filterMap_eq_countP]
    refine List.countP_mono_left fun x hx hsome => ?_
    obtain ⟨m, hm⟩ := Option.isSome_iff_exists.mp hsome
    exact hsound.isHeartbeat hpage (List.mem_of_mem_drop hx) hm
  have hlength : taken.length = c.heartbeatsMissed - new.length := by
    rw [htaken, List.length_drop]
    omega
  omega

end

/-! ## In every run -/

namespace World

/-- Whatever the other pages do, a page and what passes between it and the server are a link that
some run of a link has led to. -/
theorem linked [Nlohmann] {w : World} {k : ConnPtr} {c : Client} (h : Reachable w)
    (hpage : w.page k = some c) : ∃ (storedName : Name) (host : String) (l : Link),
      Transition.Reachable Link.step (Link.start storedName host (sessionId k)) l ∧ l.page = c ∧
      l.toServer = c.sent.zipIdx.drop (w.served k) ∧
      l.toClient.map (fun msg => msg.1.toJson) = (w.inbox k).drop (w.read k) := by
  obtain ⟨n, hn, hrefines⟩ := refines_of_reachable h
  rw [← hrefines.shows.page] at hpage
  obtain ⟨l, hl⟩ := Net.linked_of_reachable hn k c hpage
  obtain ⟨storedName, host, hreachable⟩ := hl.reachable
  refine ⟨storedName, host, l, hreachable, hl.page, ?_, ?_⟩
  · rw [← hrefines.shows.served]
    exact hl.toServer
  · rw [hl.toClient, hrefines.shows.inbox, ← hrefines.shows.read, List.map_map, ← List.map_drop]
    rfl

theorem linked_call :
    letI := parserOfMessages callTexts
    ∃ (storedName : Name) (host : String) (l : Link),
      Transition.Reachable Link.step (Link.start storedName host (sessionId 2)) l ∧
      l.page.callState = .calling ∧ l.page.heartbeatsMissed = 1 := by
  let _ := parserOfMessages callTexts
  obtain ⟨w, c, d, hw, hpage, -, ⟨-, -, -, hmissed, hcalling, -⟩, -⟩ := reachable_call
  obtain ⟨storedName, host, l, hreachable, rfl, -⟩ := linked hw hpage
  exact ⟨storedName, host, l, hreachable, hcalling, hmissed⟩

/-- The count of missed Heartbeats is at most the number of those that are on their way: what the
server has not taken yet, and what has come back and is not read yet.  So a page never gives up a
server that has answered everything. -/
theorem missed_le [Nlohmann] {w : World} {k : ConnPtr} {c : Client} (h : Reachable w)
    (hpage : w.page k = some c) :
    c.heartbeatsMissed ≤ (c.sent.drop (w.served k)).countP (·.isHeartbeat) +
      ((w.inbox k).drop (w.read k)).countP
        fun j => (Message.ofJson? j).any (·.isHeartbeat) := by
  obtain ⟨n, hn, hrefines⟩ := refines_of_reachable h
  have hk : (w.page k).isSome := by
    rw [hpage]
    rfl
  rw [← hrefines.shows.page] at hpage
  obtain ⟨l, hl⟩ := Net.linked_of_reachable hn k c hpage
  have hle := hl.beats_le hrefines.net hpage
  have hunread : ((w.inbox k).drop (w.read k)).countP
      (fun j => (Message.ofJson? j).any (·.isHeartbeat)) =
        ((n.mail k).drop (n.read k)).countP (·.msg.isHeartbeat) := by
    rw [hrefines.shows.inbox, ← hrefines.shows.read, ← List.map_drop, List.countP_map]
    refine List.countP_congr fun x hx => ?_
    rw [Function.comp_apply, hrefines.ofJson? hk (List.mem_of_mem_drop hx), Option.any_some]
  rw [hunread, ← hrefines.shows.served]
  exact hle

theorem missed_le_call :
    letI := parserOfMessages callTexts
    ∃ (w : World) (c : Client), w.served 2 = c.sent.length ∧ c.heartbeatsMissed = 1 ∧
      1 ≤ (c.sent.drop (w.served 2)).countP (·.isHeartbeat) +
        ((w.inbox 2).drop (w.read 2)).countP
          fun j => (Message.ofJson? j).any (·.isHeartbeat) := by
  let _ := parserOfMessages callTexts
  obtain ⟨w, c, d, hw, hpage, -, ⟨-, hserved, hsent, hmissed, -⟩, -⟩ := reachable_call
  exact ⟨w, c, hserved.trans hsent.symm, hmissed, hmissed ▸ missed_le hw hpage⟩

end World

end Mgws.Browser
