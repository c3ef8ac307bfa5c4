import Mgws.Browser.Net
import Mgws.Proofs.Signed
/-!
# What passes between the pages

In every run a page reads its id first, and then news, its own Heartbeats and messages that
another page has sent to it, each once and those of one page in the order in which they were sent.
-/

namespace Mgws.Browser

open Lib

variable {page page' : ConnPtr → Option Client} {i k : ConnPtr} {msg : Message} {m : Nat}

def Other (page : ConnPtr → Option Client) (k : ConnPtr) (m : Nat) : Prop :=
  m ≠ sessionId k ∧ ∃ j, (page j).isSome ∧ m = sessionId j

/-- Every page is still there, has its name and has sent what it had sent. -/
def Extends (page page' : ConnPtr → Option Client) : Prop :=
  ∀ k c, page k = some c → ∃ d, page' k = some d ∧ d.userName = c.userName ∧ c.sent <+: d.sent

section

theorem Extends.isSome (h : Extends page page') (hk : (page k).isSome) : (page' k).isSome := by
  obtain ⟨c, hc⟩ := Option.isSome_iff_exists.mp hk
  obtain ⟨d, hd, -, -⟩ := h k c hc
  rw [hd]
  rfl

theorem Extends.other (h : Extends page page') (hm : Other page k m) : Other page' k m := by
  obtain ⟨hne, j, hj, hid⟩ := hm
  exact ⟨hne, j, h.isSome hj, hid⟩

theorem Extends.news (h : Extends page page') (hmsg : News page msg) : News page' msg := by
  cases hmsg with
  | directory hsessions =>
      refine .directory fun entry hentry => ?_
      obtain ⟨j, hj, hid⟩ := hsessions entry hentry
      exact ⟨j, h.isSome hj, hid⟩
  | confirmed => exact .confirmed

/-- What a page does keeps its name and adds to what it has sent. -/
theorem extends_after {c : Client} (hpage : page k = some c) (e : Event) :
    Extends page (Function.update page k (some (c.after e))) := by
  intro j d hd
  by_cases hj : j = k
  · subst hj
    rw [hpage] at hd
    cases hd
    obtain ⟨msgs, hsent, -⟩ := after_says c e
    exact ⟨c.after e, Function.update_self .., (identity_after c e).1, msgs, hsent.symm⟩
  · exact ⟨d, by rw [Function.update_of_ne hj, hd], rfl, List.prefix_rfl⟩

theorem extends_join {c : Client} (hpage : page k = none) :
    Extends page (Function.update page k (some c)) := by
  intro j d hd
  have hj : j ≠ k := by
    rintro rfl
    rw [hpage] at hd
    cases hd
  exact ⟨d, by rw [Function.update_of_ne hj, hd], rfl, List.prefix_rfl⟩

/-! ## Letters -/

/-- A letter to the page at `k`: news, or a message that a page has sent for it. -/
def Letter.Fits (page : ConnPtr → Option Client) (served : ConnPtr → Nat) (k : ConnPtr)
    (l : Letter) : Prop :=
  (l.origin = none ∧ News page l.msg) ∨
    ∃ i m c, l.origin = some (i, m) ∧ m < served i ∧ page i = some c ∧
      c.sent[m]? = some l.msg ∧ l.msg.GoesTo i k ∧
      l.msg.Signed (sessionId i) (Other page i) c.userName

variable {served served' : ConnPtr → Nat} {l : Letter}

theorem Letter.Fits.mono (h : l.Fits page served k) (hpage : Extends page page')
    (hserved : ∀ i, served i ≤ served' i) : l.Fits page' served' k := by
  rcases h with ⟨horigin, hnews⟩ | ⟨i, m, c, horigin, hm, hc, hmsg, hgoes, hsigned⟩
  · exact .inl ⟨horigin, hpage.news hnews⟩
  · obtain ⟨d, hd, hname, msgs, hsent⟩ := hpage i c hc
    refine .inr ⟨i, m, d, horigin, Nat.lt_of_lt_of_le hm (hserved i), hd, ?_, hgoes, ?_⟩
    · rwa [← hsent, List.getElem?_append_left (List.getElem?_eq_some_iff.mp hmsg).1]
    · rw [hname]
      exact hsigned.mono fun _ hn => hpage.other hn

theorem Message.Signed.goesTo {me : Nat} {S : Nat → Prop} {name : Name}
    (h : msg.Signed me S name) (hgoes : msg.GoesTo i k) : msg.isHeartbeat ∨ S (sessionId k) := by
  cases msg with
  | heartbeat => exact .inl rfl
  | call | answer =>
      obtain ⟨-, -, m, hm, rfl⟩ := h
      exact .inr ((repr_injective hgoes.2) ▸ hm)
  | hangup | iceCandidate =>
      obtain ⟨-, m, hm, rfl⟩ := h
      exact .inr ((repr_injective hgoes.2) ▸ hm)
  | _ => exact hgoes.elim

theorem Message.GoesTo.wellFormed (h : msg.GoesTo i k) : msg.wellFormed := by
  cases msg with
  | heartbeat => rfl
  | call | answer | hangup | iceCandidate => exact h.1
  | _ => exact h.elim

theorem News.wellFormed (h : News page msg) : msg.wellFormed := by
  cases h <;> rfl

theorem Letter.Fits.isSessionID (h : l.Fits page served k) : l.msg.isSessionID = false := by
  obtain ⟨msg, origin⟩ := l
  rcases h with ⟨-, hnews⟩ | ⟨i, m, c, -, -, -, -, hgoes, -⟩
  · cases hnews <;> rfl
  · cases msg with
    | sessionID => exact hgoes.elim
    | _ => rfl

theorem Letter.Fits.tells (h : l.Fits page served k) :
    l.msg.Tells (Other page k) (sessionId k) := by
  obtain ⟨msg, origin⟩ := l
  rcases h with ⟨-, hnews⟩ | ⟨i, m, c, -, -, hc, -, hgoes, hsigned⟩
  · cases hnews with
    | directory hsessions =>
        intro entry hentry hne
        obtain ⟨j, hj, hid⟩ := hsessions entry hentry
        exact ⟨hne, j, hj, hid⟩
    | confirmed => trivial
  · cases msg with
    | call =>
        obtain ⟨hself, -⟩ := (hsigned.goesTo hgoes).resolve_left Bool.false_ne_true
        obtain ⟨-, hid, -⟩ := hsigned
        refine ⟨?_, i, ?_, hid⟩
        · rw [hid]
          exact hself.symm
        · rw [hc]
          rfl
    | sessionsChanged => exact hgoes.elim
    | _ => trivial

end

/-! ## Every run -/

namespace Net

def positions (n : Net) (i k : ConnPtr) : List Nat := (n.mail k).filterMap (·.from? i)

structure Sound (n : Net) : Prop where
  idle : ∀ k, n.page k = none → n.mail k = [] ∧ n.read k = 0 ∧ n.served k = 0
  greeted : ∀ k, (n.page k).isSome → ∃ rest, n.mail k = ⟨.sessionID (sessionId k), none⟩ :: rest ∧
    ∀ l ∈ rest, l.Fits n.page n.served k
  ordered : ∀ i k, (n.positions i k).Pairwise (· < ·)
  echoed : ∀ k c m msg, n.page k = some c → m < n.served k → c.sent[m]? = some msg →
    msg.isHeartbeat → m ∈ n.positions k k
  served : ∀ k c, n.page k = some c → n.served k ≤ c.sent.length
  page : ∀ k c, n.page k = some c → c.Sound (sessionId k) (Other n.page k) (n.read k)

section

variable {n : Net} {c : Client} {e : Event} {dest : Option ConnPtr} {served : ConnPtr → Nat}
  {letters : ConnPtr → List Letter}

theorem sound_start : start.Sound where
  idle _ _ := ⟨rfl, rfl, rfl⟩
  greeted _ hk := by cases hk
  ordered _ _ := .nil
  echoed _ _ _ _ hc := by cases hc
  served _ _ hc := by cases hc
  page _ _ hc := by cases hc

theorem Letter.origin_of_from? {l : Letter} (h : l.from? i = some m) : l.origin = some (i, m) := by
  obtain ⟨⟨j, m'⟩, horigin, hif⟩ := Option.bind_eq_some_iff.mp h
  split at hif
  · next hj =>
      cases hif
      rw [horigin, ← hj]
  · cases hif

/-- What has reached a page was passed on. -/
theorem Sound.lt_served (h : n.Sound) (hm : m ∈ n.positions i k) : m < n.served i := by
  obtain ⟨l, hl, hfrom⟩ := List.mem_filterMap.mp hm
  have horigin := Letter.origin_of_from? hfrom
  cases hk : n.page k with
  | none =>
      rw [(h.idle k hk).1] at hl
      cases hl
  | some c =>
      obtain ⟨rest, hrest, hfits⟩ := h.greeted k (by rw [hk]; rfl)
      rw [hrest] at hl
      rcases List.mem_cons.mp hl with rfl | hl
      · cases horigin
      · rcases hfits l hl with ⟨hnone, -⟩ | ⟨i', m', c', hsome, hlt, -⟩
        · rw [horigin] at hnone
          cases hnone
        · rw [horigin] at hsome
          cases hsome
          exact hlt

theorem Sound.post (h : n.Sound) (hserved : ∀ i, n.served i ≤ served i)
    (hidle : ∀ k, n.page k = none → served k = n.served k)
    (hletters : ∀ k, ∀ l ∈ letters k, (n.page k).isSome ∧ l.Fits n.page served k)
    (hordered : ∀ i k, ((n.post letters).positions i k).Pairwise (· < ·))
    (hechoed : ∀ k c m msg, n.page k = some c → m < served k → c.sent[m]? = some msg →
      msg.isHeartbeat → m ∈ (n.post letters).positions k k)
    (hlength : ∀ k c, n.page k = some c → served k ≤ c.sent.length) :
    { n.post letters with served := served }.Sound := by
  refine ⟨fun k hk => ?_, fun k hk => ?_, hordered, hechoed, hlength, h.page⟩
  · obtain ⟨hmail, hread, hcount⟩ := h.idle k hk
    refine ⟨?_, hread, (hidle k hk).trans hcount⟩
    have hnone : letters k = [] := by
      refine List.eq_nil_iff_forall_not_mem.mpr fun l hl => ?_
      have hsome := (hletters k l hl).1
      rw [show n.page k = none from hk] at hsome
      cases hsome
    show n.mail k ++ letters k = []
    rw [hmail, hnone, List.append_nil]
  · obtain ⟨rest, hrest, hfits⟩ := h.greeted k hk
    refine ⟨rest ++ letters k, ?_, fun l hl => ?_⟩
    · show n.mail k ++ letters k = _
      rw [hrest, List.cons_append]
    · rcases List.mem_append.mp hl with hl | hl
      · exact (hfits l hl).mono (fun k c hc => ⟨c, hc, rfl, List.prefix_rfl⟩) hserved
      · exact (hletters k l hl).2

theorem positions_post (n : Net) (letters : ConnPtr → List Letter) (i k : ConnPtr) :
    (n.post letters).positions i k = n.positions i k ++ (letters k).filterMap (·.from? i) :=
  List.filterMap_append ..

theorem Sound.news (h : n.Sound) {msgs : ConnPtr → List Message}
    (hnews : ∀ k, ∀ msg ∈ msgs k, (n.page k).isSome ∧ News n.page msg) :
    (n.post fun k => (msgs k).map (⟨·, none⟩)).Sound := by
  have hpositions : ∀ i k, (n.post fun k => (msgs k).map (⟨·, none⟩)).positions i k =
      n.positions i k := by
    intro i k
    have hnone : ((msgs k).map fun msg => (⟨msg, none⟩ : Letter)).filterMap (·.from? i) = [] := by
      refine List.filterMap_eq_nil_iff.mpr fun l hl => ?_
      obtain ⟨msg, -, rfl⟩ := List.mem_map.mp hl
      rfl
    rw [positions_post, hnone, List.append_nil]
  refine h.post (fun _ => le_rfl) (fun _ _ => rfl) (fun k l hl => ?_) (fun i k => ?_)
    (fun k c m msg hc hm hmsg hbeat => ?_) h.served
  · obtain ⟨msg, hmsg, rfl⟩ := List.mem_map.mp hl
    obtain ⟨hk, hfits⟩ := hnews k msg hmsg
    exact ⟨hk, .inl ⟨rfl, hfits⟩⟩
  · rw [hpositions]
    exact h.ordered i k
  · rw [hpositions]
    exact h.echoed k c m msg hc hm hmsg hbeat

theorem Sound.pass (h : n.Sound) (hpage : n.page k = some c)
    (hmsg : c.sent[n.served k]? = some msg) (hecho : msg.isHeartbeat → dest = some k)
    (hdest : ∀ k', dest = some k' → (n.page k').isSome ∧ msg.GoesTo k k') :
    (n.pass k msg dest).Sound := by
  obtain ⟨hlt, -⟩ := List.getElem?_eq_some_iff.mp hmsg
  have hcount : ∀ i, Function.update n.served k (n.served k + 1) i =
      if i = k then n.served k + 1 else n.served i := fun i => by rw [Function.update_apply]
  have hletter : ∀ i k', (if dest = some k' then [(⟨msg, some (k, n.served k)⟩ : Letter)] else
      []).filterMap (·.from? i) = if dest = some k' ∧ k = i then [n.served k] else [] := by
    intro i k'
    by_cases hk' : dest = some k'
    · by_cases hi : k = i <;> simp [hk', hi, Letter.from?]
    · simp [hk']
  refine h.post (fun i => ?_) (fun i hi => ?_) (fun k' l hl => ?_) (fun i k' => ?_)
    (fun k' d m msg' hd hm hmsg' hbeat => ?_) (fun k' d hd => ?_)
  · rw [hcount]
    split
    · next hi => rw [hi]; exact Nat.le_succ _
    · exact le_rfl
  · rw [hcount, if_neg]
    rintro rfl
    rw [hpage] at hi
    cases hi
  · split at hl
    swap
    · cases hl
    next hk' =>
      obtain ⟨hsome, hgoes⟩ := hdest k' hk'
      rw [List.mem_singleton.mp hl]
      refine ⟨hsome, .inr ⟨k, n.served k, c, rfl, ?_, hpage, hmsg, hgoes,
        (h.page k c hpage).sent msg (List.mem_of_getElem? hmsg)⟩⟩
      rw [hcount, if_pos rfl]
      exact Nat.lt_succ_self _
  · rw [positions_post, hletter]
    refine List.pairwise_append.mpr ⟨h.ordered i k', ?_, fun m hm m' hm' => ?_⟩
    · split
      · exact List.pairwise_singleton ..
      · exact .nil
    · split at hm'
      · next hi =>
          rw [List.mem_singleton.mp hm', hi.2]
          exact h.lt_served hm
      · cases hm'
  · rw [positions_post, hletter, List.mem_append]
    rw [hcount] at hm
    by_cases hk' : k' = k
    · subst hk'
      rw [hpage] at hd
      cases hd
      rw [if_pos rfl] at hm
      rcases Nat.lt_succ_iff_lt_or_eq.mp hm with hm | rfl
      · exact .inl (h.echoed k' c m msg' hpage hm hmsg' hbeat)
      · rw [hmsg] at hmsg'
        cases hmsg'
        right
        rw [if_pos ⟨hecho hbeat, rfl⟩]
        exact List.mem_singleton_self _
    · rw [if_neg hk'] at hm
      exact .inl (h.echoed k' d m msg' hd hm hmsg' hbeat)
  · rw [hcount]
    split
    · next hk' =>
        rw [hk', hpage] at hd
        cases hd
        exact hlt
    · exact h.served k' d hd

theorem update_eq_some {d : Client} (h : Function.update page k (some c) i = some d) :
    (i = k ∧ d = c) ∨ (i ≠ k ∧ page i = some d) := by
  by_cases hi : i = k
  · subst hi
    rw [Function.update_self] at h
    exact .inl ⟨rfl, (Option.some.inj h).symm⟩
  · rw [Function.update_of_ne hi] at h
    exact .inr ⟨hi, h⟩

theorem Sound.join (h : n.Sound) (storedName : Name) (host : String) (hnew : n.page k = none) :
    { n.setPage k (loaded storedName host) with
      mail := Function.update n.mail k [⟨.sessionID (sessionId k), none⟩] }.Sound := by
  have hextends : Extends n.page (Function.update n.page k (some (loaded storedName host))) :=
    extends_join hnew
  obtain ⟨hmail, hread, hserved⟩ := h.idle k hnew
  have hpositions : ∀ i k', (Function.update n.mail k [⟨.sessionID (sessionId k), none⟩]
      k').filterMap (·.from? i) = n.positions i k' := by
    intro i k'
    by_cases hk' : k' = k
    · subst hk'
      rw [Function.update_self, positions, hmail]
      rfl
    · rw [Function.update_of_ne hk', positions]
  refine ⟨fun i hi => ?_, fun i hi => ?_, fun i k' => ?_, fun i c m msg hc hm hmsg hbeat => ?_,
    fun i c hc => ?_, fun i c hc => ?_⟩
  · have hik : i ≠ k := by
      rintro rfl
      simp [setPage] at hi
    obtain ⟨hmail, hrest⟩ := h.idle i ((Function.update_of_ne hik ..).symm.trans hi)
    exact ⟨(Function.update_of_ne hik ..).trans hmail, hrest⟩
  · obtain ⟨d, hd⟩ := Option.isSome_iff_exists.mp hi
    rcases update_eq_some hd with ⟨rfl, -⟩ | ⟨hik, hd'⟩
    · exact ⟨[], Function.update_self .., fun l hl => absurd hl List.not_mem_nil⟩
    · obtain ⟨rest, hrest, hfits⟩ := h.greeted i (by rw [hd']; rfl)
      exact ⟨rest, (Function.update_of_ne hik ..).trans hrest,
        fun l hl => (hfits l hl).mono hextends fun _ => le_rfl⟩
  · show ((Function.update n.mail k _ k').filterMap (·.from? i)).Pairwise _
    rw [hpositions]
    exact h.ordered i k'
  · show m ∈ (Function.update n.mail k _ i).filterMap (·.from? i)
    rw [hpositions]
    rcases update_eq_some hc with ⟨rfl, -⟩ | ⟨-, hc'⟩
    · exact absurd (hserved ▸ hm : m < 0) (Nat.not_lt_zero m)
    · exact h.echoed i c m msg hc' hm hmsg hbeat
  · rcases update_eq_some hc with ⟨rfl, -⟩ | ⟨-, hc'⟩
    · exact hserved.le.trans (Nat.zero_le _)
    · exact h.served i c hc'
  · rcases update_eq_some hc with ⟨rfl, rfl⟩ | ⟨-, hc'⟩
    · show (loaded storedName host).Sound _ _ (n.read i)
      rw [hread]
      exact sound_loaded _ _ storedName host
    · exact (h.page i c hc').mono fun _ hm => hextends.other hm

theorem Sound.dispatch (h : n.Sound) (hpage : n.page k = some c) {r : Nat}
    (hsound : (c.after e).Sound (sessionId k) (Other n.page k) r) :
    { n.setPage k (c.after e) with read := Function.update n.read k r }.Sound := by
  have hextends := extends_after hpage e
  obtain ⟨msgs, hsent, -⟩ := after_says c e
  refine ⟨fun i hi => ?_, fun i hi => ?_, h.ordered, fun i d m msg hd hm hmsg hbeat => ?_,
    fun i d hd => ?_, fun i d hd => ?_⟩
  · have hik : i ≠ k := by
      rintro rfl
      simp [setPage] at hi
    obtain ⟨hmail, hread, hserved⟩ := h.idle i ((Function.update_of_ne hik ..).symm.trans hi)
    exact ⟨hmail, (Function.update_of_ne hik ..).trans hread, hserved⟩
  · obtain ⟨d, hd⟩ := Option.isSome_iff_exists.mp hi
    have hsome : (n.page i).isSome := by
      rcases update_eq_some hd with ⟨rfl, -⟩ | ⟨-, hd'⟩
      · rw [hpage]
        rfl
      · rw [hd']
        rfl
    obtain ⟨rest, hrest, hfits⟩ := h.greeted i hsome
    exact ⟨rest, hrest, fun l hl => (hfits l hl).mono hextends fun _ => le_rfl⟩
  · rcases update_eq_some hd with ⟨rfl, rfl⟩ | ⟨-, hd'⟩
    · refine h.echoed i c m msg hpage hm ?_ hbeat
      rwa [hsent, List.getElem?_append_left (Nat.lt_of_lt_of_le hm (h.served i c hpage))] at hmsg
    · exact h.echoed i d m msg hd' hm hmsg hbeat
  · rcases update_eq_some hd with ⟨rfl, rfl⟩ | ⟨-, hd'⟩
    · rw [hsent, List.length_append]
      exact (h.served i c hpage).trans (Nat.le_add_right _ _)
    · exact h.served i d hd'
  · show d.Sound _ _ (Function.update n.read k r i)
    rcases update_eq_some hd with ⟨rfl, rfl⟩ | ⟨hi, hd'⟩
    · rw [Function.update_self]
      exact hsound.mono fun _ hm => hextends.other hm
    · rw [Function.update_of_ne hi]
      exact (h.page i d hd').mono fun _ hm => hextends.other hm

theorem Sound.deliver (h : n.Sound) {l : Letter} (hpage : n.page k = some c)
    (hopen : c.socketClosed = false) (hl : (n.mail k)[n.read k]? = some l) :
    (c.after (.message l.msg)).Sound (sessionId k) (Other n.page k) (n.read k + 1) := by
  obtain ⟨rest, hrest, hfits⟩ := h.greeted k (by rw [hpage]; rfl)
  rw [hrest] at hl
  have hlater : 0 < n.read k → l.Fits n.page n.served k := by
    intro hread
    obtain ⟨i, hi⟩ := Nat.exists_eq_succ_of_ne_zero hread.ne'
    rw [hi, Nat.succ_eq_add_one, List.getElem?_cons_succ] at hl
    exact hfits l (List.mem_of_getElem? hl)
  refine (h.page k c hpage).message hopen (fun hread => ?_) (fun hread => ?_) fun hread => ?_
  · rw [hread] at hl
    cases hl
    rfl
  · exact (hlater hread).isSessionID
  · exact (hlater hread).tells

theorem Sound.step (h : n.Sound) {n' : Net} (hstep : Step n n') : n'.Sound := by
  cases hstep with
  | join storedName host hnew => exact h.join storedName host hnew
  | news hnews => exact h.news hnews
  | serve hpage hmsg hecho hdest => exact h.pass hpage hmsg hecho hdest
  | @event k c e hpage he =>
      have hsame := h.dispatch hpage ((h.page k c hpage).event he)
      rwa [Function.update_eq_self] at hsame
  | deliver hpage hopen hl => exact h.dispatch hpage (h.deliver hpage hopen hl)

theorem sound_of_reachable (h : Reachable n) : n.Sound := by
  induction h with
  | refl => exact sound_start
  | tail _ hstep ih => exact ih.step hstep

end

end Net

end Mgws.Browser
