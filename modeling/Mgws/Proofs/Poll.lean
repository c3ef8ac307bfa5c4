import Mgws.Lib.Follows
import Mgws.Poll
import Mgws.Proofs.Lifetime
import Mgws.Proofs.Identity
import Mgws.Proofs.Reads
/-!
# The event loop takes the actions

Whatever the sockets do, a poll is a run of actions, so what holds in every reachable state holds
throughout the endless loop.  A poll looks at each connection that is there when it begins, once
and in the order of the list, and follows no pointer to a connection that is gone.
-/

namespace Mgws

open Lib Program Transition

/-- The action concerns no connection but the one at `k`, or accepts a new one; `P` holds of what
`http_cb` finds in the receive buffer, and `Q` of what it finds on `MG_EV_CLOSE`. -/
def Action.About (P Q : List HttpTurn → Prop) (k : ConnPtr) : Action → Prop
  | accept _ => True
  | handshake k' _ | fileDone k' | ws k' _ | drained k' | error k' | notify k' => k' = k
  | http k' turns => k' = k ∧ P turns
  | close k' turns => k' = k ∧ Q turns
  | tick | clock _ => False

structure Io.Brings (P Q : List HttpTurn → Prop) (io : Io) : Prop where
  pending : P io.pending
  recv : ∀ turns frames, io.recv = .data turns frames → P turns
  rest : Q io.rest

section

variable [Nlohmann] {st s : Server} {k : ConnPtr} {A : Action → Prop}
  {P Q : List HttpTurn → Prop} {io : Io} {α β : Type}

theorem reachable_of_leads (h : Leads step A st s) (hst : Reachable st) : Reachable s :=
  (h.mono fun _ _ => trivial).reachable hst

/-- One part after the other, each from a reachable state. -/
theorem follows_bind (hst : Reachable st) {x : Cpp α} {f : α → Cpp β}
    (hx : Follows step A st x)
    (hf : ∀ a s, x.run st = .ret a s → Reachable s → Follows step A s (f a)) :
    Follows step A st (x >>= f) :=
  hx.bind fun a s hrun hleads => hf a s hrun (reachable_of_leads hleads hst)

theorem follows_perform (hst : Reachable st) {a : Action} (ha : A a) :
    Follows step A st (perform a) := by
  obtain ⟨hwf, hdetached⟩ := reachable_wf hst
  refine .event ha (fun b s hrun => ?_) (fun e s hrun => ?_) fun f hrun => ?_
  · rw [step, hrun]
  · have hfinishes := perform_finishes hwf hdetached (joins_true a : Joins _ st a)
    rw [hrun] at hfinishes
    exact hfinishes.elim
  · rw [step, hrun]

theorem follows_about (hst : Reachable st) (a : Action) (ha : a.About P Q k) {x : Cpp Unit}
    (hrun : x.run st = (perform a).run st) : Follows step (Action.About P Q k) st x :=
  (follows_perform hst ha).congr hrun

/-! ## One connection -/

omit [Nlohmann] in
theorem updateConn_of_conn?_none (h : st.conn? k = none) (f : Connection → Connection) :
    st.updateConn k f = st := by
  have hne : ∀ c ∈ st.allocated, c.ptr ≠ k := by
    simpa [Server.conn?, List.find?_eq_none] using h
  have hconns : (st.conns.map fun c => if c.ptr = k then f c else c) = st.conns :=
    (List.map_congr_left fun c hc => if_neg (hne c (List.mem_append_left _ hc))).trans
      (List.map_id _)
  have hdetached : (st.detached.map fun c => if c.ptr = k then f c else c) = st.detached := by
    cases hd : st.detached with
    | none => rfl
    | some c =>
        have hmem : c ∈ st.allocated := by simp [Server.allocated, hd]
        exact congrArg some (if_neg (hne c hmem))
  rw [Server.updateConn, hconns, hdetached]

theorem follows_terminate (hst : Reachable st) (k : ConnPtr) :
    Follows step (Action.About P Q k) st (terminate k) := by
  refine follows_about hst (.error k) rfl ?_
  cases hc : st.conn? k with
  | none =>
      rw [perform, onConn, bind_of_ret (run_get st), hc]
      exact congrArg (Outcome.ret ()) (updateConn_of_conn?_none hc _)
  | some c => exact (onConn_run hc rfl _).symm

theorem follows_mgNotify (hst : Reachable st) (k : ConnPtr) :
    Follows step (Action.About P Q k) st (mgNotify k) :=
  follows_about hst (.notify k) rfl rfl

theorem follows_mgError (hst : Reachable st) (k : ConnPtr) :
    Follows step (Action.About P Q k) st (mgError k) :=
  follows_bind hst (follows_terminate hst k) fun _ _ _ hs => follows_mgNotify hs k

theorem follows_pfnWrite (hst : Reachable st) (fileDone : Bool) :
    Follows step (Action.About P Q k) st (pfnWrite k fileDone) := by
  refine .get ?_
  cases hc : st.conn? k with
  | none => exact .pure ()
  | some c =>
      rw [Option.any_some]
      split
      · next htest =>
          have hstatic : decide (c.pfn = .staticCb) = true := (Bool.and_eq_true_iff.mp htest).1
          exact follows_about hst (.fileDone k) rfl (onConn_run hc hstatic _).symm
      · exact .pure ()

theorem follows_onWrite (hst : Reachable st) (fileDone : Bool) :
    Follows step (Action.About P Q k) st (onWrite k fileDone) :=
  follows_bind hst (follows_mgNotify hst k) fun _ _ _ hs => follows_pfnWrite hs fileDone

theorem mgWsCbs_serves {v : Hidden} (h : st.Serves k v) (frames : List WsFrame) :
    (∃ s v', (mgWsCbs k frames).run st = .ret () s ∧ s.Serves k v') ∨
      ∃ f, (mgWsCbs k frames).run st = .fault f := by
  induction frames generalizing st v with
  | nil => exact .inl ⟨st, v, rfl, h⟩
  | cons frame frames ih =>
      rcases mgWsCb_serves h frame with ⟨t, hframe, ht⟩ | ⟨f, hframe⟩
      · rw [mgWsCbs, bind_of_ret hframe]
        exact ih ht
      · rw [mgWsCbs, bind_of_fault hframe]
        exact .inr ⟨f, rfl⟩

theorem follows_mgWsCbs (hst : Reachable st) {c : Connection} (hc : st.conn? k = some c)
    (hopen : c.isOpen = true) (hpfn : c.pfn = .wsCb) (frames : List WsFrame) :
    Follows step (Action.About P Q k) st (mgWsCbs k frames) := by
  obtain ⟨hwf, hdetached⟩ := reachable_wf hst
  have hserves : st.Serves k c.hidden := ⟨hwf, hdetached, c, hc, rfl⟩
  have hws := c.hidden_open hopen hpfn
  have habout : ∀ a ∈ frames.map (Action.ws k), a.About P Q k := by
    intro a ha
    obtain ⟨frame, -, rfl⟩ := List.mem_map.mp ha
    rfl
  cases hrun : (mgWsCbs k frames).run st with
  | ret u s => exact .of_ret hrun ⟨_, habout, run_ws_ret hws hserves hrun⟩
  | throw e s =>
      rcases mgWsCbs_serves hserves frames with ⟨t, -, hs, -⟩ | ⟨f, hf⟩
      · rw [hrun] at hs
        cases hs
      · rw [hrun] at hf
        cases hf
  | fault f =>
      rw [Follows, hrun]
      exact ⟨_, habout, run_ws_fault hws hserves hrun⟩

theorem follows_onRead (hst : Reachable st) {turns : List HttpTurn} (hturns : P turns)
    (frames : List WsFrame) :
    Follows step (Action.About P Q k) st (onRead k turns frames) := by
  refine .get ?_
  cases hc : st.conn? k with
  | none => exact .pure ()
  | some c =>
      refine follows_bind hst (follows_mgNotify hst k) fun _ s hrun hs => ?_
      obtain rfl := eq_of_mgNotify hrun
      split
      · exact .pure ()
      · next hclosed =>
          have hopen : c.isOpen = true := by simpa using hclosed
          split
          · next hpfn =>
              have hhttp : (c.isOpen && decide (c.pfn = .httpCb)) = true := by
                simp [hopen, hpfn]
              exact follows_about hst (.http k turns) ⟨rfl, hturns⟩ (onConn_run hc hhttp _).symm
          · next hpfn => exact follows_mgWsCbs hst hc hopen hpfn frames
          · exact .pure ()

theorem follows_readConn (hst : Reachable st) (hio : io.Brings P Q) (k : ConnPtr) :
    Follows step (Action.About P Q k) st (readConn k io.recv) := by
  cases hrecv : io.recv with
  | wait => exact .pure ()
  | failed => exact follows_terminate hst k
  | overflow => exact follows_mgError hst k
  | data turns frames => exact follows_onRead hst (hio.recv turns frames hrecv) frames

theorem follows_writeConn (hst : Reachable st) (sent : Sent) :
    Follows step (Action.About P Q k) st (writeConn k sent) := by
  cases sent with
  | wait => exact .pure ()
  | failed => exact follows_terminate hst k
  | some fileDone => exact follows_onWrite hst fileDone

theorem follows_serveConn (hst : Reachable st) (hio : io.Brings P Q) {c : Connection}
    (hc : st.conn? k = some c) : Follows step (Action.About P Q k) st (serveConn io k c) := by
  rw [serveConn]
  split
  · exact .pure ()
  · next hclosing =>
      split
      · next hlistening =>
          split
          · refine follows_about hst (.accept io.tlsOk) trivial ?_
            have hmem := Server.mem_conns_of_conn? (reachable_wf hst).2 hc
            have hany : (st.conns.any fun c => c.isListening && !c.isClosing) = true :=
              List.any_eq_true.mpr ⟨c, hmem, by simp [hlistening, hclosing]⟩
            rw [perform, bind_of_ret (run_get st), if_pos hany]
          · exact .pure ()
      · split
        · next hhs =>
            split
            · cases io.handshake with
              | none => exact .pure ()
              | some ok => exact follows_about hst (.handshake k ok) rfl (onConn_run hc hhs _).symm
            · exact .pure ()
        · have hwrite : ∀ {s}, Reachable s → Follows step (Action.About P Q k) s
              (if io.writable then writeConn k io.sent else pure ()) := by
            intro s hs
            split
            · exact follows_writeConn hs io.sent
            · exact .pure ()
          show Follows _ _ _ (if io.readable then _ else _)
          split
          · exact follows_bind hst (follows_readConn hst hio k) fun _ _ _ hs => hwrite hs
          · exact hwrite hst

theorem follows_resumeConn (hst : Reachable st) (hio : io.Brings P Q) (k : ConnPtr) :
    Follows step (Action.About P Q k) st (resumeConn io k) := by
  refine .get (follows_bind hst (follows_onWrite hst io.fileDone) fun _ s _ hs => .get ?_)
  split
  · exact follows_onRead hs hio.pending []
  · exact .pure ()

theorem follows_reapConn (hst : Reachable st) (hio : io.Brings P Q) (k : ConnPtr) :
    Follows step (Action.About P Q k) st (reapConn io k) := by
  refine follows_bind hst ?_ fun _ s _ hs => follows_about hs (.close k io.rest) ⟨rfl, hio.rest⟩ rfl
  cases hflushed : io.flushed with
  | true =>
      refine follows_about hst (.drained k) rfl ?_
      simp only [Bool.and_true]
      rfl
  | false =>
      refine (Follows.pure ()).congr ?_
      rw [onConn, bind_of_ret (run_get st)]
      simp

theorem follows_pollConn (hst : Reachable st) (hio : io.Brings P Q) (k : ConnPtr) :
    Follows step (Action.About P Q k) st (pollConn io k) := by
  refine follows_bind hst (follows_resumeConn hst hio k) fun _ s _ hs => .get ?_
  cases hc : s.conn? k with
  | none => exact follows_reapConn hs hio k
  | some c =>
      exact follows_bind hs (follows_serveConn hs hio hc) fun _ t _ ht => follows_reapConn ht hio k

omit [Nlohmann] in
theorem Io.brings (io : Io) : io.Brings (fun _ => True) fun _ => True :=
  ⟨trivial, fun _ _ _ => trivial, trivial⟩

/-! ## The list of connections -/

omit [Nlohmann] in
theorem ptrs_wiring (st : Server) : st.wiring.conns.map (·.ptr) = st.conns.map (·.ptr) := by
  rw [Server.wiring, List.map_map]
  rfl

omit [Nlohmann] in
theorem ptrs_inners {m : Option (ConnPtr × Json)} {R : Server → ConnPtr → Bool → FactoryRun → Prop}
    (h : Inners m R st s) : s.conns.map (·.ptr) = st.conns.map (·.ptr) := by
  refine h.invariant (I := fun t => t.conns.map (·.ptr) = st.conns.map (·.ptr)) rfl
    fun t u hinner ht => ?_
  rw [← ht, ← ptrs_wiring, ← ptrs_wiring]
  rcases hinner.wiring with hw | ⟨k, hasKey, run, -, -, hw⟩
  · rw [hw]
  · rw [hw, Wiring.conns_ptrs_join]

omit [Nlohmann] in
theorem ptrs_closes {c : Connection} (h : Closes st c s) :
    s.conns.map (·.ptr) = (st.conns.map (·.ptr)).filter (· ≠ c.ptr) := by
  have hunlink : (st.unlink c.ptr).conns.map (·.ptr) =
      (st.conns.map (·.ptr)).filter (· ≠ c.ptr) := by
    rw [Server.unlink, List.filter_map]
    rfl
  cases h with
  | plain => exact hunlink
  | session =>
      rw [← ptrs_wiring, wiring_broadcast, ptrs_wiring]
      exact hunlink

/-- What an action on the connection at `k` leaves of a list that ends in `l`. -/
theorem suffix_of_step (hst : Reachable st) {a : Action} (ha : a.About P Q k)
    (hstep : step st a = .ok s) {l : List ConnPtr} (hk : k ∉ l)
    (hl : l <:+ st.conns.map (·.ptr)) : l <:+ s.conns.map (·.ptr) := by
  obtain ⟨hwf, hdetached⟩ := reachable_wf hst
  cases step_took hwf hdetached (joins_true a) hstep with
  | inners hinners => rwa [ptrs_inners hinners]
  | accept hinner =>
      rw [ptrs_inners (.single hinner)]
      exact hl.trans (List.suffix_cons _ _)
  | clock => exact ha.elim
  | tick => exact ha.elim
  | @close k' _ c _ _ hc hclosing hcloses hinners =>
      obtain ⟨rfl, -⟩ := ha
      obtain ⟨before, hbefore⟩ := hl
      have hptr := Server.ptr_of_conn? hc
      have hkeep : l.filter (· ≠ k') = l :=
        List.filter_eq_self.mpr fun j hj => by simpa using fun h : j = k' => hk (h ▸ hj)
      show l <:+ _
      rw [Server.free, ptrs_inners hinners, ptrs_closes hcloses, hptr, ← hbefore,
        List.filter_append, hkeep]
      exact List.suffix_append _ _

theorem suffix_of_leads (hst : Reachable st) {ks l : List ConnPtr}
    (h : Leads step (fun a => ∃ k ∈ ks, a.About P Q k) st s) (hdisjoint : ks.Disjoint l)
    (hl : l <:+ st.conns.map (·.ptr)) : l <:+ s.conns.map (·.ptr) := by
  have hinv := h.invariant (I := fun t => Reachable t ∧ l <:+ t.conns.map (·.ptr)) ⟨hst, hl⟩
    fun t u a ht ha hstep => by
      obtain ⟨k, hk, ha⟩ := ha
      exact ⟨ht.1.step trivial hstep, suffix_of_step ht.1 ha hstep (hdisjoint hk) ht.2⟩
  exact hinv.2

/-! ## The walk through the list -/

/-- Turn after turn for the connections of a list that was written down before. -/
def pollAll (io : ConnPtr → Io) : List ConnPtr → Cpp Unit
  | [] => pure ()
  | k :: ks => do
      pollConn (io k) k
      pollAll io ks

omit [Nlohmann] in
theorem next?_of_suffix {l : List ConnPtr} (hnodup : (st.conns.map (·.ptr)).Nodup)
    (hl : k :: l <:+ st.conns.map (·.ptr)) : st.next? k = l.head? := by
  obtain ⟨before, hbefore⟩ := hl
  rw [← hbefore] at hnodup
  have hne : ∀ j ∈ before, decide (j ≠ k) = true := by
    intro j hj
    have hdisjoint := List.disjoint_of_nodup_append hnodup hj
    simpa using fun h : j = k => hdisjoint (by simp [h])
  rw [Server.next?, ← hbefore, List.dropWhile_append_of_pos hne, List.dropWhile_cons_of_neg]
  · rfl
  · simp

theorem follows_pollAll {io : ConnPtr → Io} (hio : ∀ k, (io k).Brings P Q)
    (hst : Reachable st) (ks : List ConnPtr) :
    Follows step (fun a => ∃ k ∈ ks, a.About P Q k) st (pollAll io ks) := by
  induction ks generalizing st with
  | nil => exact .pure ()
  | cons k ks ih =>
      refine follows_bind hst ?_ fun _ s _ hs => ?_
      · exact (follows_pollConn hst (hio k) k).mono fun a ha => ⟨k, List.mem_cons_self, ha⟩
      · exact (ih hs).mono fun a ⟨j, hj, ha⟩ => ⟨j, List.mem_cons_of_mem _ hj, ha⟩

/-- When the turn of a connection comes, it and those behind it are still in the list. -/
theorem suffix_of_pollAll (io : ConnPtr → Io) (hst : Reachable st) {ks l : List ConnPtr}
    (hl : ks ++ l <:+ st.conns.map (·.ptr)) (hrun : (pollAll io ks).run st = .ret () s) :
    l <:+ s.conns.map (·.ptr) := by
  have hnodup := (reachable_wf hst).1.nodup_conns.sublist hl.sublist
  have hfollows := follows_pollAll (fun k => (io k).brings) hst ks
  exact suffix_of_leads hst (hfollows.leads hrun) (List.disjoint_of_nodup_append hnodup)
    ((List.suffix_append ks l).trans hl)

/-- Reading off the next connection before each turn is as good as writing down the whole list
before the first. -/
theorem pollFrom_eq (io : ConnPtr → Io) (hst : Reachable st) {l : List ConnPtr} {n : Nat}
    (hn : l.length ≤ n) (hl : l <:+ st.conns.map (·.ptr)) :
    (pollFrom io n l.head?).run st = (pollAll io l).run st := by
  induction l generalizing st n with
  | nil => cases n <;> rfl
  | cons k l ih =>
      obtain ⟨n, rfl⟩ := Nat.exists_eq_succ_of_ne_zero (Nat.ne_zero_of_lt hn)
      have hnext := next?_of_suffix (reachable_wf hst).1.nodup_conns hl
      rw [List.head?_cons, pollFrom, bind_of_ret (run_get st), hnext, pollAll]
      cases hrun : (pollConn (io k) k).run st with
      | ret _ s =>
          have hfollows := follows_pollConn hst (io k).brings k
          have hone : (pollAll io [k]).run st = .ret () s := bind_of_ret hrun
          rw [bind_of_ret hrun, bind_of_ret hrun]
          exact ih (reachable_of_leads (hfollows.leads hrun) hst) (Nat.le_of_succ_le_succ hn)
            (suffix_of_pollAll io hst hl hone)
      | throw e s => rw [bind_of_throw hrun, bind_of_throw hrun]
      | fault f => rw [bind_of_fault hrun, bind_of_fault hrun]

theorem pollFrom_conns (io : ConnPtr → Io) (hst : Reachable st) :
    (pollFrom io st.conns.length (st.conns.head?.map (·.ptr))).run st =
      (pollAll io (st.conns.map (·.ptr))).run st := by
  rw [← List.head?_map]
  exact pollFrom_eq io hst (List.length_map _).le List.suffix_rfl

/-- The loop of `mg_mgr_poll` looks at each connection that is there when it begins, once and in
the order of the list, whatever the handlers do meanwhile; the pointer it follows next is always
one of the list. -/
theorem walk_whole (io : ConnPtr → Io) (hst : Reachable st) :
    (pollFrom io st.conns.length (st.conns.head?.map (·.ptr))).run st =
        (pollAll io (st.conns.map (·.ptr))).run st ∧
      ∀ ks k l, st.conns.map (·.ptr) = ks ++ k :: l → ∀ s,
        (pollAll io ks).run st = .ret () s → k :: l <:+ s.conns.map (·.ptr) := by
  refine ⟨pollFrom_conns io hst, ?_⟩
  intro ks k l hptrs s hrun
  exact suffix_of_pollAll io hst (hptrs ▸ List.suffix_rfl) hrun

/-! ## The endless loop -/

omit [Nlohmann] in
def Action.Brings (P Q : List HttpTurn → Prop) : Action → Prop
  | http _ turns => P turns
  | close _ turns => Q turns
  | _ => True

omit [Nlohmann] in
theorem Action.About.brings {a : Action} (h : a.About P Q k) : a.Brings P Q := by
  cases a with
  | http k' turns => exact h.2
  | close k' turns => exact h.2
  | _ => trivial

theorem follows_setClock (hst : Reachable st) (now : Nat) :
    Follows step (Action.Brings P Q) st (setClock now) :=
  follows_perform (a := .clock now) hst trivial

theorem follows_mgIotest (hst : Reachable st) (io : ConnPtr → Io) (ks : List ConnPtr) :
    Follows step (fun a => ∃ k ∈ ks, a.About P Q k) st (mgIotest io ks) := by
  induction ks generalizing st with
  | nil => exact .pure ()
  | cons k ks ih =>
      have hrest : ∀ {s}, Reachable s →
          Follows step (fun a => ∃ j ∈ k :: ks, a.About P Q j) s (mgIotest io ks) :=
        fun hs => (ih hs).mono fun a ⟨j, hj, ha⟩ => ⟨j, List.mem_cons_of_mem _ hj, ha⟩
      show Follows _ _ _ (if (io k).error then _ else _)
      split
      · have herror : Follows step (fun a => ∃ j ∈ k :: ks, a.About P Q j) st (mgError k) :=
          (follows_mgError hst k).mono fun a ha => ⟨k, List.mem_cons_self, ha⟩
        exact follows_bind hst herror fun _ s _ hs => hrest hs
      · exact hrest hst

theorem follows_mgTimerPoll (hst : Reachable st) (expire : Nat) (poll : Poll) :
    Follows step (Action.Brings P Q) st (mgTimerPoll expire poll) := by
  rw [mgTimerPoll]
  split
  · next expired expire' _ =>
      show Follows _ _ _ (if expired then _ else _)
      split
      · refine follows_bind hst (follows_setClock hst poll.callback) fun _ s _ hs => ?_
        have htick : Follows step (Action.Brings P Q) s (perform .tick) :=
          follows_perform hs trivial
        exact .get (follows_bind hs (htick.congr rfl) fun _ _ _ _ => .pure expire')
      · exact .pure expire'

/-- Every poll of the loop is a run of actions. -/
theorem follows_mgMgrPoll (hst : Reachable st) {poll : Poll} (hpoll : ∀ k, (poll.io k).Brings P Q)
    (expire : Nat) : Follows step (Action.Brings P Q) st (mgMgrPoll expire poll) := by
  have hiotest : Follows step (Action.Brings P Q) st (mgIotest poll.io (st.conns.map (·.ptr))) :=
    (follows_mgIotest hst _ _).mono fun a ⟨k, _, ha⟩ => ha.brings
  refine .get (follows_bind hst hiotest fun _ s _ hs => ?_)
  refine follows_bind hs (follows_setClock hs poll.now) fun _ t _ ht => ?_
  refine follows_bind ht (follows_mgTimerPoll ht expire poll) fun expire' u _ hu => .get ?_
  refine follows_bind hu ?_ fun _ _ _ _ => .pure expire'
  refine Follows.congr ?_ (pollFrom_conns poll.io hu)
  exact (follows_pollAll hpoll hu _).mono fun a ⟨k, _, ha⟩ => ha.brings

theorem follows_infiniteLoop (hst : Reachable st) {polls : List Poll}
    (hpolls : ∀ poll ∈ polls, ∀ k, (poll.io k).Brings P Q) (expire : Nat) :
    Follows step (Action.Brings P Q) st (infiniteLoop expire polls) := by
  induction polls generalizing st expire with
  | nil => exact .pure expire
  | cons poll polls ih =>
      obtain ⟨hpoll, hrest⟩ := List.forall_mem_cons.mp hpolls
      exact follows_bind hst (follows_mgMgrPoll hst hpoll expire) fun expire' s _ hs =>
        ih hs hrest expire'

/-! ## What the server survives -/

def NoThrow (turns : List HttpTurn) : Prop :=
  ∀ hasKey run, .message (.websock hasKey run) ∈ turns → run.made

omit [Nlohmann] in
theorem noThrow_of_brings {a : Action} (hQ : ∀ turns, Q turns → NoThrow turns)
    (h : a.Brings NoThrow Q) : a.NoThrow := by
  cases a with
  | http k turns => exact h
  | close k turns => exact hQ turns h
  | _ => trivial

omit [Nlohmann] in
theorem rest_of_lateRequest {p : SessionPtr} {a : Action} (ha : a.Brings P Q)
    (h : LateRequest st p a) : ∃ turns, turns ≠ [] ∧ Q turns := by
  cases a with
  | close k turns => exact ⟨turns, h.1, ha⟩
  | _ => exact h.elim

/-- When no factory throws, the endless loop ends in nothing but the null pointer of a failed
lookup and the context of a session that has just been deleted, whatever the clients, the sockets
and the clock do; the second takes a connection that is closed while requests are left in its
receive buffer.  Until then the loop is in reachable states only. -/
theorem infiniteLoop_safe (expire : Nat) {polls : List Poll}
    (hpolls : ∀ poll ∈ polls, ∀ k, (poll.io k).Brings NoThrow NoThrow) :
    (∃ expire' s, (infiniteLoop expire polls).run initial = .ret expire' s ∧
        ReachableNoThrow s) ∨
      (infiniteLoop expire polls).run initial = .fault .nullSession ∨
      ∃ p t a, (infiniteLoop expire polls).run initial = .fault (.deadContext p) ∧
        ReachableNoThrow t ∧ LateRequest t p a ∧ ∃ poll ∈ polls, ∃ k, (poll.io k).rest ≠ [] := by
  let Rest (turns : List HttpTurn) : Prop :=
    NoThrow turns ∧ (turns ≠ [] → ∃ poll ∈ polls, ∃ k, (poll.io k).rest ≠ [])
  have hrest : ∀ poll ∈ polls, ∀ k, (poll.io k).Brings NoThrow Rest := by
    intro poll hpoll k
    have hio := hpolls poll hpoll k
    exact ⟨hio.pending, hio.recv, hio.rest, fun hleft => ⟨poll, hpoll, k, hleft⟩⟩
  have hnothrow : ∀ a : Action, a.Brings NoThrow Rest → a.NoThrow :=
    fun a => noThrow_of_brings fun _ => And.left
  have hfollows := follows_infiniteLoop (.init) hrest expire
  cases hrun : (infiniteLoop expire polls).run initial with
  | ret expire' s =>
      have hleads := (hfollows.leads hrun).mono hnothrow
      exact .inl ⟨expire', s, rfl, hleads.reachable .init⟩
  | throw e s =>
      rw [Follows, hrun] at hfollows
      exact hfollows.elim
  | fault f =>
      rw [Follows, hrun] at hfollows
      obtain ⟨es, hes, herror⟩ := hfollows
      obtain ⟨t, a, ht, ha, hstep⟩ := ReachableBy.of_run_error .init hes herror
      have ht := ht.mono hnothrow
      rcases fault_of_step ht (hnothrow a ha) hstep with rfl | ⟨p, rfl, hlate⟩
      · exact .inr (.inl rfl)
      · obtain ⟨turns, hturns, -, hleft⟩ := rest_of_lateRequest ha hlate
        exact .inr (.inr ⟨p, t, a, rfl, ht, hlate, hleft hturns⟩)

end

theorem walk_whole_closing :
    letI := parserOf "" .null
    ∃ st s, run step initial (joining 2 ++ joining 3 ++ [.accept true, .error 3]) = .ok st ∧
      st.conns.map (·.ptr) = [4, 3, 2, 1] ∧
      (pollFrom (readable 0 0 .wait).io st.conns.length (st.conns.head?.map (·.ptr))).run st =
        .ret () s ∧
      s.conns.map (·.ptr) = [4, 2, 1] ∧
      ∀ ks k l, st.conns.map (·.ptr) = ks ++ k :: l → ∀ s,
        (pollAll (readable 0 0 .wait).io ks).run st = .ret () s →
          k :: l <:+ s.conns.map (·.ptr) := by
  let _ := parserOf "" .null
  have hrun : ∃ st, run step initial (joining 2 ++ joining 3 ++ [.accept true, .error 3]) =
      .ok st ∧ st.conns.map (·.ptr) = [4, 3, 2, 1] ∧
      ∃ s, (pollAll (readable 0 0 .wait).io (st.conns.map (·.ptr))).run st = .ret () s ∧
        s.conns.map (·.ptr) = [4, 2, 1] := ⟨_, rfl, rfl, _, rfl, rfl⟩
  obtain ⟨st, hst, hptrs, s, hall, hs⟩ := hrun
  obtain ⟨hwalk, hsuffix⟩ := walk_whole (readable 0 0 .wait).io (reachable_of_run _ hst)
  exact ⟨st, s, hst, hptrs, hwalk.trans hall, hs, hsuffix⟩

theorem infiniteLoop_safe_hiding :
    letI := parserOf renameText renameMsg
    (infiniteLoop 0 (hidingPolls ++ [readable 0 2 (.data [] [textFrame renameText])])).run initial =
      .fault .nullSession := by
  let _ := parserOf renameText renameMsg
  have hpolls : ∀ poll ∈ hidingPolls ++ [readable 0 2 (.data [] [textFrame renameText])],
      ∀ k, (poll.io k).Brings NoThrow NoThrow ∧ (poll.io k).rest = [] := by
    intro poll hpoll k
    simp only [hidingPolls, List.cons_append, List.nil_append, List.mem_cons,
      List.not_mem_nil, or_false] at hpoll
    rcases hpoll with rfl | rfl | rfl | rfl | rfl <;>
      exact ⟨⟨by simp [readable, NoThrow], by simp [readable, NoThrow, FactoryRun.made],
        by simp [readable, NoThrow]⟩, rfl⟩
  rcases infiniteLoop_safe 0 fun poll hpoll k => (hpolls poll hpoll k).1 with
    ⟨expire, s, hrun, -⟩ | hfault | ⟨-, -, -, -, -, -, poll, hpoll, k, hleft⟩
  · cases hrun
  · exact hfault
  · exact absurd (hpolls poll hpoll k).2 hleft

end Mgws
