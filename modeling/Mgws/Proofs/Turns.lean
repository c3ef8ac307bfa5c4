import Mgws.Lib.Stream
import Mgws.Proofs.Heads
/-!
# Requests out of a buffer

`http_cb` does to the server what the requests in its receive buffer do, one after the other, as
long as no response is pending.  In whichever pieces the bytes of a connection arrive and whenever
its responses are complete, the requests it delivers are those of all the bytes, in their order.
-/

namespace Mgws.Http

open Lib Program

def turnsFrom (answers : Answers) (close : Bool) (beyond : UInt8) :
    Nat → List UInt8 → List HttpTurn
  | 0, _ => []
  | turns + 1, buf =>
      match httpTurn close beyond buf with
      | .more | .overflow => []
      | .badHead | .badChunk => [.malformed]
      | .message hm _ n _ =>
          .message (hm.view (answers turns).1 (answers turns).2) ::
            turnsFrom answers close beyond turns (buf.drop n)

section

variable {answers : Answers} {close : Bool} {beyond : UInt8} {k : ConnPtr} {buf rest : List UInt8}
  {turns ofs : Nat} {st : Server}

theorem drop_message {hm : HttpMsg} {body : List UInt8} {n : Nat} (hofs : ofs < buf.length)
    (h : httpTurn close beyond (buf.drop ofs) = .message hm body n rest) :
    (buf.take ofs ++ rest).drop (ofs + n) = (buf.drop ofs).drop n := by
  have htake : (buf.take ofs).length = ofs := by
    rw [List.length_take, Nat.min_eq_left (Nat.le_of_lt hofs)]
  rw [← List.drop_drop, List.drop_left' htake, (httpTurn_message h).2.2]

theorem httpTurn_nil (close : Bool) (beyond : UInt8) : httpTurn close beyond [] = .more := rfl

theorem httpCb_of_busy [Nlohmann] (h : (st.conn? k).any (·.isResp) = true)
    (turns : List HttpTurn) : (httpCb k turns).run st = .ret () st := by
  cases turns with
  | nil => rfl
  | cons turn turns =>
      unfold httpCb
      rw [bind_of_ret (run_get st), if_pos h]
      rfl

/-- The loop does what the requests that it finds do. -/
theorem httpCbFrom_refines [Nlohmann] (answers : Answers) (close : Bool) (beyond : UInt8)
    (k : ConnPtr) (turns ofs : Nat) (buf : List UInt8) (delivered : List (HttpMsg × List UInt8))
    (st : Server) :
    (httpCbFrom answers close beyond k turns ofs buf delivered >>= fun _ => pure ()).run st =
      (httpCb k (turnsFrom answers close beyond turns (buf.drop ofs))).run st := by
  induction turns generalizing ofs buf delivered st with
  | zero => rfl
  | succ turns ih =>
      rw [httpCbFrom, run_bind, bind_of_ret (run_get st)]
      by_cases hbusy : (st.conn? k).any (·.isResp) = true
      · rw [httpCb_of_busy hbusy]
        simp [hbusy]
      by_cases hend : buf.length ≤ ofs
      · rw [List.drop_eq_nil_of_le hend, turnsFrom, httpTurn_nil]
        simp [hend]
        rfl
      have hgo : ¬((st.conn? k).any (·.isResp) || decide (buf.length ≤ ofs)) = true := by
        simp [hbusy, hend]
      rw [if_neg hgo, turnsFrom, ← run_bind]
      cases hturn : httpTurn close beyond (buf.drop ofs) with
      | more => rfl
      | overflow => rfl
      | badHead =>
          unfold httpCb
          rw [bind_of_ret (run_get st), if_neg hbusy]
          dsimp only
          rw [bind_assoc]
          exact congrArg (Program.run · st) (bind_pure _)
      | badChunk =>
          unfold httpCb
          rw [bind_of_ret (run_get st), if_neg hbusy]
          dsimp only
          rw [bind_assoc]
          exact congrArg (Program.run · st) (bind_pure _)
      | message hm body n rest =>
          have hdrop := drop_message (Nat.lt_of_not_le hend) hturn
          have hmark : (setConn k fun c => { c with isResp := true }).run st =
              .ret () (st.updateConn k fun c => { c with isResp := true }) := rfl
          generalize (st.updateConn k fun c => { c with isResp := true }) = t at hmark
          unfold httpCb
          rw [bind_of_ret (run_get st), if_neg hbusy]
          dsimp only
          rw [bind_assoc, bind_of_ret hmark, bind_of_ret hmark, bind_assoc]
          generalize hm.view (answers turns).1 (answers turns).2 = msg
          cases hcall : (mgCall k (.httpMsg msg)).run t with
          | ret u s => rw [bind_of_ret hcall, bind_of_ret hcall, ih, hdrop]
          | throw e s => rw [bind_of_throw hcall, bind_of_throw hcall]
          | fault f => rw [bind_of_fault hcall, bind_of_fault hcall]

/-- The turns suffice: the loop stops short only at a sum beyond the range of `int`. -/
theorem overflow_of_none [Nlohmann] {delivered : List (HttpMsg × List UInt8)} {s : Server}
    (hturns : (buf.drop ofs).length < turns)
    (hrun : (httpCbFrom answers close beyond k turns ofs buf delivered).run st = .ret none s) :
    ∃ i, httpTurn close beyond ((buf.drop ofs).drop i) = .overflow := by
  induction turns generalizing ofs buf delivered st with
  | zero => exact absurd hturns (Nat.not_lt_zero _)
  | succ turns ih =>
      rw [httpCbFrom, bind_of_ret (run_get st)] at hrun
      split at hrun
      · cases hrun
      next hgo =>
      split at hrun
      · cases hrun
      · obtain ⟨_, _, _, hrun⟩ := ret_of_bind hrun
        cases hrun
      · obtain ⟨_, _, _, hrun⟩ := ret_of_bind hrun
        cases hrun
      · next hturn => exact ⟨0, hturn⟩
      · next hm body n rest hturn =>
          have hofs : ofs < buf.length := by
            simp only [Bool.or_eq_true, decide_eq_true_eq, not_or] at hgo
            exact Nat.lt_of_not_le hgo.2
          have hdrop := drop_message hofs hturn
          obtain ⟨hpos, hle, -⟩ := httpTurn_message hturn
          obtain ⟨_, _, _, hrun⟩ := ret_of_bind hrun
          obtain ⟨_, _, _, hrun⟩ := ret_of_bind hrun
          obtain ⟨i, hi⟩ := ih (by rw [hdrop, List.length_drop]; omega) hrun
          rw [hdrop, List.drop_drop] at hi
          exact ⟨n + i, hi⟩

/-- On the bytes of its receive buffer `http_cb` does what it does on the requests that they are,
and comes to an end unless a sum leaves the range of `int`. -/
theorem httpCbRecv_refines [Nlohmann] (answers : Answers) (close : Bool) (beyond : UInt8)
    (k : ConnPtr) (buf : List UInt8) (st : Server) :
    (httpCbRecv answers close beyond k buf >>= fun _ => pure ()).run st =
        (httpCb k (turnsFrom answers close beyond (buf.length + 1) buf)).run st ∧
      ∀ s, (httpCbRecv answers close beyond k buf).run st = .ret none s →
        ∃ i, httpTurn close beyond (buf.drop i) = .overflow :=
  ⟨httpCbFrom_refines answers close beyond k (buf.length + 1) 0 buf [] st,
    fun _ hrun => overflow_of_none (Nat.lt_succ_self _) hrun⟩

/-! ## The requests of a connection -/

def requests : Decoder UInt8 (HttpMsg × List UInt8) where
  next buf :=
    match httpTurn false 0 buf with
    | .message hm body n _ => some ((hm, body), n)
    | _ => none
  pos h := by
    split at h
    · next hturn =>
        cases h
        exact (httpTurn_message hturn).1
    · cases h
  le h := by
    split at h
    · next hturn =>
        cases h
        exact (httpTurn_message hturn).2.1
    · cases h
  upto h more := by
    split at h
    · next hturn =>
        cases h
        obtain ⟨rest, hupto⟩ := httpTurn_upto hturn 0 more
        rw [hupto]
    · cases h

theorem requests_next {hm : HttpMsg} {body : List UInt8} {n : Nat}
    (h : httpTurn false beyond buf = .message hm body n rest) :
    requests.next buf = some ((hm, body), n) := by
  obtain ⟨rest', hturn⟩ := httpTurn_beyond h 0
  rw [requests]
  simp only [hturn]

theorem requests_next_none (h : httpTurn false beyond buf = .more) :
    requests.next buf = none := by
  cases hnext : requests.next buf with
  | none => rfl
  | some item =>
      rw [requests] at hnext
      dsimp only at hnext
      split at hnext
      · next hturn =>
          obtain ⟨rest', hsame⟩ := httpTurn_beyond hturn beyond
          rw [h] at hsame
          cases hsame
      · cases hnext

theorem mgIobufDel_zero (buf : List UInt8) (ofs : Nat) :
    Ws.mgIobufDel buf 0 ofs = buf.drop ofs := by
  simp only [Ws.mgIobufDel, Nat.not_lt_zero, if_false, Nat.zero_add, List.take_zero,
    List.nil_append, Nat.sub_zero]
  split
  · next hlong => rw [List.drop_length, List.drop_eq_nil_of_le (Nat.le_of_lt hlong)]
  · rfl

/-- The history of the receive buffer of one connection: bytes arrive, and `http_cb` is called, in
whatever state the server is then, and finds nothing that is wrong. -/
inductive History [Nlohmann] (k : ConnPtr) :
    Decoder.Inlet UInt8 (HttpMsg × List UInt8) → Prop where
  | start : History k ⟨[], [], []⟩
  | arrive {w} (h : History k w) (piece : List UInt8) :
      History k ⟨w.received ++ piece, w.buf ++ piece, w.taken⟩
  | call {w} (h : History k w) {answers : Answers} {beyond : UInt8} {st s : Server} {done : Done}
      (hrun : (httpCbRecv answers false beyond k w.buf).run st = .ret (some done) s)
      (hok : done.failed = false) :
      History k ⟨w.received, done.left, w.taken ++ done.delivered⟩

/-- A call that finds nothing wrong takes requests, until a response is pending or no more are
complete. -/
theorem httpCbFrom_moves [Nlohmann] (received : List UInt8)
    (taken : List (HttpMsg × List UInt8)) {delivered : List (HttpMsg × List UInt8)} {s : Server}
    {done : Done}
    (hrun : (httpCbFrom answers false beyond k turns ofs buf delivered).run st = .ret (some done) s)
    (hok : done.failed = false) :
    ∃ msgs, done.delivered = delivered ++ msgs ∧
      Relation.ReflTransGen (Decoder.Moves requests) ⟨received, buf.drop ofs, taken⟩
        ⟨received, done.left, taken ++ msgs⟩ ∧
      ((s.conn? k).any (·.isResp) = true ∨ requests.next done.left = none) := by
  induction turns generalizing ofs buf delivered taken st with
  | zero => cases hrun
  | succ turns ih =>
      rw [httpCbFrom, bind_of_ret (run_get st)] at hrun
      split at hrun
      · next hstop =>
          cases hrun
          refine ⟨[], (List.append_nil _).symm, ?_, ?_⟩
          · rw [mgIobufDel_zero, List.append_nil]
          · rw [mgIobufDel_zero]
            refine (Bool.or_eq_true_iff.mp hstop).imp_right fun hend => ?_
            rw [List.drop_eq_nil_of_le (of_decide_eq_true hend)]
            exact requests_next_none (httpTurn_nil false beyond)
      · next hgo =>
          split at hrun
          · next hturn =>
              cases hrun
              refine ⟨[], (List.append_nil _).symm, ?_, .inr ?_⟩
              · rw [mgIobufDel_zero, List.append_nil]
              · rw [mgIobufDel_zero]
                exact requests_next_none hturn
          · next hturn =>
              obtain ⟨_, _, -, hrun⟩ := ret_of_bind hrun
              cases hrun
              cases hok
          · next hturn =>
              obtain ⟨_, _, -, hrun⟩ := ret_of_bind hrun
              cases hrun
              cases hok
          · cases hrun
          · next hm body n rest hturn =>
              have hofs : ofs < buf.length := by
                simp only [Bool.or_eq_true, decide_eq_true_eq, not_or] at hgo
                exact Nat.lt_of_not_le hgo.2
              obtain ⟨_, _, -, hrun⟩ := ret_of_bind hrun
              obtain ⟨_, _, -, hrun⟩ := ret_of_bind hrun
              obtain ⟨msgs, hdelivered, hmoves, hend⟩ := ih (taken ++ [(hm, body)]) hrun
              refine ⟨(hm, body) :: msgs, by rw [hdelivered]; simp, ?_, hend⟩
              have hmove : Decoder.Moves requests ⟨received, buf.drop ofs, taken⟩
                  ⟨received, (buf.drop ofs).drop n, taken ++ [(hm, body)]⟩ :=
                .take (w := ⟨received, buf.drop ofs, taken⟩) (requests_next hturn)
              rw [drop_message hofs hturn, List.append_assoc] at hmoves
              exact hmoves.head hmove

theorem History.moves [Nlohmann] {w : Decoder.Inlet UInt8 (HttpMsg × List UInt8)}
    (h : History k w) : Relation.ReflTransGen (Decoder.Moves requests) ⟨[], [], []⟩ w := by
  induction h with
  | start => exact .refl
  | arrive _ piece ih => exact ih.tail (.arrive piece)
  | @call w _ _ _ _ _ done hrun hok ih =>
      obtain ⟨msgs, hdelivered, hmoves, -⟩ :=
        httpCbFrom_moves w.received w.taken hrun hok
      rw [hdelivered]
      exact ih.trans hmoves

/-- In whichever pieces the bytes of a connection arrive, whenever `http_cb` is called and whatever
the server does meanwhile, the requests delivered and those complete in the buffer are the requests
of all the bytes; and a call ends with a response pending or with no complete request left. -/
theorem history_whole [Nlohmann] {w : Decoder.Inlet UInt8 (HttpMsg × List UInt8)}
    (h : History k w) :
    requests.run w.received = (w.taken ++ (requests.run w.buf).1, (requests.run w.buf).2) ∧
      ∀ (answers : Answers) (beyond : UInt8) (st s : Server) (done : Done),
        (httpCbRecv answers false beyond k w.buf).run st = .ret (some done) s →
          done.failed = false →
            (s.conn? k).any (·.isResp) = true ∨ (requests.run done.left).1 = [] := by
  refine ⟨Decoder.sound_of_moves h.moves, fun answers beyond st s done hrun hok => ?_⟩
  obtain ⟨-, -, -, hend⟩ := httpCbFrom_moves w.received w.taken hrun hok
  exact hend.imp_right fun hnone => by rw [Decoder.run_of_none hnone]

end

def getTwice : List UInt8 := bytes "GET / HTTP/1.1\r\n\r\nGET / HTTP/1.1\r\n\r\n"

theorem history_whole_getTwice :
    letI := parserOf "" .null
    ∃ done t, (httpCbRecv (fun _ => (.returns, .reply 404)) false 0 1 getTwice).run initial =
        .ret (some done) t ∧
      requests.run getTwice =
        (done.delivered ++ (requests.run done.left).1, (requests.run done.left).2) ∧
      (requests.run done.left).1 = [] := by
  let _ := parserOf "" .null
  obtain ⟨done, t, hrun, hok, hidle⟩ : ∃ done t,
      (httpCbRecv (fun _ => (.returns, .reply 404)) false 0 1 getTwice).run initial =
        .ret (some done) t ∧ done.failed = false ∧ (t.conn? 1).any (·.isResp) = false :=
    ⟨_, _, rfl, rfl, rfl⟩
  have harrive : History 1 ⟨getTwice, getTwice, []⟩ := by
    simpa using (History.start.arrive (getTwice.take 10)).arrive (getTwice.drop 10)
  have hbusy : ¬(t.conn? 1).any (·.isResp) = true := by simp [hidle]
  have hnone := (history_whole harrive).2 _ _ _ _ _ hrun hok
  exact ⟨done, t, hrun, by simpa using (history_whole (harrive.call hrun hok)).1,
    hnone.resolve_left hbusy⟩

end Mgws.Http
