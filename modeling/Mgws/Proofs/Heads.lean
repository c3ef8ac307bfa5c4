import Mgws.Proofs.Chunks
/-!
# The front of the buffer

`http_cb` delivers what stands at the front of the receive buffer when a head and a whole body
do.  The message lies in the buffer, what follows it stays there, and makes no difference.
-/

namespace Mgws.Http

section

variable {buf head : List UInt8} {hm : HttpMsg} {i n : Nat} {p q beyond : UInt8}

/-! ## Heads -/

theorem requestLenFrom_found (h : requestLenFrom i q p buf = .found n) :
    i < n ∧ n ≤ i + buf.length := by
  induction buf generalizing i q p with
  | nil => cases h
  | cons c s ih =>
      rw [requestLenFrom] at h
      split at h
      · cases h
      split at h
      · cases h
        exact ⟨Nat.lt_succ_self i, by simp⟩
      · obtain ⟨hlt, hle⟩ := ih h
        rw [List.length_cons]
        omega

/-- Once the end of the head is found, or a byte that may not stand in it, it does not matter what
follows. -/
theorem requestLenFrom_append (h : requestLenFrom i q p buf ≠ .more) (more : List UInt8) :
    requestLenFrom i q p (buf ++ more) = requestLenFrom i q p buf := by
  induction buf generalizing i q p with
  | nil => exact absurd rfl h
  | cons c s ih =>
      rw [requestLenFrom] at h
      rw [List.cons_append, requestLenFrom, requestLenFrom]
      split
      · rfl
      · next hok =>
          rw [if_neg hok] at h
          split
          · rfl
          · next hend =>
              rw [if_neg hend] at h
              exact ih h

theorem mgHttpGetRequestLen_found (h : mgHttpGetRequestLen buf = .found n) :
    0 < n ∧ n ≤ buf.length := by
  simpa using requestLenFrom_found h

theorem requestLenFrom_take (h : requestLenFrom i q p buf = .found n) {m : Nat} (hm : n ≤ i + m) :
    requestLenFrom i q p (buf.take m) = .found n := by
  induction buf generalizing i q p m with
  | nil => cases h
  | cons c s ih =>
      have hlt := (requestLenFrom_found h).1
      obtain ⟨m, rfl⟩ := Nat.exists_eq_succ_of_ne_zero (show m ≠ 0 by omega)
      rw [requestLenFrom] at h
      rw [List.take_succ_cons, requestLenFrom]
      split at h
      · cases h
      next hok =>
      rw [if_neg hok]
      split at h
      · next hend =>
          cases h
          rw [if_pos hend]
      · next hend =>
          rw [if_neg hend]
          exact ih h (by omega)

theorem mgHttpGetRequestLen_take (h : mgHttpGetRequestLen buf = .found n) {m : Nat} (hm : n ≤ m) :
    mgHttpGetRequestLen (buf.take m) = .found n :=
  requestLenFrom_take h (by omega)

theorem headLen_of_parseHead (h : parseHead head = .found hm) : hm.headLen = head.length := by
  rw [parseHead] at h
  split at h
  · cases h
  dsimp only at h
  split at h
  · cases h
  split at h
  · cases h
  split at h
  · cases h
  · cases h
    rfl

theorem mgHttpParse_found (h : mgHttpParse buf = .found hm) :
    0 < hm.headLen ∧ hm.headLen ≤ buf.length ∧ mgHttpGetRequestLen buf = .found hm.headLen ∧
      parseHead (buf.take hm.headLen) = .found hm := by
  rw [mgHttpParse] at h
  split at h
  · cases h
  · cases h
  · next n hlen =>
      obtain ⟨hpos, hle⟩ := mgHttpGetRequestLen_found hlen
      have hhead : hm.headLen = n := by
        rw [headLen_of_parseHead h, List.length_take, Nat.min_eq_left hle]
      rw [hhead]
      exact ⟨hpos, hle, hlen, h⟩

theorem mgHttpParse_append (h : mgHttpGetRequestLen buf ≠ .more) (more : List UInt8) :
    mgHttpParse (buf ++ more) = mgHttpParse buf := by
  have happend : mgHttpGetRequestLen (buf ++ more) = mgHttpGetRequestLen buf :=
    requestLenFrom_append h more
  rw [mgHttpParse, mgHttpParse, happend]
  cases hlen : mgHttpGetRequestLen buf with
  | bad => rfl
  | more => rfl
  | found n =>
      dsimp only
      rw [List.take_append_of_le_length (mgHttpGetRequestLen_found hlen).2]

/-! ## Bodies -/

/-- A whole body stands at the front of `s`: chunks with data and an empty one, or as many bytes as
the head says; for a connection that is being closed, all there are. -/
inductive HasBody (close : Bool) (hm : HttpMsg) : List UInt8 → List UInt8 → Nat → Prop where
  | chunked (hchunked : isChunked hm = true) {cs : List ChunkText} {last : ChunkText}
      (hdata : ∀ c ∈ cs, c.data ≠ []) (hlast : last.data = []) (more : List UInt8) :
      HasBody close hm (encodeChunks cs last ++ more) (chunkData cs) (encodeChunks cs last).length
  | whole (hclose : close = true) (hchunked : isChunked hm = false) (s : List UInt8) :
      HasBody close hm s s s.length
  | plain (hclose : close = false) (hchunked : isChunked hm = false) {body : List UInt8}
      (hlen : body.length = hm.bodyLen) (more : List UInt8) :
      HasBody close hm (body ++ more) body body.length

variable {close : Bool} {s body more rest : List UInt8} {m : Nat}

theorem length_lt_encodeChunks (cs : List ChunkText) (last : ChunkText) :
    cs.length < (encodeChunks cs last).length := by
  have hcs := four_mul_length_le cs
  have hlast := last.length_encode
  rw [encodeChunks, List.length_append]
  omega

theorem HasBody.le (h : HasBody close hm s body m) : m ≤ s.length := by
  cases h with
  | chunked => simp
  | whole => exact Nat.le_refl _
  | plain => simp

theorem HasBody.take (h : HasBody false hm s body m) (more : List UInt8) :
    HasBody false hm (s.take m ++ more) body m := by
  cases h with
  | chunked hchunked hdata hlast =>
      rw [List.take_left]
      exact .chunked hchunked hdata hlast more
  | whole hclose => cases hclose
  | plain _ hchunked hlen =>
      rw [List.take_left]
      exact .plain rfl hchunked hlen more

theorem stripChunks_zero (beyond : UInt8) {cs : List ChunkText} {last : ChunkText}
    (hdata : ∀ c ∈ cs, c.data ≠ []) (hlast : last.data = []) (more : List UInt8) :
    let s := encodeChunks cs last ++ more
    (∃ pl dl n, lastChunk beyond s.length s = .chunk pl dl n) ∧
      ∃ s', stripChunks beyond s.length 0 0 s =
          ((encodeChunks cs last).length, (chunkData cs).length, s') ∧
        s'.take (chunkData cs).length = chunkData cs ∧
        s'.drop (encodeChunks cs last).length = more := by
  intro s
  have hturns : cs.length < s.length := by
    rw [List.length_append]
    exact Nat.lt_add_right _ (length_lt_encodeChunks cs last)
  refine ⟨⟨_, _, _, lastChunk_encode beyond hdata hlast hturns more⟩, ?_⟩
  have hzero : s.drop 0 = encodeChunks cs last ++ more := List.drop_zero
  obtain ⟨s', hrun, htake, hdrop⟩ :=
    stripChunks_encode beyond hdata hlast hturns (Nat.le_refl 0) hzero
  exact ⟨s', by simpa using hrun, by simpa using htake, by simpa using hdrop⟩

/-- A message is delivered when a head is complete and a whole body follows it. -/
theorem httpTurn_of_hasBody (beyond : UInt8) (hparse : mgHttpParse buf = .found hm)
    (h : HasBody close hm (buf.drop hm.headLen) body m) :
    ∃ rest, httpTurn close beyond buf = .message hm body (hm.headLen + m) rest ∧
      rest.drop (hm.headLen + m) = buf.drop (hm.headLen + m) := by
  have hle := (mgHttpParse_found hparse).2.1
  generalize hs : buf.drop hm.headLen = s at h
  simp only [httpTurn, hparse, hs]
  cases h with
  | chunked hchunked hdata hlast more =>
      obtain ⟨⟨pl, dl, len, hfirst⟩, s', hrun, htake, hdrop⟩ :=
        stripChunks_zero beyond hdata hlast more
      simp only [hchunked, if_true, hfirst, hrun, htake]
      refine ⟨_, rfl, ?_⟩
      have hhead : (buf.take hm.headLen).length = hm.headLen := by
        rw [List.length_take, Nat.min_eq_left hle]
      rw [← List.drop_drop, List.drop_left' hhead, hdrop, ← List.drop_drop, hs, List.drop_left]
  | whole hclose hchunked =>
      simp only [hchunked, hclose, Bool.false_eq_true, if_false, if_true, Nat.lt_irrefl]
      exact ⟨buf, by rw [List.take_length], rfl⟩
  | plain hclose hchunked hlen more =>
      have hlong : ¬(body ++ more).length < body.length := by simp
      simp only [hchunked, hclose, Bool.false_eq_true, if_false, ← hlen, if_neg hlong]
      exact ⟨buf, by rw [List.take_left], rfl⟩

/-- What is delivered is a head and a whole body. -/
theorem hasBody_of_httpTurn (h : httpTurn close beyond buf = .message hm body n rest) :
    mgHttpParse buf = .found hm ∧
      ∃ m, n = hm.headLen + m ∧ HasBody close hm (buf.drop hm.headLen) body m := by
  cases hparse : mgHttpParse buf with
  | bad => simp [httpTurn, hparse] at h
  | more => simp [httpTurn, hparse] at h
  | found hm' =>
      simp only [httpTurn, hparse] at h
      generalize hs : buf.drop hm'.headLen = s at h
      cases hchunked : isChunked hm' with
      | true =>
          simp only [hchunked, if_true] at h
          cases hlast : lastChunk beyond s.length s with
          | chunk pl dl len =>
              obtain ⟨cs, last, more, rfl, hdata, hempty, -⟩ := exists_of_lastChunk hlast
              obtain ⟨-, s', hrun, htake, -⟩ := stripChunks_zero beyond hdata hempty more
              simp only [hlast, hrun, htake] at h
              cases h
              exact ⟨rfl, _, rfl, hs ▸ .chunked hchunked hdata hempty more⟩
          | error => simp [hlast] at h
          | more => simp [hlast] at h
          | overflow => simp [hlast] at h
      | false =>
          cases close with
          | true =>
              simp only [hchunked, Bool.false_eq_true, if_false, if_true, Nat.lt_irrefl,
                List.take_length] at h
              cases h
              exact ⟨rfl, _, rfl, hs ▸ .whole rfl hchunked _⟩
          | false =>
              simp only [hchunked, Bool.false_eq_true, if_false] at h
              by_cases hshort : s.length < hm'.bodyLen
              · simp [hshort] at h
              · rw [if_neg hshort] at h
                cases h
                have hlen : (s.take hm.bodyLen).length = hm.bodyLen := by
                  rw [List.length_take, Nat.min_eq_left (Nat.le_of_not_lt hshort)]
                have hbody : HasBody false hm (s.take hm.bodyLen ++ s.drop hm.bodyLen)
                    (s.take hm.bodyLen) _ := .plain rfl hchunked hlen _
                rw [List.take_append_drop, hlen] at hbody
                exact ⟨rfl, _, rfl, hs ▸ hbody⟩

/-- `http_cb` delivers a message exactly when a head and a whole body stand at the front of the
buffer, whatever it reads behind the buffer, and leaves what follows them as it is. -/
theorem httpTurn_message_iff :
    (∃ rest, httpTurn close beyond buf = .message hm body n rest ∧ rest.drop n = buf.drop n) ↔
      mgHttpParse buf = .found hm ∧
        ∃ m, n = hm.headLen + m ∧ HasBody close hm (buf.drop hm.headLen) body m := by
  constructor
  · rintro ⟨rest, h, -⟩
    exact hasBody_of_httpTurn h
  · rintro ⟨hparse, _, rfl, hbody⟩
    exact httpTurn_of_hasBody beyond hparse hbody

theorem httpTurn_beyond (h : httpTurn close beyond buf = .message hm body n rest)
    (beyond' : UInt8) : ∃ rest', httpTurn close beyond' buf = .message hm body n rest' := by
  obtain ⟨hparse, m, rfl, hbody⟩ := hasBody_of_httpTurn h
  obtain ⟨rest', hturn, -⟩ := httpTurn_of_hasBody beyond' hparse hbody
  exact ⟨rest', hturn⟩

theorem httpTurn_message (h : httpTurn close beyond buf = .message hm body n rest) :
    0 < n ∧ n ≤ buf.length ∧ rest.drop n = buf.drop n := by
  obtain ⟨hparse, m, rfl, hbody⟩ := hasBody_of_httpTurn h
  obtain ⟨hpos, hle, -⟩ := mgHttpParse_found hparse
  obtain ⟨rest', hturn, hdrop⟩ := httpTurn_of_hasBody beyond hparse hbody
  have hm := hbody.le
  rw [List.length_drop] at hm
  rw [h] at hturn
  cases hturn
  exact ⟨by omega, by omega, hdrop⟩

/-- As long as the connection is not being closed, what follows a message makes no difference to
it. -/
theorem httpTurn_upto (h : httpTurn false beyond buf = .message hm body n rest)
    (beyond' : UInt8) (more : List UInt8) :
    ∃ rest', httpTurn false beyond' (buf.take n ++ more) = .message hm body n rest' := by
  obtain ⟨hparse, m, rfl, hbody⟩ := hasBody_of_httpTurn h
  obtain ⟨-, hle, hlen, -⟩ := mgHttpParse_found hparse
  have hfront : mgHttpGetRequestLen (buf.take (hm.headLen + m)) = .found hm.headLen :=
    mgHttpGetRequestLen_take hlen (Nat.le_add_right _ _)
  have hparse' : mgHttpParse (buf.take (hm.headLen + m) ++ more) = .found hm := by
    rw [mgHttpParse_append (by simp [hfront]), ← mgHttpParse_append (by simp [hfront])
      (buf.drop (hm.headLen + m)), List.take_append_drop, hparse]
  have hbody' : HasBody false hm ((buf.take (hm.headLen + m) ++ more).drop hm.headLen) body m := by
    have htake : hm.headLen ≤ (buf.take (hm.headLen + m)).length := by
      rw [List.length_take]
      omega
    rw [List.drop_append_of_le_length htake, List.drop_take, Nat.add_sub_cancel_left]
    exact hbody.take more
  obtain ⟨rest', hturn, -⟩ := httpTurn_of_hasBody beyond' hparse' hbody'
  exact ⟨rest', hturn⟩

end

end Mgws.Http
