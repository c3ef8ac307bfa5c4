import Mgws.Http
/-!
# Chunked bodies

`skip_chunk` accepts exactly the chunks whose data is as long as their prefix says, as a number of
32 bits.  The two passes of `http_cb` put the data of all chunks together in place, and leave what
stands behind the last chunk as it is.
-/

namespace Mgws.Http

/-- A chunk whose data is as long as its hexadecimal digits say. -/
structure ChunkText where
  digits : List UInt8
  data : List UInt8
  hex : ∀ c ∈ digits, isHexDigit c = true
  size : mgUnhexn digits % 2 ^ 32 = data.length
  small : digits.length + data.length + 4 < 2 ^ 31

def ChunkText.encode (c : ChunkText) : List UInt8 := c.digits ++ 13 :: 10 :: c.data ++ [13, 10]

theorem ChunkText.length_encode (c : ChunkText) :
    c.encode.length = c.digits.length + 2 + c.data.length + 2 := by
  simp only [encode, List.length_append, List.length_cons, List.length_nil]
  omega

theorem ChunkText.take_data (c : ChunkText) (more : List UInt8) :
    ((c.encode ++ more).drop (c.digits.length + 2)).take c.data.length = c.data := by
  have hsplit : c.encode ++ more = (c.digits ++ [13, 10]) ++ (c.data ++ 13 :: 10 :: more) := by
    simp [encode]
  rw [hsplit, List.drop_left' (by simp), List.take_left]

section

variable {beyond : UInt8} {buf more : List UInt8} {pl dl n : Nat}

theorem takeWhile_isHexDigit {digits : List UInt8} (hex : ∀ c ∈ digits, isHexDigit c = true)
    (rest : List UInt8) : (digits ++ 13 :: rest).takeWhile isHexDigit = digits := by
  rw [List.takeWhile_append_of_pos hex, List.takeWhile_cons_of_neg (by decide), List.append_nil]

/-! ## One chunk -/

theorem skipChunk_encode (beyond : UInt8) (c : ChunkText) (more : List UInt8) :
    skipChunk beyond (c.encode ++ more) =
      .chunk (c.digits.length + 2) c.data.length c.encode.length := by
  have hbuf : c.encode ++ more = c.digits ++ 13 :: (10 :: c.data ++ 13 :: 10 :: more) := by
    simp [ChunkText.encode]
  have hlength : (c.encode ++ more).length = c.encode.length + more.length := List.length_append
  have hencode := c.length_encode
  have hdigits : (c.encode ++ more).takeWhile isHexDigit = c.digits := by
    rw [hbuf, takeWhile_isHexDigit c.hex]
  have hcr : (c.encode ++ more)[c.digits.length]? = some 13 := by
    rw [hbuf]
    simp
  have hlf : (c.encode ++ more)[c.digits.length + 1]? = some 10 := by
    rw [hbuf]
    simp
  have hcr' : (c.encode ++ more)[c.digits.length + c.data.length + 2]? = some 13 := by
    rw [hbuf, List.getElem?_append_right (by omega)]
    simp [show c.digits.length + c.data.length + 2 - c.digits.length = c.data.length + 2 by omega]
  have hlf' : (c.encode ++ more)[c.digits.length + c.data.length + 3]? = some 10 := by
    rw [hbuf, List.getElem?_append_right (by omega)]
    simp [show c.digits.length + c.data.length + 3 - c.digits.length = c.data.length + 3 by omega]
  have htake : (c.encode ++ more).take c.digits.length = c.digits := by
    rw [hbuf, List.take_left]
  have hsmall := c.small
  have hlong : ¬(c.encode ++ more).length < 3 := by omega
  have hline : ¬(c.encode ++ more).length < c.digits.length + 1 := by omega
  have hint : ¬2 ^ 31 ≤ c.data.length := by omega
  have hsum : ¬2 ^ 31 ≤ c.digits.length + c.data.length + 4 := by omega
  have hwhole : ¬(c.encode ++ more).length < c.digits.length + c.data.length + 4 := by omega
  simp only [skipChunk, hdigits, hcr, hlf, htake, c.size, hcr', hlf', if_neg hlong, hline,
    if_neg hint, if_neg hsum, if_neg hwhole, Option.getD_some, hencode]
  rfl

theorem drop_eq_cons_cons {i : Nat} {a b : UInt8} (ha : buf[i]? = some a)
    (hb : buf[i + 1]? = some b) : buf.drop i = a :: b :: buf.drop (i + 2) := by
  obtain ⟨hi, rfl⟩ := List.getElem?_eq_some_iff.mp ha
  obtain ⟨hi', rfl⟩ := List.getElem?_eq_some_iff.mp hb
  rw [List.drop_eq_getElem_cons hi, List.drop_eq_getElem_cons hi']

/-- What is accepted as a chunk is one. -/
theorem exists_of_skipChunk (h : skipChunk beyond buf = .chunk pl dl n) :
    ∃ (c : ChunkText) (more : List UInt8), buf = c.encode ++ more ∧
      pl = c.digits.length + 2 ∧ dl = c.data.length ∧ n = c.encode.length := by
  generalize hdigits : buf.takeWhile isHexDigit = digits
  have htake : buf.take digits.length = digits := by
    rw [← hdigits]
    exact (List.prefix_iff_eq_take.mp (List.takeWhile_prefix _)).symm
  simp only [skipChunk, hdigits, htake] at h
  split at h
  · cases h
  split at h
  · cases h
  next hline =>
  split at h
  · cases h
  split at h
  · cases h
  next hsum =>
  split at h
  · cases h
  next hwhole =>
  split at h
  · cases h
  next hend =>
  simp only [Bool.or_eq_true, decide_eq_true_eq, not_or, not_not] at hline hend
  obtain ⟨⟨-, hcr⟩, hlf⟩ := hline
  obtain ⟨hcr', hlf'⟩ := hend
  injection h with hpl hdl hn
  rw [hdl] at hsum hwhole hcr' hlf' hn
  have hlf : buf[digits.length + 1]? = some 10 := by
    rw [List.getElem?_eq_getElem (by omega)] at hlf ⊢
    exact congrArg some hlf
  let data := (buf.drop (digits.length + 2)).take dl
  have hdata : data.length = dl := by
    rw [List.length_take, List.length_drop]
    omega
  have hrest : buf.drop (digits.length + 2) =
      data ++ 13 :: 10 :: buf.drop (digits.length + dl + 4) := by
    rw [← drop_eq_cons_cons hcr' hlf', ← List.take_append_drop dl (buf.drop (digits.length + 2)),
      List.drop_drop]
    congr 2
    omega
  have hbuf : buf =
      digits ++ 13 :: 10 :: (data ++ 13 :: 10 :: buf.drop (digits.length + dl + 4)) := by
    rw [← hrest, ← drop_eq_cons_cons hcr hlf]
    exact (List.take_append_drop digits.length buf).symm.trans (congrArg (· ++ _) htake)
  have hex : ∀ c ∈ digits, isHexDigit c = true := by
    rw [← hdigits]
    exact fun c hc => List.mem_takeWhile_imp hc
  let c : ChunkText := ⟨digits, data, hex, hdl.trans hdata.symm, by omega⟩
  refine ⟨c, buf.drop (digits.length + dl + 4), ?_, hpl.symm, hdata.symm, ?_⟩
  · simpa [c, ChunkText.encode] using hbuf
  · rw [c.length_encode, hdata]
    exact hn.symm

/-! ## All chunks -/

def encodeChunks (cs : List ChunkText) (last : ChunkText) : List UInt8 :=
  cs.flatMap ChunkText.encode ++ last.encode

theorem four_mul_length_le (cs : List ChunkText) :
    4 * cs.length ≤ (cs.flatMap ChunkText.encode).length := by
  induction cs with
  | nil => exact Nat.le_refl _
  | cons c cs ih =>
      have hencode := c.length_encode
      simp only [List.flatMap_cons, List.length_append, List.length_cons]
      omega

def chunkData (cs : List ChunkText) : List UInt8 := cs.flatMap ChunkText.data

theorem lastChunk_encode (beyond : UInt8) {cs : List ChunkText} {last : ChunkText}
    (hdata : ∀ c ∈ cs, c.data ≠ []) (hlast : last.data = []) {turns : Nat}
    (hturns : cs.length < turns) (more : List UInt8) :
    lastChunk beyond turns (encodeChunks cs last ++ more) =
      .chunk (last.digits.length + 2) 0 last.encode.length := by
  induction cs generalizing turns with
  | nil =>
      obtain ⟨turns, rfl⟩ := Nat.exists_eq_succ_of_ne_zero (Nat.ne_zero_of_lt hturns)
      rw [lastChunk, encodeChunks, List.flatMap_nil, List.nil_append, skipChunk_encode, hlast]
      rfl
  | cons c cs ih =>
      obtain ⟨turns, rfl⟩ := Nat.exists_eq_succ_of_ne_zero (Nat.ne_zero_of_lt hturns)
      obtain ⟨hc, hcs⟩ := List.forall_mem_cons.mp hdata
      have hne : c.data.length ≠ 0 := fun h => hc (List.length_eq_zero_iff.mp h)
      have hsplit : encodeChunks (c :: cs) last ++ more =
          c.encode ++ (encodeChunks cs last ++ more) := by
        simp [encodeChunks]
      rw [lastChunk, hsplit, skipChunk_encode]
      simp only [if_neg hne, List.drop_left]
      exact ih hcs (Nat.lt_of_succ_lt_succ hturns)

/-- Where the first pass finds the end, there are chunks with data and an empty one. -/
theorem exists_of_lastChunk {turns : Nat} (h : lastChunk beyond turns buf = .chunk pl dl n) :
    ∃ cs last more, buf = encodeChunks cs last ++ more ∧ (∀ c ∈ cs, c.data ≠ []) ∧
      last.data = [] ∧ cs.length < turns := by
  induction turns generalizing buf with
  | zero => cases h
  | succ turns ih =>
      rw [lastChunk] at h
      split at h
      · next pl' dl' n' hskip =>
          obtain ⟨c, more, rfl, -, rfl, rfl⟩ := exists_of_skipChunk hskip
          split at h
          · next hempty =>
              refine ⟨[], c, more, rfl, nofun, List.length_eq_zero_iff.mp hempty, by simp⟩
          · next hne =>
              rw [List.drop_left] at h
              obtain ⟨cs, last, more, rfl, hdata, hlast, hturns⟩ := ih h
              refine ⟨c :: cs, last, more, by simp [encodeChunks], ?_, hlast,
                Nat.succ_lt_succ hturns⟩
              exact List.forall_mem_cons.mpr
                ⟨fun hnil => hne (List.length_eq_zero_iff.mpr hnil), hdata⟩
      · next hother => exact absurd h (hother pl dl n)

/-! ## The second pass -/

section

variable {s : List UInt8} {dst src len m : Nat}

theorem take_memmove (h : dst ≤ src) (hle : src + len ≤ s.length) :
    (memmove s dst src len).take (dst + len) = s.take dst ++ (s.drop src).take len := by
  rw [memmove]
  refine List.take_left' ?_
  simp only [List.length_append, List.length_take, List.length_drop]
  omega

theorem drop_memmove (h : dst ≤ src) (hle : src + len ≤ s.length) (hm : dst + len ≤ m) :
    (memmove s dst src len).drop m = s.drop m := by
  have hfront : (s.take dst ++ (s.drop src).take len).length = dst + len := by
    simp only [List.length_append, List.length_take, List.length_drop]
    omega
  obtain ⟨m, rfl⟩ := Nat.exists_eq_add_of_le hm
  calc (memmove s dst src len).drop (dst + len + m)
      = ((memmove s dst src len).drop (dst + len)).drop m := (List.drop_drop ..).symm
    _ = (s.drop (dst + len)).drop m := by rw [memmove, List.drop_left' hfront]
    _ = s.drop (dst + len + m) := List.drop_drop ..

end

/-- The data of the chunks from the offset `o` on is put behind the `len` bytes in front. -/
theorem stripChunks_encode (beyond : UInt8) {cs : List ChunkText} {last : ChunkText}
    (hdata : ∀ c ∈ cs, c.data ≠ []) (hlast : last.data = []) {turns o len : Nat}
    (hturns : cs.length < turns) {s more : List UInt8} (hlen : len ≤ o)
    (hs : s.drop o = encodeChunks cs last ++ more) :
    ∃ s', stripChunks beyond turns o len s =
        (o + (encodeChunks cs last).length, len + (chunkData cs).length, s') ∧
      s'.take (len + (chunkData cs).length) = s.take len ++ chunkData cs ∧
      s'.drop (o + (encodeChunks cs last).length) = more := by
  induction cs generalizing turns o len s with
  | nil =>
      obtain ⟨turns, rfl⟩ := Nat.exists_eq_succ_of_ne_zero (Nat.ne_zero_of_lt hturns)
      have hone : encodeChunks [] last = last.encode := rfl
      have hmove : memmove s len (o + (last.digits.length + 2)) 0 = s := by simp [memmove]
      rw [hone] at hs ⊢
      rw [stripChunks, hs, skipChunk_encode, hlast]
      refine ⟨s, by simp [chunkData, hmove], by simp [chunkData], ?_⟩
      rw [← List.drop_drop, hs, List.drop_left]
  | cons c cs ih =>
      obtain ⟨turns, rfl⟩ := Nat.exists_eq_succ_of_ne_zero (Nat.ne_zero_of_lt hturns)
      obtain ⟨hc, hcs⟩ := List.forall_mem_cons.mp hdata
      have hne : c.data.length ≠ 0 := fun h => hc (List.length_eq_zero_iff.mp h)
      have hencode := c.length_encode
      have hsplit : s.drop o = c.encode ++ (encodeChunks cs last ++ more) := by
        simp [hs, encodeChunks]
      have hsrc : (s.drop (o + (c.digits.length + 2))).take c.data.length = c.data := by
        rw [← List.drop_drop, hsplit, c.take_data]
      have hle : o + c.encode.length ≤ s.length := by
        have hlength := congrArg List.length hsplit
        rw [List.length_drop, List.length_append] at hlength
        have hpos := hencode
        omega
      have hlen' : len + c.data.length ≤ o + c.encode.length := by omega
      have hmoved : (memmove s len (o + (c.digits.length + 2)) c.data.length).drop
          (o + c.encode.length) = encodeChunks cs last ++ more := by
        rw [drop_memmove (by omega) (by omega) (by omega), ← List.drop_drop, hsplit,
          List.drop_left]
      obtain ⟨s', hrun, htake, hdrop⟩ := ih hcs (Nat.lt_of_succ_lt_succ hturns) hlen' hmoved
      rw [stripChunks, hsplit, skipChunk_encode]
      simp only [if_neg hne]
      have hwhole : (encodeChunks (c :: cs) last).length =
          c.encode.length + (encodeChunks cs last).length := by
        simp [encodeChunks]
      have hdone : (chunkData (c :: cs)).length = c.data.length + (chunkData cs).length := by
        simp [chunkData]
      refine ⟨s', ?_, ?_, ?_⟩
      · rw [hrun, hwhole, hdone, Nat.add_assoc, Nat.add_assoc]
      · rw [hdone, ← Nat.add_assoc, htake, take_memmove (by omega) (by omega), hsrc]
        simp [chunkData]
      · rw [hwhole, ← Nat.add_assoc, hdrop]

end

end Mgws.Http
