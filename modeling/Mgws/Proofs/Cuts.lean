import Mgws.Proofs.Heads
/-!
# Chunked requests that arrive in pieces

`skip_chunk` takes a line of at least three hexadecimal digits that is not complete yet for an
error.  So a chunked request is refused when a read ends in such a line, and is waited for when it
ends anywhere else.
-/

namespace Mgws.Http

/-- The part of a chunk that ends in its line of digits, three bytes or more in, or between the two
bytes behind it when the byte behind the buffer is not the second one. -/
def ChunkText.CutInLine (c : ChunkText) (m : Nat) (beyond : UInt8) : Prop :=
  3 ≤ m ∧ (m ≤ c.digits.length ∨ m = c.digits.length + 1 ∧ beyond ≠ 10)

instance (c : ChunkText) (m : Nat) (beyond : UInt8) : Decidable (c.CutInLine m beyond) :=
  inferInstanceAs (Decidable (_ ∧ _))

section

variable {c : ChunkText} {m : Nat} {beyond : UInt8}

theorem takeWhile_take_digits (hm : m ≤ c.digits.length) :
    (c.encode.take m).takeWhile isHexDigit = c.encode.take m := by
  have htake : c.encode.take m = c.digits.take m := by
    rw [ChunkText.encode, List.append_assoc, List.take_append_of_le_length hm]
  rw [htake, List.takeWhile_eq_self_iff]
  exact fun d hd => c.hex d (List.mem_of_mem_take hd)

theorem take_encode_succ (hm : c.digits.length + 1 ≤ m) :
    ∃ rest, c.encode.take m = c.digits ++ 13 :: rest ∧
      (c.digits.length + 2 ≤ m → ∃ rest', rest = 10 :: rest') := by
  obtain ⟨m, rfl⟩ := Nat.exists_eq_add_of_le hm
  have hsplit : c.encode = c.digits ++ 13 :: (10 :: c.data ++ [13, 10]) := by
    simp [ChunkText.encode]
  rw [hsplit, Nat.add_assoc, List.take_append, Nat.add_sub_cancel_left, Nat.add_comm 1,
    List.take_succ_cons, List.take_of_length_le (by omega)]
  refine ⟨_, rfl, fun hm' => ?_⟩
  obtain ⟨m, rfl⟩ := Nat.exists_eq_add_of_le (show 1 ≤ m by omega)
  rw [List.cons_append, Nat.add_comm 1, List.take_succ_cons]
  exact ⟨_, rfl⟩

/-- What `skip_chunk` makes of a part of a chunk. -/
theorem skipChunk_take (hm : m < c.encode.length) :
    skipChunk beyond (c.encode.take m) = if c.CutInLine m beyond then .error else .more := by
  have hencode := c.length_encode
  have hlength : (c.encode.take m).length = m := by
    rw [List.length_take, Nat.min_eq_left (Nat.le_of_lt hm)]
  have hsmall := c.small
  by_cases hshort : m < 3
  · have hcut : ¬c.CutInLine m beyond := fun h => absurd h.1 (by omega)
    rw [skipChunk, if_pos (by rw [hlength]; exact hshort), if_neg hcut]
  have hlong : ¬(c.encode.take m).length < 3 := by rwa [hlength]
  by_cases hdigits : m ≤ c.digits.length
  · have hcut : c.CutInLine m beyond := ⟨by omega, .inl hdigits⟩
    have hline : (c.encode.take m).length < (c.encode.take m).length + 1 := Nat.lt_succ_self _
    simp only [skipChunk, if_neg hlong, takeWhile_take_digits hdigits, hline, decide_true,
      Bool.true_or, if_true, if_pos hcut]
  -- the line of digits is complete
  obtain ⟨rest, hbuf, hrest⟩ := take_encode_succ (c := c) (m := m) (by omega)
  have hwhile : (c.encode.take m).takeWhile isHexDigit = c.digits := by
    rw [hbuf, takeWhile_isHexDigit c.hex]
  have htake : (c.encode.take m).take c.digits.length = c.digits := by
    rw [hbuf, List.take_left]
  have hcr : (c.encode.take m)[c.digits.length]? = some 13 := by
    rw [hbuf]
    simp
  have hline : ¬(c.encode.take m).length < c.digits.length + 1 := by omega
  have hint : ¬2 ^ 31 ≤ c.data.length := by omega
  have hsum : ¬2 ^ 31 ≤ c.digits.length + c.data.length + 4 := by omega
  have hpart : (c.encode.take m).length < c.digits.length + c.data.length + 4 := by omega
  simp only [skipChunk, if_neg hlong, hwhile, htake, hcr, hline, c.size, if_neg hint, if_neg hsum,
    if_pos hpart, decide_false, Bool.false_or, ne_eq, not_true_eq_false]
  by_cases hend : m = c.digits.length + 1
  · have hnone : (c.encode.take m)[c.digits.length + 1]? = none :=
      List.getElem?_eq_none (by omega)
    by_cases hbeyond : beyond = 10
    · have hcut : ¬c.CutInLine m beyond := fun h =>
        h.2.elim (fun h => hdigits h) fun h => h.2 hbeyond
      rw [if_neg hcut]
      simp [hnone, hbeyond]
    · have hcut : c.CutInLine m beyond := ⟨by omega, .inr ⟨hend, hbeyond⟩⟩
      simp [hnone, hbeyond, hcut]
  · obtain ⟨rest', rfl⟩ := hrest (by omega)
    have hlf : (c.encode.take m)[c.digits.length + 1]? = some 10 := by
      rw [hbuf]
      simp
    have hcut : ¬c.CutInLine m beyond := fun h =>
      h.2.elim (fun h => hdigits h) fun h => hend h.1
    simp [hlf, hcut]

theorem lastChunk_append (beyond : UInt8) {cs : List ChunkText} (hdata : ∀ c ∈ cs, c.data ≠ [])
    {turns : Nat} (hturns : cs.length < turns) (s : List UInt8) :
    ∃ turns', lastChunk beyond turns (cs.flatMap ChunkText.encode ++ s) =
      lastChunk beyond (turns' + 1) s := by
  induction cs generalizing turns with
  | nil =>
      obtain ⟨turns, rfl⟩ := Nat.exists_eq_succ_of_ne_zero (Nat.ne_zero_of_lt hturns)
      exact ⟨turns, rfl⟩
  | cons c cs ih =>
      obtain ⟨turns, rfl⟩ := Nat.exists_eq_succ_of_ne_zero (Nat.ne_zero_of_lt hturns)
      obtain ⟨hc, hcs⟩ := List.forall_mem_cons.mp hdata
      have hne : c.data.length ≠ 0 := fun h => hc (List.length_eq_zero_iff.mp h)
      obtain ⟨turns', hrest⟩ := ih hcs (Nat.lt_of_succ_lt_succ hturns)
      refine ⟨turns', ?_⟩
      rw [List.flatMap_cons, List.append_assoc, lastChunk, skipChunk_encode]
      simp only [if_neg hne, List.drop_left]
      exact hrest

theorem lastChunk_take (beyond : UInt8) {cs : List ChunkText} (hdata : ∀ c ∈ cs, c.data ≠ [])
    (hm : m < c.encode.length) {s : List UInt8}
    (hs : s = cs.flatMap ChunkText.encode ++ c.encode.take m) :
    lastChunk beyond s.length s = if c.CutInLine m beyond then .error else .more := by
  by_cases hturns : cs.length < s.length
  · obtain ⟨turns, hlast⟩ := lastChunk_append beyond hdata hturns (c.encode.take m)
    rw [← hs] at hlast
    rw [hlast, lastChunk, skipChunk_take hm]
    split
    · next hchunk => split at hchunk <;> cases hchunk
    · rfl
  · -- nothing has arrived behind the head
    have hcs := four_mul_length_le cs
    have hlength := congrArg List.length hs
    rw [List.length_append, List.length_take, Nat.min_eq_left (Nat.le_of_lt hm)] at hlength
    have hnil : s = [] := List.length_eq_zero_iff.mp (by omega)
    have hcut : ¬c.CutInLine m beyond := fun h => absurd h.1 (by omega)
    rw [hnil, if_neg hcut]
    rfl

/-- A chunked request of which some chunks with data have arrived and a part of the next chunk is
refused when that part is cut off in the line of digits, three bytes or more in; else the rest is
waited for.  Arriving as a whole it is accepted. -/
theorem httpTurn_cut {buf : List UInt8} {hm : HttpMsg} (hparse : mgHttpParse buf = .found hm)
    (hchunked : isChunked hm = true) {cs : List ChunkText} (hdata : ∀ c ∈ cs, c.data ≠ [])
    (hm' : m < c.encode.length)
    (hbuf : buf.drop hm.headLen = cs.flatMap ChunkText.encode ++ c.encode.take m) :
    httpTurn false beyond buf = (if c.CutInLine m beyond then .badChunk else .more) ∧
      ∀ later cs' last, (∀ c ∈ cs', c.data ≠ []) → last.data = [] →
        buf.drop hm.headLen ++ later = encodeChunks cs' last →
          ∃ rest, httpTurn false beyond (buf ++ later) =
            .message hm (chunkData cs') (hm.headLen + (encodeChunks cs' last).length) rest := by
  constructor
  · have hlast := lastChunk_take beyond hdata hm' hbuf
    by_cases hcut : c.CutInLine m beyond
    · rw [if_pos hcut] at hlast ⊢
      simp only [httpTurn, hparse, hchunked, if_true, hlast]
    · rw [if_neg hcut] at hlast ⊢
      simp only [httpTurn, hparse, hchunked, if_true, hlast]
  · intro later cs' last hdata' hlast hwhole
    obtain ⟨-, hle, hlen, -⟩ := mgHttpParse_found hparse
    have hparse' : mgHttpParse (buf ++ later) = .found hm := by
      rw [mgHttpParse_append (by simp [hlen]), hparse]
    have hbody : HasBody false hm ((buf ++ later).drop hm.headLen) (chunkData cs')
        (encodeChunks cs' last).length := by
      rw [List.drop_append_of_le_length hle, hwhole]
      have hchunks : HasBody false hm (encodeChunks cs' last ++ []) _ _ :=
        .chunked hchunked hdata' hlast []
      rwa [List.append_nil] at hchunks
    obtain ⟨rest, hturn, -⟩ := httpTurn_of_hasBody beyond hparse' hbody
    exact ⟨rest, hturn⟩

end

/-! ## A request to look at -/

def chunkedHead : List UInt8 := bytes "POST / HTTP/1.1\r\nTransfer-Encoding: chunked\r\n\r\n"

def twoBytes : ChunkText where
  digits := bytes "0002"
  data := bytes "hi"
  hex := List.all_eq_true.mp (by decide)
  size := by decide
  small := by decide

def noBytes : ChunkText where
  digits := bytes "0"
  data := []
  hex := List.all_eq_true.mp (by decide)
  size := by decide
  small := by decide

theorem httpTurn_cut_twoBytes :
    httpTurn false 0 (chunkedHead ++ bytes "000") = .badChunk ∧
      ∃ hm n rest, httpTurn false 0 (chunkedHead ++ bytes "0002\r\nhi\r\n0\r\n\r\n") =
        .message hm (bytes "hi") n rest := by
  obtain ⟨hm, hparse, hchunked, hdrop⟩ : ∃ hm,
      mgHttpParse (chunkedHead ++ bytes "000") = .found hm ∧ isChunked hm = true ∧
        (chunkedHead ++ bytes "000").drop hm.headLen =
          [].flatMap ChunkText.encode ++ twoBytes.encode.take 3 := ⟨_, rfl, rfl, rfl⟩
  have hpart : 3 < twoBytes.encode.length := by decide
  have hnone : ∀ c ∈ ([] : List ChunkText), c.data ≠ [] := by
    intro c hc
    cases hc
  obtain ⟨hcut, hwhole⟩ := httpTurn_cut hparse hchunked hnone hpart hdrop
  refine ⟨hcut, ?_⟩
  obtain ⟨rest, hturn⟩ := hwhole (bytes "2\r\nhi\r\n0\r\n\r\n") [twoBytes] noBytes
    (by simp [twoBytes]; decide) rfl (by rw [hdrop]; decide)
  exact ⟨_, _, rest, hturn⟩

end Mgws.Http
