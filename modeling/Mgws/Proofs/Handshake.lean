import Mgws.Handshake
import Mgws.Lib.Base64
import Mgws.Proofs.Sha1
/-!
# The key of the response

`mg_base64_encode` looks at one byte at a time and keeps the bits that are left in the array; it
writes the digits of three bytes at a time.  The key that `ws_handshake` answers is the hash in
base 64 of the client's key with the constant behind it.
-/

namespace Mgws.Ws

open Lib Base64

variable {a b c : UInt8} {text : List UInt8}

/-! ## Digits -/

theorem mgBase64EncodeSingle_of_lt : ∀ n < 64, mgBase64EncodeSingle (UInt8.ofNat n) = digit n := by
  decide

theorem mgBase64EncodeSingle_eq {n : Nat} (h : c.toNat = n) (hn : n < 64) :
    mgBase64EncodeSingle c = digit n := by
  rw [← mgBase64EncodeSingle_of_lt n hn, ← h, UInt8.ofNat_toNat]

theorem and_3 (n : Nat) : n &&& 3 = n % 4 := Nat.and_two_pow_sub_one_eq_mod n 2

/-- The bits that are left of one byte stand in front of those of the next one. -/
theorem toNat_or {x y : UInt8} {m k : Nat} (hx : x.toNat = m <<< k) (hy : y.toNat < 2 ^ k) :
    (x ||| y).toNat = m * 2 ^ k + y.toNat := by
  rw [UInt8.toNat_or, hx, ← Nat.shiftLeft_add_eq_or_of_lt hy, Nat.shiftLeft_eq]

theorem toNat_upper {k : UInt8} {d : Nat} (h : 2 ^ (k.toNat % 8) = d) (c : UInt8) :
    (c >>> k).toNat = c.toNat / d := by
  rw [UInt8.toNat_shiftRight, Nat.shiftRight_eq_div_pow, h]

theorem toNat_lower {m : UInt8} {w : Nat} (h : m.toNat = 2 ^ w - 1) (c : UInt8) :
    (c &&& m).toNat = c.toNat % 2 ^ w := by
  rw [UInt8.toNat_and, h, Nat.and_two_pow_sub_one_eq_mod]

theorem toNat_keep {m k : UInt8} {w : Nat} (h : m.toNat = 2 ^ w - 1) (hw : w + k.toNat = 6)
    (c : UInt8) : ((c &&& m) <<< k).toNat = (c.toNat % 2 ^ w) <<< k.toNat := by
  have hk : k.toNat % 8 = k.toNat := Nat.mod_eq_of_lt (by omega)
  have hlt : (c.toNat % 2 ^ w) <<< k.toNat < 2 ^ 8 := by
    have hsmall := Nat.mod_lt c.toNat (Nat.two_pow_pos w)
    calc (c.toNat % 2 ^ w) <<< k.toNat
        = c.toNat % 2 ^ w * 2 ^ k.toNat := Nat.shiftLeft_eq _ _
      _ < 2 ^ w * 2 ^ k.toNat := Nat.mul_lt_mul_of_pos_right hsmall (Nat.two_pow_pos _)
      _ = 2 ^ 6 := by rw [← Nat.pow_add, hw]
      _ < 2 ^ 8 := by decide
  rw [UInt8.toNat_shiftLeft, toNat_lower h, hk, Nat.mod_eq_of_lt hlt]

/-! ## One byte -/

theorem mgBase64Update_first (h : text.length % 4 = 0) (last a : UInt8) :
    mgBase64Update ⟨text, last⟩ a = ⟨text ++ [digit (a.toNat / 4)], (a &&& 3) <<< 4⟩ := by
  have hlt := a.toNat_lt
  have hupper : (a >>> 2).toNat = a.toNat / 4 := toNat_upper rfl a
  rw [mgBase64Update]
  dsimp only
  rw [and_3, h, if_pos rfl, mgBase64EncodeSingle_eq hupper (by omega)]

theorem mgBase64Update_second (h : text.length % 4 = 1) (a b : UInt8) :
    mgBase64Update ⟨text, (a &&& 3) <<< 4⟩ b =
      ⟨text ++ [digit (a.toNat % 4 * 16 + b.toNat / 16)], (b &&& 15) <<< 2⟩ := by
  have hlt := b.toNat_lt
  have hupper : (b >>> 4).toNat = b.toNat / 16 := toNat_upper rfl b
  have hkept : ((a &&& 3) <<< 4).toNat = (a.toNat % 4) <<< 4 := toNat_keep (w := 2) rfl rfl a
  have hor : ((a &&& 3) <<< 4 ||| b >>> 4).toNat = a.toNat % 4 * 16 + b.toNat / 16 := by
    rw [toNat_or hkept (by omega), hupper]
    rfl
  rw [mgBase64Update]
  dsimp only
  rw [and_3, h, if_neg (by decide), if_pos rfl, mgBase64EncodeSingle_eq hor (by omega)]

theorem mgBase64Update_third (h : text.length % 4 = 2) (b c : UInt8) :
    mgBase64Update ⟨text, (b &&& 15) <<< 2⟩ c =
      ⟨text ++ [digit (b.toNat % 16 * 4 + c.toNat / 64), digit (c.toNat % 64)], 0⟩ := by
  have hlt := c.toNat_lt
  have hupper : (c >>> 6).toNat = c.toNat / 64 := toNat_upper rfl c
  have hlower : (c &&& 63).toNat = c.toNat % 64 := toNat_lower (w := 6) rfl c
  have hkept : ((b &&& 15) <<< 2).toNat = (b.toNat % 16) <<< 2 := toNat_keep (w := 4) rfl rfl b
  have hor : ((b &&& 15) <<< 2 ||| c >>> 6).toNat = b.toNat % 16 * 4 + c.toNat / 64 := by
    rw [toNat_or hkept (by omega), hupper]
    rfl
  rw [mgBase64Update]
  dsimp only
  rw [and_3, h, if_neg (by decide), if_neg (by decide), mgBase64EncodeSingle_eq hor (by omega),
    mgBase64EncodeSingle_eq hlower (by omega)]

/-! ## All bytes -/

theorem digits_three (a b c : UInt8) :
    digits 4 (ofBytes [a, b, c]) =
      [digit (a.toNat / 4), digit (a.toNat % 4 * 16 + b.toNat / 16),
        digit (b.toNat % 16 * 4 + c.toNat / 64), digit (c.toNat % 64)] := by
  have ha := a.toNat_lt
  have hb := b.toNat_lt
  have hc := c.toNat_lt
  have hnum : ofBytes [a, b, c] = 65536 * a.toNat + 256 * b.toNat + c.toNat := by
    simp only [ofBytes, List.foldl_cons, List.foldl_nil]
    omega
  have h0 : ofBytes [a, b, c] / 64 / 64 / 64 % 64 = a.toNat / 4 := by omega
  have h1 : ofBytes [a, b, c] / 64 / 64 % 64 = a.toNat % 4 * 16 + b.toNat / 16 := by omega
  have h2 : ofBytes [a, b, c] / 64 % 64 = b.toNat % 16 * 4 + c.toNat / 64 := by omega
  have h3 : ofBytes [a, b, c] % 64 = c.toNat % 64 := by omega
  simp only [digits, h0, h1, h2, h3]
  rfl

theorem digits_two (a b : UInt8) :
    digits 3 (4 * ofBytes [a, b]) =
      [digit (a.toNat / 4), digit (a.toNat % 4 * 16 + b.toNat / 16),
        digit (b.toNat % 16 * 4)] := by
  have ha := a.toNat_lt
  have hb := b.toNat_lt
  have hnum : ofBytes [a, b] = 256 * a.toNat + b.toNat := by
    simp only [ofBytes, List.foldl_cons, List.foldl_nil]
    omega
  have h0 : 4 * ofBytes [a, b] / 64 / 64 % 64 = a.toNat / 4 := by omega
  have h1 : 4 * ofBytes [a, b] / 64 % 64 = a.toNat % 4 * 16 + b.toNat / 16 := by omega
  have h2 : 4 * ofBytes [a, b] % 64 = b.toNat % 16 * 4 := by omega
  simp only [digits, h0, h1, h2]
  rfl

theorem digits_one (a : UInt8) :
    digits 2 (16 * ofBytes [a]) = [digit (a.toNat / 4), digit (a.toNat % 4 * 16)] := by
  have ha := a.toNat_lt
  have hnum : ofBytes [a] = a.toNat := by
    simp only [ofBytes, List.foldl_cons, List.foldl_nil]
    omega
  have h0 : 16 * ofBytes [a] / 64 % 64 = a.toNat / 4 := by omega
  have h1 : 16 * ofBytes [a] % 64 = a.toNat % 4 * 16 := by omega
  simp only [digits, h0, h1]
  rfl

theorem padEquals_of_full {turns : Nat} (h : text.length % 4 = 0) :
    padEquals turns text = text := by
  cases turns with
  | zero => rfl
  | succ turns =>
      rw [padEquals, and_3, h]
      rfl

theorem padEquals_of_not_full {turns : Nat} (h : text.length % 4 ≠ 0) :
    padEquals (turns + 1) text = padEquals turns (text ++ [61]) := by
  rw [padEquals, and_3, if_pos h]

/-- Two characters stand in the last group: of the two that the byte 0 adds, the second one is taken
off again. -/
theorem mgBase64Final_second (h : text.length % 4 = 2) (b : UInt8) :
    mgBase64Final ⟨text, (b &&& 15) <<< 2⟩ = text ++ [digit (b.toNat % 16 * 4), 61] := by
  have hzero : b.toNat % 16 * 4 + (0 : UInt8).toNat / 64 = b.toNat % 16 * 4 := by simp
  have hdrop : (text ++ [digit (b.toNat % 16 * 4), digit ((0 : UInt8).toNat % 64)]).dropLast =
      text ++ [digit (b.toNat % 16 * 4)] := by
    rw [List.dropLast_append_cons]
    rfl
  have hthree : (text ++ [digit (b.toNat % 16 * 4)]).length % 4 ≠ 0 := by
    rw [List.length_append, List.length_singleton]
    omega
  have hfour : (text ++ [digit (b.toNat % 16 * 4)] ++ [61]).length % 4 = 0 := by
    simp only [List.length_append, List.length_singleton]
    omega
  rw [mgBase64Final]
  dsimp only
  rw [and_3, h, if_pos rfl, if_pos (by decide), mgBase64Update_third h, hzero]
  dsimp only
  rw [hdrop, padEquals_of_not_full hthree, padEquals_of_full hfour, List.append_assoc]
  rfl

theorem mgBase64Final_first (h : text.length % 4 = 1) (a : UInt8) :
    mgBase64Final ⟨text, (a &&& 3) <<< 4⟩ = text ++ [digit (a.toNat % 4 * 16), 61, 61] := by
  have hzero : a.toNat % 4 * 16 + (0 : UInt8).toNat / 16 = a.toNat % 4 * 16 := by simp
  have htwo : (text ++ [digit (a.toNat % 4 * 16)]).length % 4 ≠ 0 := by
    rw [List.length_append, List.length_singleton]
    omega
  have hthree : (text ++ [digit (a.toNat % 4 * 16)] ++ [61]).length % 4 ≠ 0 := by
    simp only [List.length_append, List.length_singleton]
    omega
  have hfour : (text ++ [digit (a.toNat % 4 * 16)] ++ [61] ++ [61]).length % 4 = 0 := by
    simp only [List.length_append, List.length_singleton]
    omega
  rw [mgBase64Final]
  dsimp only
  rw [and_3, h, if_neg (by decide), if_pos (by decide), mgBase64Update_second h, hzero]
  dsimp only
  rw [padEquals_of_not_full htwo, padEquals_of_not_full hthree, padEquals_of_full hfour,
    List.append_assoc, List.append_assoc]
  rfl

theorem mgBase64Final_foldl (p : List UInt8) (h : text.length % 4 = 0) (last : UInt8) :
    mgBase64Final (p.foldl mgBase64Update ⟨text, last⟩) = text ++ encode p := by
  induction p using encode.induct generalizing text last with
  | case1 a b c rest ih =>
      rw [List.foldl_cons, List.foldl_cons, List.foldl_cons, mgBase64Update_first h,
        mgBase64Update_second (by rw [List.length_append, List.length_singleton]; omega),
        mgBase64Update_third (by simp only [List.length_append, List.length_singleton]; omega),
        ih (by simp only [List.length_append, List.length_cons, List.length_nil]; omega), encode,
        digits_three]
      simp only [List.append_assoc, List.cons_append, List.nil_append]
  | case2 a b =>
      rw [List.foldl_cons, List.foldl_cons, List.foldl_nil, mgBase64Update_first h,
        mgBase64Update_second (by rw [List.length_append, List.length_singleton]; omega),
        mgBase64Final_second (by simp only [List.length_append, List.length_singleton]; omega),
        encode, digits_two]
      simp only [List.append_assoc, List.cons_append, List.nil_append]
  | case3 a =>
      rw [List.foldl_cons, List.foldl_nil, mgBase64Update_first h,
        mgBase64Final_first (by rw [List.length_append, List.length_singleton]; omega), encode,
        digits_one]
      simp only [List.append_assoc, List.cons_append, List.nil_append]
  | case4 =>
      rw [List.foldl_nil, mgBase64Final, encode, List.append_nil]
      dsimp only
      rw [and_3, h, if_neg (by decide), if_neg (by decide)]
      exact padEquals_of_full h

theorem mgBase64Encode_eq {p : List UInt8} {dl : Nat} (h : (p.length + 2) / 3 * 4 < dl) :
    mgBase64Encode p dl = encode p := by
  have hroom : ¬ dl < (p.length / 3 + if p.length % 3 ≠ 0 then 1 else 0) * 4 + 1 := by
    split <;> omega
  rw [mgBase64Encode, if_neg hroom]
  exact mgBase64Final_foldl p rfl 0

/-! ## The answer -/

theorem wsAccept_eq {buffer : List UInt8} (h : buffer.length = 64) (wskey : List UInt8) :
    wsAccept buffer wskey =
      encode (Sha1.digest (wskey ++ bytes "258EAFA5-E914-47DA-95CA-C5AB0DC85B11")) := by
  have hhash := mgSha1_eq h [wskey, bytes "258EAFA5-E914-47DA-95CA-C5AB0DC85B11"]
  rw [List.foldl_cons, List.foldl_cons, List.foldl_nil, List.flatten_cons, List.flatten_cons,
    List.flatten_nil, List.append_nil] at hhash
  rw [wsAccept, hhash]
  exact mgBase64Encode_eq (by rw [Sha1.length_digest]; decide)

theorem wsAccept_eq_sample :
    (List.replicate 64 (0 : UInt8)).length = 64 ∧
      encode (Sha1.digest (bytes "dGhlIHNhbXBsZSBub25jZQ==" ++
        bytes "258EAFA5-E914-47DA-95CA-C5AB0DC85B11")) = bytes "s3pPLMBiTxaQ9kYGzzhZRbK+xOo=" := by
  have hlen : (List.replicate 64 (0 : UInt8)).length = 64 := rfl
  have haccept : wsAccept (List.replicate 64 0) (bytes "dGhlIHNhbXBsZSBub25jZQ==") =
      bytes "s3pPLMBiTxaQ9kYGzzhZRbK+xOo=" := by decide +kernel
  exact ⟨hlen, (wsAccept_eq hlen _).symm.trans haccept⟩

end Mgws.Ws
