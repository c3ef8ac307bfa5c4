import Mgws.Lib.Stream
import Mgws.Ws
/-!
# The grammar of frames

What stands on the wire for a frame, and that `ws_process` takes just that off the front of a
buffer.
-/

namespace Mgws.Ws

open Lib

inductive Width where
  | short
  | medium
  | long
  deriving DecidableEq, Repr

namespace Width

def limit : Width → Nat
  | short => 126
  | medium => 2 ^ 16
  | long => 2 ^ 64

def code : Width → Nat → Nat
  | short, n => n
  | medium, _ => 126
  | long, _ => 127

def extra : Width → Nat
  | short => 0
  | medium => 2
  | long => 8

def ofCode (n : Nat) : Width := if n < 126 then short else if n = 126 then medium else long

def value (width : Width) (n : Nat) (more : List UInt8) : Nat :=
  match width with
  | short => n
  | medium | long => ofBytes more

theorem code_lt {width : Width} {n : Nat} (h : n < width.limit) : width.code n < 128 := by
  cases width with
  | short => exact lt_trans h (by decide)
  | medium => exact (by decide : 126 < 128)
  | long => exact (by decide : 127 < 128)

theorem ofCode_code {width : Width} {n : Nat} (h : n < width.limit) :
    ofCode (width.code n) = width := by
  cases width with
  | short => exact if_pos h
  | medium => rfl
  | long => rfl

theorem value_toBytes {width : Width} {n : Nat} (h : n < width.limit) :
    width.value (width.code n) (toBytes width.extra n) = n := by
  cases width with
  | short => rfl
  | medium => exact ofBytes_toBytes h
  | long => exact ofBytes_toBytes h

theorem toBytes_value {n : Nat} {more : List UInt8} (hn : n < 128)
    (hmore : more.length = (ofCode n).extra) :
    (ofCode n).value n more < (ofCode n).limit ∧
      (ofCode n).code ((ofCode n).value n more) = n ∧
      toBytes (ofCode n).extra ((ofCode n).value n more) = more := by
  have hbytes : toBytes more.length (ofBytes more) = more := toBytes_ofBytes more
  have hlt : ofBytes more < 256 ^ more.length := ofBytes_lt more
  rcases (by omega : n < 126 ∨ n = 126 ∨ n = 127) with hshort | rfl | rfl
  · have hcode : ofCode n = short := if_pos hshort
    rw [hcode] at hmore ⊢
    exact ⟨hshort, rfl, (List.eq_nil_of_length_eq_zero hmore).symm⟩
  · rw [hmore] at hbytes hlt
    exact ⟨hlt, rfl, hbytes⟩
  · rw [hmore] at hbytes hlt
    exact ⟨hlt, rfl, hbytes⟩

end Width

/-- The mask on bytes of a payload of which the first is at position `i`. -/
def Mask.apply (mask : Mask) : Nat → List UInt8 → List UInt8
  | _, [] => []
  | i, b :: bs => (b ^^^ mask (Fin.ofNat 4 i)) :: Mask.apply mask (i + 1) bs

theorem Mask.apply_apply (mask : Mask) (i : Nat) (bs : List UInt8) :
    mask.apply i (mask.apply i bs) = bs := by
  induction bs generalizing i with
  | nil => rfl
  | cons b bs ih => rw [apply, apply, ih, UInt8.xor_assoc, UInt8.xor_self, UInt8.xor_zero]

@[simp] theorem Mask.length_apply (mask : Mask) (i : Nat) (bs : List UInt8) :
    (mask.apply i bs).length = bs.length := by
  induction bs generalizing i with
  | nil => rfl
  | cons b bs ih => rw [apply, List.length_cons, ih, List.length_cons]

structure Packet where
  flags : UInt8
  width : Width
  mask : Option Mask
  data : List UInt8

namespace Packet

variable (w : Packet)

def maskBytes : List UInt8 := w.mask.elim [] List.ofFn

def size : UInt8 := UInt8.ofNat (w.width.code w.data.length + if w.mask.isSome then 128 else 0)

def header : List UInt8 :=
  w.flags :: w.size :: (toBytes w.width.extra w.data.length ++ w.maskBytes)

def payload : List UInt8 := w.mask.elim w.data fun mask => mask.apply 0 w.data

def bytes : List UInt8 := w.header ++ w.payload

def frame : WsFrame := ⟨w.flags, w.data⟩

/-- The length can be written so, and is not more than a gigabyte. -/
structure Wf : Prop where
  fits : w.data.length < w.width.limit
  le : w.data.length ≤ 1024 * 1024 * 1024

theorem length_maskBytes : w.maskBytes.length = if w.mask.isSome then 4 else 0 := by
  cases hmask : w.mask with
  | none => simp [maskBytes, hmask]
  | some mask => simp [maskBytes, hmask]

theorem length_header : w.header.length = 2 + w.width.extra + w.maskBytes.length := by
  simp only [header, List.length_cons, List.length_append, length_toBytes]
  omega

theorem length_payload : w.payload.length = w.data.length := by
  cases hmask : w.mask with
  | none => simp [payload, hmask]
  | some mask => simp [payload, hmask]

end Packet

/-! ## The second byte -/

theorem size_masked {n : Nat} (h : n < 128) (masked : Bool) :
    (UInt8.ofNat (n + if masked then 128 else 0) &&& 0x7f).toNat = n ∧
      (UInt8.ofNat (n + if masked then 128 else 0) &&& 128 ≠ 0 ↔ masked = true) := by
  have hall : ∀ m < 128, ∀ masked : Bool,
      (UInt8.ofNat (m + if masked then 128 else 0) &&& 0x7f).toNat = m ∧
        (UInt8.ofNat (m + if masked then 128 else 0) &&& 128 ≠ 0 ↔ masked = true) := by
    decide +kernel
  exact hall n h masked

theorem size_eq (b : UInt8) : (b &&& 0x7f).toNat < 128 ∧
    b = UInt8.ofNat ((b &&& 0x7f).toNat + if decide (b &&& 128 ≠ 0) then 128 else 0) := by
  have hall : ∀ m < 256, (UInt8.ofNat m &&& 0x7f).toNat < 128 ∧ UInt8.ofNat m =
      UInt8.ofNat ((UInt8.ofNat m &&& 0x7f).toNat +
        if decide (UInt8.ofNat m &&& 128 ≠ 0) then 128 else 0) := by
    decide +kernel
  have hb := hall b.toNat b.toNat_lt
  rwa [UInt8.ofNat_toNat] at hb

/-! ## The length -/

theorem or_shiftLeft {a b i : Nat} (h : b < 2 ^ i) : b ||| a <<< i = a * 2 ^ i + b := by
  rw [Nat.or_comm, ← Nat.shiftLeft_add_eq_or_of_lt h, Nat.shiftLeft_eq]

theorem be32_eq (p0 p1 p2 p3 : UInt8) :
    (p3.toUInt32 ||| p2.toUInt32 <<< 8 ||| p1.toUInt32 <<< 16 ||| p0.toUInt32 <<< 24).toNat =
      ofBytes [p0, p1, p2, p3] := by
  have h0 : p0.toNat < 2 ^ 8 := p0.toNat_lt
  have h1 : p1.toNat < 2 ^ 8 := p1.toNat_lt
  have h2 : p2.toNat < 2 ^ 8 := p2.toNat_lt
  have h3 : p3.toNat < 2 ^ 8 := p3.toNat_lt
  have hfit : ∀ p : UInt8, ∀ n ≤ 24, p.toNat <<< n % 2 ^ 32 = p.toNat <<< n := by
    intro p n hn
    have hp : p.toNat < 2 ^ 8 := p.toNat_lt
    apply Nat.mod_eq_of_lt
    calc p.toNat <<< n = p.toNat * 2 ^ n := Nat.shiftLeft_eq _ _
      _ < 2 ^ 8 * 2 ^ n := Nat.mul_lt_mul_of_pos_right hp (Nat.two_pow_pos n)
      _ ≤ 2 ^ 8 * 2 ^ 24 := Nat.mul_le_mul_left _ (Nat.pow_le_pow_right (by decide) hn)
  simp only [UInt32.toNat_or, UInt32.toNat_shiftLeft, UInt8.toNat_toUInt32]
  simp only [UInt32.reduceToNat, Nat.reduceMod]
  rw [hfit p2 8 (by decide), hfit p1 16 (by decide), hfit p0 24 (by decide), or_shiftLeft h3,
    or_shiftLeft (a := p1.toNat) (i := 16) (by omega), or_shiftLeft (by omega)]
  simp only [ofBytes, List.foldl_cons, List.foldl_nil]
  omega

theorem be16_eq (b2 b3 : UInt8) :
    (b2.toUInt64 <<< 8 ||| b3.toUInt64).toNat = ofBytes [b2, b3] := by
  have h2 : b2.toNat < 2 ^ 8 := b2.toNat_lt
  have h3 : b3.toNat < 2 ^ 8 := b3.toNat_lt
  have hfit : b2.toNat <<< 8 % 2 ^ 64 = b2.toNat <<< 8 := by
    rw [Nat.shiftLeft_eq]
    omega
  simp only [UInt64.toNat_or, UInt64.toNat_shiftLeft, UInt8.toNat_toUInt64]
  simp only [UInt64.reduceToNat, Nat.reduceMod]
  rw [hfit, Nat.or_comm, or_shiftLeft h3]
  simp only [ofBytes, List.foldl_cons, List.foldl_nil]
  omega

theorem be64_eq (high low : UInt32) :
    (high.toUInt64 <<< 32 + low.toUInt64).toNat = 2 ^ 32 * high.toNat + low.toNat := by
  have hhigh : high.toNat < 2 ^ 32 := high.toNat_lt
  have hlow : low.toNat < 2 ^ 32 := low.toNat_lt
  simp only [UInt64.toNat_add, UInt64.toNat_shiftLeft, UInt32.toNat_toUInt64]
  simp only [UInt64.reduceToNat, Nat.reduceMod, Nat.shiftLeft_eq]
  omega

theorem wsLength_complete (b0 b1 flags : UInt8) {n maskLen : Nat} {more rest : List UInt8}
    (hn : n < 128) (hmore : more.length = (Width.ofCode n).extra) (hmask : maskLen ≤ rest.length) :
    wsLength (b0 :: b1 :: (more ++ rest)) flags n maskLen =
      some ⟨flags, 2 + (Width.ofCode n).extra + maskLen, (Width.ofCode n).value n more⟩ := by
  have hlen : (b0 :: b1 :: (more ++ rest)).length = more.length + rest.length + 2 := by simp
  rcases (by omega : n < 126 ∨ n = 126 ∨ n = 127) with hshort | rfl | rfl
  · have hcode : Width.ofCode n = .short := if_pos hshort
    rw [wsLength, if_pos ⟨hshort, by omega⟩, hcode]
    rfl
  · have htwo : more.length = 2 := hmore
    obtain ⟨b2, b3, rfl⟩ := List.length_eq_two.mp htwo
    rw [wsLength, if_neg (fun h => absurd h.1 (by decide)), if_pos ⟨rfl, by omega⟩]
    show some _ = some _
    rw [be16_eq]
    rfl
  · obtain ⟨x0, x1, x2, x3, x4, x5, x6, x7, rfl⟩ : ∃ x0 x1 x2 x3 x4 x5 x6 x7,
        more = [x0, x1, x2, x3, x4, x5, x6, x7] := by
      have height : more.length = 8 := hmore
      match more, height with
      | [x0, x1, x2, x3, x4, x5, x6, x7], _ => exact ⟨x0, x1, x2, x3, x4, x5, x6, x7, rfl⟩
    have hten : 10 + maskLen ≤ (b0 :: b1 :: ([x0, x1, x2, x3, x4, x5, x6, x7] ++ rest)).length := by
      simp only [List.length_cons, List.length_append, List.length_nil]
      omega
    rw [wsLength, if_neg (fun h => absurd h.1 (by decide)),
      if_neg (fun h => absurd h.1 (by decide)), if_pos hten]
    show some _ = some _
    rw [be64_eq, be32_eq, be32_eq]
    simp only [Width.value, Width.ofCode, ofBytes, List.foldl_cons, List.foldl_nil]
    congr 2
    simp
    omega

theorem wsLength_incomplete {buf : List UInt8} (flags : UInt8) {n maskLen : Nat} (hn : n < 128)
    (hlen : buf.length < 2 + (Width.ofCode n).extra + maskLen) :
    ∃ msg, wsLength buf flags n maskLen = some msg ∧
      (msg = ⟨flags, 0, 0⟩ ∨ buf.length < msg.headerLen + msg.dataLen) := by
  rcases (by omega : n < 126 ∨ n = 126 ∨ n = 127) with hshort | rfl | rfl
  · have hcode : Width.ofCode n = .short := if_pos hshort
    rw [hcode] at hlen
    by_cases hmask : maskLen ≤ buf.length
    · refine ⟨_, by rw [wsLength, if_pos ⟨hshort, hmask⟩]; rfl, .inr ?_⟩
      exact lt_of_lt_of_le hlen (Nat.le_add_right _ _)
    · refine ⟨⟨flags, 0, 0⟩, ?_, .inl rfl⟩
      rw [wsLength, if_neg (fun h => hmask h.2), if_neg (by omega), if_neg (by omega)]
      rfl
  · have hfew : buf.length < 4 + maskLen := hlen
    refine ⟨⟨flags, 0, 0⟩, ?_, .inl rfl⟩
    rw [wsLength, if_neg (by omega), if_neg (by omega), if_neg (by omega)]
    rfl
  · have hfew : buf.length < 10 + maskLen := hlen
    refine ⟨⟨flags, 0, 0⟩, ?_, .inl rfl⟩
    rw [wsLength, if_neg (by omega), if_neg (by omega), if_neg (by omega)]
    rfl

/-! ## The mask -/

theorem getElem?_ofFn_mask (mask : Mask) (i : Nat) :
    (List.ofFn mask)[i &&& 3]? = some (mask (Fin.ofNat 4 i)) := by
  have hmod : i &&& 3 = i % 4 := Nat.and_two_pow_sub_one_eq_mod i 2
  have hlt : i % 4 < 4 := Nat.mod_lt _ (by decide)
  rw [hmod, List.getElem?_ofFn, dif_pos hlt]
  rfl

/-- The loop on a buffer that it has gone through up to `rest`. -/
theorem xorLoop_append (mask : Mask) (before done rest more : List UInt8) :
    xorLoop (before.length + 4) before.length done.length rest.length
      (before ++ List.ofFn mask ++ done ++ rest ++ more) =
        some (before ++ List.ofFn mask ++ done ++ mask.apply done.length rest ++ more) := by
  induction rest generalizing done with
  | nil => rfl
  | cons b rest ih =>
      have hp : (before ++ List.ofFn mask ++ done).length = before.length + 4 + done.length := by
        simp only [List.length_append, List.length_ofFn]
      have hread : (before ++ List.ofFn mask ++ done ++ b :: rest ++ more)[
          before.length + 4 + done.length]? = some b := by
        rw [← hp, List.append_assoc _ (b :: rest), List.getElem?_append_right le_rfl,
          Nat.sub_self]
        rfl
      have hlt : (done.length &&& 3) < 4 := by
        rw [show done.length &&& 3 = done.length % 4 from Nat.and_two_pow_sub_one_eq_mod _ 2]
        exact Nat.mod_lt _ (by decide)
      have hmask : (before ++ List.ofFn mask ++ done ++ b :: rest ++ more)[
          before.length + (done.length &&& 3)]? = some (mask (Fin.ofNat 4 done.length)) := by
        rw [List.append_assoc, List.append_assoc, List.append_assoc,
          List.getElem?_append_right (Nat.le_add_right _ _), Nat.add_sub_cancel_left,
          List.getElem?_append_left (by rwa [List.length_ofFn])]
        exact getElem?_ofFn_mask mask done.length
      have hset : (before ++ List.ofFn mask ++ done ++ b :: rest ++ more).set
          (before.length + 4 + done.length) (b ^^^ mask (Fin.ofNat 4 done.length)) =
          before ++ List.ofFn mask ++ (done ++ [b ^^^ mask (Fin.ofNat 4 done.length)]) ++
            rest ++ more := by
        rw [← hp, List.append_assoc _ (b :: rest), List.set_append_right _ _ le_rfl, Nat.sub_self]
        simp
      have hlen : done.length + 1 =
          (done ++ [b ^^^ mask (Fin.ofNat 4 done.length)]).length := by simp
      rw [List.length_cons, xorLoop, hread, hmask]
      show xorLoop _ _ (done.length + 1) _ (List.set _ _ _) = _
      rw [hset, hlen, ih, Mask.apply]
      simp

/-! ## The frame -/

theorem wsHeader_complete (flags : UInt8) {size : UInt8} {more : List UInt8} (rest : List UInt8)
    (hmore : more.length = (Width.ofCode (size &&& 0x7f).toNat).extra)
    (hrest : (if size &&& 128 ≠ 0 then 4 else 0) ≤ rest.length) :
    wsHeader (flags :: size :: (more ++ rest)) =
      some (⟨flags,
        2 + (Width.ofCode (size &&& 0x7f).toNat).extra + (if size &&& 128 ≠ 0 then 4 else 0),
        (Width.ofCode (size &&& 0x7f).toNat).value (size &&& 0x7f).toNat more⟩,
        if size &&& 128 ≠ 0 then 4 else 0) := by
  have hread := wsLength_complete flags size flags (size_eq size).1 hmore hrest
  rw [wsHeader, if_pos (by simp)]
  show (wsLength _ _ _ _).bind _ = _
  rw [hread]
  rfl

/-- `ws_process` takes a whole frame off the buffer and unmasks it. -/
theorem wsProcess_bytes {w : Packet} (h : w.Wf) (rest : List UInt8) :
    wsProcess (w.bytes ++ rest) =
      some (w.bytes.length, ⟨w.flags, w.header.length, w.data.length⟩,
        w.header ++ w.data ++ rest) := by
  obtain ⟨hcode, hmasked⟩ := size_masked (Width.code_lt h.fits) w.mask.isSome
  have hwidth : Width.ofCode (w.size &&& 0x7f).toNat = w.width := by
    rw [Packet.size, hcode, Width.ofCode_code h.fits]
  have hmaskLen : (if w.size &&& 128 ≠ 0 then 4 else 0) = w.maskBytes.length := by
    rw [Packet.length_maskBytes, Packet.size]
    simp only [hmasked]
  have hbuf : w.bytes ++ rest = w.flags :: w.size ::
      (toBytes w.width.extra w.data.length ++ (w.maskBytes ++ w.payload ++ rest)) := by
    simp [Packet.bytes, Packet.header]
  have hheader : wsHeader (w.bytes ++ rest) =
      some (⟨w.flags, w.header.length, w.data.length⟩, w.maskBytes.length) := by
    rw [hbuf, wsHeader_complete _ _ (by rw [hwidth, length_toBytes])
      (by rw [hmaskLen]; simp only [List.length_append]; omega)]
    rw [hmaskLen, hwidth, Packet.length_header]
    congr 3
    rw [Packet.size, hcode]
    exact Width.value_toBytes h.fits
  have hlen : w.bytes.length = w.header.length + w.data.length := by
    rw [Packet.bytes, List.length_append, Packet.length_payload]
  rw [wsProcess, hheader]
  show (if _ then _ else _) = _
  dsimp only
  rw [if_neg (by have := h.le; omega),
    if_neg (by rw [List.length_append, hlen]; omega)]
  cases hmask : w.mask with
  | none =>
      rw [if_neg (by simp [Packet.maskBytes, hmask]), hlen]
      simp [Packet.bytes, Packet.payload, hmask]
  | some mask =>
      have hmaskBytes : w.maskBytes = List.ofFn mask := by simp [Packet.maskBytes, hmask]
      have hpayload : w.payload = mask.apply 0 w.data := by simp [Packet.payload, hmask]
      have hsplit : w.header =
          (w.flags :: w.size :: toBytes w.width.extra w.data.length) ++ List.ofFn mask := by
        simp [Packet.header, hmaskBytes]
      have hxor := xorLoop_append mask
        (w.flags :: w.size :: toBytes w.width.extra w.data.length) [] (mask.apply 0 w.data) rest
      have hpos : (w.flags :: w.size :: toBytes w.width.extra w.data.length).length + 4 =
          w.header.length := by
        rw [hsplit, List.length_append, List.length_ofFn]
      rw [← hsplit, hpos, List.append_nil, List.length_nil, Mask.length_apply,
        Mask.apply_apply, ← hpayload] at hxor
      rw [hmaskBytes, List.length_ofFn, if_pos (by decide), ← hpos, Nat.add_sub_cancel, hpos,
        Packet.bytes]
      show (xorLoop _ _ _ _ _).bind _ = _
      rw [hxor, ← Packet.bytes, hlen]
      rfl

theorem exists_mask {bs : List UInt8} (h : bs.length = 4) :
    ∃ mask : Mask, List.ofFn mask = bs := by
  match bs, h with
  | [m0, m1, m2, m3], _ => exact ⟨[m0, m1, m2, m3].get, rfl⟩

theorem exists_split {a b : Nat} {bs : List UInt8} (h : a + b ≤ bs.length) :
    ∃ more mask rest, bs = more ++ mask ++ rest ∧ more.length = a ∧ mask.length = b := by
  refine ⟨bs.take a, (bs.drop a).take b, (bs.drop a).drop b, ?_, ?_, ?_⟩
  · rw [List.append_assoc, List.take_append_drop, List.take_append_drop]
  · rw [List.length_take]
    omega
  · rw [List.length_take, List.length_drop]
    omega

/-- A buffer whose first bytes announce a frame that is all there begins with one. -/
theorem exists_packet {flags size : UInt8} {more mask data : List UInt8} (rest : List UInt8)
    (hmore : more.length = (Width.ofCode (size &&& 0x7f).toNat).extra)
    (hmask : mask.length = if size &&& 128 ≠ 0 then 4 else 0)
    (hdata : data.length = (Width.ofCode (size &&& 0x7f).toNat).value (size &&& 0x7f).toNat more)
    (hle : data.length ≤ 1024 * 1024 * 1024) :
    ∃ w : Packet, w.Wf ∧ flags :: size :: (more ++ mask ++ data ++ rest) = w.bytes ++ rest := by
  obtain ⟨hcode, hsize⟩ := size_eq size
  obtain ⟨hfits, hcode', hbytes⟩ := Width.toBytes_value hcode hmore
  rw [← hdata] at hfits hcode' hbytes
  -- With no mask the payload is the data; otherwise it is unmasked once more.
  by_cases hmasked : size &&& 128 ≠ 0
  · rw [if_pos hmasked] at hmask
    obtain ⟨m, rfl⟩ := exists_mask hmask
    have hlen : (m.apply 0 data).length = data.length := m.length_apply 0 data
    let w : Packet := ⟨flags, Width.ofCode (size &&& 0x7f).toNat, some m, m.apply 0 data⟩
    have hw : w.size = size := by
      rw [if_pos (decide_eq_true hmasked)] at hsize
      show UInt8.ofNat (Width.code _ (m.apply 0 data).length + 128) = size
      rw [hlen, hcode', ← hsize]
    have hpayload : w.payload = data := m.apply_apply 0 data
    have hextra : toBytes w.width.extra w.data.length = more := by
      rw [← hbytes, ← hlen]
    refine ⟨w, ⟨by rwa [hlen], by rwa [hlen]⟩, ?_⟩
    rw [Packet.bytes, Packet.header, hw, hpayload, hextra, Packet.maskBytes]
    simp [w]
  · rw [if_neg hmasked] at hmask
    obtain rfl := List.eq_nil_of_length_eq_zero hmask
    let w : Packet := ⟨flags, Width.ofCode (size &&& 0x7f).toNat, none, data⟩
    have hw : w.size = size := by
      rw [if_neg (by rw [decide_eq_true_eq]; exact hmasked)] at hsize
      show UInt8.ofNat (Width.code _ data.length + 0) = size
      rw [hcode', ← hsize]
    refine ⟨w, ⟨hfits, hle⟩, ?_⟩
    rw [Packet.bytes, Packet.header, hw, hbytes, Packet.maskBytes, Packet.payload]
    simp [w]

theorem wsProcess_of_zero {buf : List UInt8} {flags : UInt8} {maskLen : Nat}
    (h : wsHeader buf = some (⟨flags, 0, 0⟩, maskLen)) :
    wsProcess buf = some (0, ⟨flags, 0, 0⟩, buf) := by
  rw [wsProcess, h]
  show (if 0 < maskLen then _ else _) = _
  split
  · rfl
  · rfl

theorem wsProcess_of_lt {buf : List UInt8} {msg : WsMsg} {maskLen : Nat}
    (h : wsHeader buf = some (msg, maskLen))
    (hlt : 1024 * 1024 * 1024 < msg.dataLen ∨ buf.length < msg.headerLen + msg.dataLen) :
    wsProcess buf = some (0, msg, buf) := by
  rw [wsProcess, h]
  show (if _ then _ else _) = _
  split
  · rfl
  · next hle =>
      rw [if_pos (hlt.resolve_left hle)]
      rfl

/-- Either a frame stands at the front of the buffer or `ws_process` waits for more. -/
theorem wsProcess_cases (buf : List UInt8) :
    (∃ (w : Packet) (rest : List UInt8), w.Wf ∧ buf = w.bytes ++ rest) ∨
      ∃ msg, wsProcess buf = some (0, msg, buf) := by
  match buf with
  | [] =>
      have hheader : wsHeader [] = some (⟨0, 0, 0⟩, 0) := rfl
      exact .inr ⟨_, wsProcess_of_zero hheader⟩
  | [b] =>
      have hheader : wsHeader [b] = some (⟨0, 0, 0⟩, 0) := rfl
      exact .inr ⟨_, wsProcess_of_zero hheader⟩
  | flags :: size :: tail =>
      have hn := (size_eq size).1
      by_cases hlen : tail.length <
          (Width.ofCode (size &&& 0x7f).toNat).extra + if size &&& 128 ≠ 0 then 4 else 0
      · right
        have hfew : (flags :: size :: tail).length <
            2 + (Width.ofCode (size &&& 0x7f).toNat).extra + if size &&& 128 ≠ 0 then 4 else 0 := by
          simp only [List.length_cons]
          omega
        obtain ⟨msg, hread, hmsg⟩ := wsLength_incomplete flags hn hfew
        have hheader : wsHeader (flags :: size :: tail) =
            some (msg, if size &&& 128 ≠ 0 then 4 else 0) := by
          rw [wsHeader, if_pos (by simp)]
          show (wsLength _ _ _ _).bind _ = _
          rw [hread]
          rfl
        rcases hmsg with rfl | hlt
        · exact ⟨_, wsProcess_of_zero hheader⟩
        · exact ⟨_, wsProcess_of_lt hheader (.inr hlt)⟩
      · have hall : (Width.ofCode (size &&& 0x7f).toNat).extra +
            (if size &&& 128 ≠ 0 then 4 else 0) ≤ tail.length := Nat.le_of_not_lt hlen
        obtain ⟨more, mask, rest, rfl, hmore, hmask⟩ := exists_split hall
        have hheader := wsHeader_complete flags (mask ++ rest) hmore
          (by rw [List.length_append]; omega)
        rw [← List.append_assoc] at hheader
        by_cases hle : (Width.ofCode (size &&& 0x7f).toNat).value (size &&& 0x7f).toNat more ≤
            rest.length
        · by_cases hbig : 1024 * 1024 * 1024 <
              (Width.ofCode (size &&& 0x7f).toNat).value (size &&& 0x7f).toNat more
          · exact .inr ⟨_, wsProcess_of_lt hheader (.inl hbig)⟩
          · left
            have hdata := List.length_take_of_le hle
            obtain ⟨w, hw, hbytes⟩ := exists_packet (rest.drop _) hmore hmask hdata (by omega)
            refine ⟨w, _, hw, Eq.trans ?_ hbytes⟩
            rw [List.append_assoc _ (List.take _ _), List.take_append_drop]
        · refine .inr ⟨_, wsProcess_of_lt hheader (.inr ?_)⟩
          simp only [List.length_cons, List.length_append]
          omega

/-! ## The decoder -/

def next (buf : List UInt8) : Option (WsFrame × Nat) :=
  match wsProcess buf with
  | some (n + 1, msg, buf) => some (⟨msg.flags, (buf.drop msg.headerLen).take msg.dataLen⟩, n + 1)
  | _ => none

theorem Packet.pos_bytes (w : Packet) : 0 < w.bytes.length := by
  rw [Packet.bytes, List.length_append, Packet.length_header]
  omega

theorem next_bytes {w : Packet} (h : w.Wf) (rest : List UInt8) :
    next (w.bytes ++ rest) = some (w.frame, w.bytes.length) := by
  obtain ⟨n, hn⟩ := Nat.exists_eq_succ_of_ne_zero w.pos_bytes.ne'
  have hprocess := wsProcess_bytes h rest
  rw [hn] at hprocess
  rw [next, hprocess, hn]
  simp [Packet.frame, List.append_assoc]

theorem next_eq_some_iff {buf : List UInt8} {frame : WsFrame} {n : Nat} :
    next buf = some (frame, n) ↔
      ∃ (w : Packet) (rest : List UInt8), w.Wf ∧ buf = w.bytes ++ rest ∧ frame = w.frame ∧
        n = w.bytes.length := by
  constructor
  · intro h
    rcases wsProcess_cases buf with ⟨w, rest, hw, rfl⟩ | ⟨msg, hzero⟩
    · rw [next_bytes hw] at h
      cases h
      exact ⟨w, rest, hw, rfl, rfl, rfl⟩
    · rw [next, hzero] at h
      cases h
  · rintro ⟨w, rest, hw, rfl, rfl, rfl⟩
    exact next_bytes hw rest

def decoder : Decoder UInt8 WsFrame where
  next := next
  pos h := by
    obtain ⟨w, rest, -, -, -, rfl⟩ := next_eq_some_iff.mp h
    exact w.pos_bytes
  le h := by
    obtain ⟨w, rest, -, rfl, -, rfl⟩ := next_eq_some_iff.mp h
    rw [List.length_append]
    exact Nat.le_add_right _ _
  upto h more := by
    obtain ⟨w, rest, hw, rfl, rfl, rfl⟩ := next_eq_some_iff.mp h
    exact next_eq_some_iff.mpr ⟨w, more, hw, by rw [List.take_left], rfl, rfl⟩

/-- `ws_process` reads inside the buffer only.  It finds a frame exactly when one stands at the
front, and then it unmasks the payload and changes nothing else; otherwise it changes nothing. -/
theorem wsProcess_spec (buf : List UInt8) :
    ∃ n msg buf', wsProcess buf = some (n, msg, buf') ∧
      (0 < n ↔ ∃ (w : Packet) (rest : List UInt8), w.Wf ∧ buf = w.bytes ++ rest) ∧
      (n = 0 → buf' = buf) ∧
      ∀ (w : Packet) (rest : List UInt8), w.Wf → buf = w.bytes ++ rest →
        n = w.bytes.length ∧ msg = ⟨w.flags, w.header.length, w.data.length⟩ ∧
          buf' = w.header ++ w.data ++ rest := by
  rcases wsProcess_cases buf with ⟨w, rest, hw, rfl⟩ | ⟨msg, hzero⟩
  · refine ⟨_, _, _, wsProcess_bytes hw rest, ?_, ?_, ?_⟩
    · exact ⟨fun _ => ⟨w, rest, hw, rfl⟩, fun _ => w.pos_bytes⟩
    · exact fun h => absurd h w.pos_bytes.ne'
    · intro w' rest' hw' hbuf
      have hsame := wsProcess_bytes hw' rest'
      rw [← hbuf, wsProcess_bytes hw rest] at hsame
      simpa using hsame
  · have hnot : ∀ (w : Packet) (rest : List UInt8), w.Wf → buf ≠ w.bytes ++ rest := by
      rintro w rest hw rfl
      rw [wsProcess_bytes hw rest] at hzero
      have hlen : w.bytes.length = 0 := by simpa using congrArg (Option.map Prod.fst) hzero
      exact absurd hlen w.pos_bytes.ne'
    refine ⟨0, msg, buf, hzero, ⟨fun h => absurd h (lt_irrefl 0), ?_⟩, fun _ => rfl, ?_⟩
    · rintro ⟨w, rest, hw, hbuf⟩
      exact absurd hbuf (hnot w rest hw)
    · exact fun w rest hw hbuf => absurd hbuf (hnot w rest hw)

end Mgws.Ws
