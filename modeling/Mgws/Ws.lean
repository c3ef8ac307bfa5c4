import Mgws.Lib.Bytes
import Mgws.Mongoose
/-!
# Websocket frames as bytes

`ws_process` and `mg_ws_cb`, which read frames out of the receive buffer of a connection, and
`mg_ws_send`, which writes one into a send buffer.  A read outside the buffer is `none`.
The size types are 64 bits wide; what `mg_random` returns is a parameter.
-/

namespace Mgws.Ws

open Lib Program

structure WsMsg where
  flags : UInt8
  headerLen : Nat
  dataLen : Nat
  deriving DecidableEq, Repr

def WsMsg.final (msg : WsMsg) : UInt8 := msg.flags &&& 128

def WsMsg.op (msg : WsMsg) : UInt8 := msg.flags &&& 15

def be32 (buf : List UInt8) (ofs : Nat) : Option UInt32 := do
  let p0 ← buf[ofs]?
  let p1 ← buf[ofs + 1]?
  let p2 ← buf[ofs + 2]?
  let p3 ← buf[ofs + 3]?
  pure (p3.toUInt32 ||| p2.toUInt32 <<< 8 ||| p1.toUInt32 <<< 16 ||| p0.toUInt32 <<< 24)

/-- The loop `p[i] ^= m[i & 3]` with `n` bytes to go; `p` and `m` are positions in `buf`. -/
def xorLoop (p m i : Nat) : Nat → List UInt8 → Option (List UInt8)
  | 0, buf => some buf
  | n + 1, buf => do
      let x ← buf[p + i]?
      let y ← buf[m + (i &&& 3)]?
      xorLoop p m (i + 1) n (buf.set (p + i) (x ^^^ y))

/-- The two lengths, from the one in the second byte.  Both stay 0 when the header is not
complete. -/
def wsLength (buf : List UInt8) (flags : UInt8) (n maskLen : Nat) : Option WsMsg :=
  if n < 126 ∧ maskLen ≤ buf.length then
    pure ⟨flags, 2 + maskLen, n⟩
  else if n = 126 ∧ 4 + maskLen ≤ buf.length then do
    let b2 ← buf[2]?
    let b3 ← buf[3]?
    pure ⟨flags, 4 + maskLen, (b2.toUInt64 <<< 8 ||| b3.toUInt64).toNat⟩
  else if 10 + maskLen ≤ buf.length then do
    let high ← be32 buf 2
    let low ← be32 buf 6
    pure ⟨flags, 10 + maskLen, (high.toUInt64 <<< 32 + low.toUInt64).toNat⟩
  else
    pure ⟨flags, 0, 0⟩

def wsHeader (buf : List UInt8) : Option (WsMsg × Nat) :=
  if 2 ≤ buf.length then do
    let flags ← buf[0]?
    let b1 ← buf[1]?
    let maskLen := if b1 &&& 128 ≠ 0 then 4 else 0
    let msg ← wsLength buf flags (b1 &&& 0x7f).toNat maskLen
    pure (msg, maskLen)
  else
    pure (⟨0, 0, 0⟩, 0)

/-- The number of bytes of the frame at the front of the buffer, or 0, and the buffer with the
payload unmasked. -/
def wsProcess (buf : List UInt8) : Option (Nat × WsMsg × List UInt8) := do
  let (msg, maskLen) ← wsHeader buf
  if 1024 * 1024 * 1024 < msg.dataLen then
    pure (0, msg, buf)
  else if buf.length < msg.headerLen + msg.dataLen then
    pure (0, msg, buf)
  else if 0 < maskLen then do
    let buf ← xorLoop msg.headerLen (msg.headerLen - maskLen) 0 msg.dataLen buf
    pure (msg.headerLen + msg.dataLen, msg, buf)
  else
    pure (msg.headerLen + msg.dataLen, msg, buf)

abbrev Mask := Fin 4 → UInt8

def mkhdr (len : Nat) (op : UInt8) (isClient : Bool) (random : Mask) : List UInt8 :=
  let size : UInt8 × List UInt8 :=
    if len < 126 then (UInt8.ofNat len, [])
    else if len < 65536 then (126, toBytes 2 len)
    else (127, toBytes 4 (len >>> 32) ++ toBytes 4 (len &&& 0xffffffff))
  if isClient then
    (op ||| 128) :: (size.1 ||| (1 : UInt8) <<< 7) :: size.2 ++ List.ofFn random
  else
    (op ||| 128) :: size.1 :: size.2

/-- `mg_ws_mask`, on the last `len` bytes of the send buffer. -/
def mgWsMask (isClient : Bool) (send : List UInt8) (len : Nat) : Option (List UInt8) :=
  if isClient then xorLoop (send.length - len) (send.length - len - 4) 0 len send
  else some send

def mgWsSend (isClient : Bool) (random : Mask) (send buf : List UInt8) (op : UInt8) :
    Option (List UInt8) :=
  mgWsMask isClient (send ++ mkhdr buf.length op isClient random ++ buf) buf.length

def mgIobufDel (buf : List UInt8) (ofs len : Nat) : List UInt8 :=
  let ofs := if buf.length < ofs then buf.length else ofs
  let len := if buf.length < ofs + len then buf.length - ofs else len
  buf.take ofs ++ buf.drop (ofs + len)

/-- `c->recv` and the offset that `mg_ws_cb` keeps in `c->pfn_data`. -/
structure Recv where
  buf : List UInt8
  ofs : Nat
  deriving DecidableEq, Repr

def Recv.kept (r : Recv) : List UInt8 := r.buf.take r.ofs

def Recv.rest (r : Recv) : List UInt8 := r.buf.drop r.ofs

def Recv.frame (r : Recv) (msg : WsMsg) : WsFrame where
  flags := msg.flags
  data := (r.rest.drop msg.headerLen).take msg.dataLen

/-- Handle fragmented frames: strip header, keep in `c->recv`. -/
def Recv.strip (r : Recv) (msg : WsMsg) : Recv :=
  if msg.op ≠ 0 then
    -- First frame: its first byte stays.
    ⟨mgIobufDel r.buf (r.ofs + 1) (msg.headerLen - 1), r.ofs + 1 + msg.dataLen⟩
  else
    ⟨mgIobufDel r.buf r.ofs msg.headerLen, r.ofs + msg.dataLen⟩

def Recv.next (r : Recv) (msg : WsMsg) : Recv :=
  if msg.final ≠ 0 ∧ msg.op ≠ 0 then
    { r with buf := mgIobufDel r.buf r.ofs (msg.headerLen + msg.dataLen) }
  else if msg.final ≠ 0 then
    ⟨mgIobufDel (r.strip msg).buf 0 (r.strip msg).ofs, 0⟩
  else r.strip msg

/-! ## The loop ends -/

theorem mgIobufDel_of_le {buf : List UInt8} {ofs len : Nat} (h : ofs + len ≤ buf.length) :
    mgIobufDel buf ofs len = buf.take ofs ++ buf.drop (ofs + len) := by
  have hofs : ¬buf.length < ofs := by omega
  have hlen : ¬buf.length < ofs + len := by omega
  simp only [mgIobufDel, if_neg hofs, if_neg hlen]

theorem length_mgIobufDel {buf : List UInt8} {ofs len : Nat} (h : ofs + len ≤ buf.length) :
    (mgIobufDel buf ofs len).length = buf.length - len := by
  rw [mgIobufDel_of_le h, List.length_append, List.length_take, List.length_drop]
  omega

theorem drop_mgIobufDel {buf : List UInt8} {ofs len n : Nat} (h : ofs + len ≤ buf.length)
    (hn : ofs ≤ n) : (mgIobufDel buf ofs len).drop n = buf.drop (n + len) := by
  rw [mgIobufDel_of_le h, List.drop_append, List.length_take, List.drop_drop]
  have hdone : (buf.take ofs).drop n = [] := by
    rw [List.drop_eq_nil_iff, List.length_take]
    omega
  rw [hdone, List.nil_append]
  congr 1
  omega

namespace Recv

variable {r : Recv} {msg : WsMsg}

structure Holds (r : Recv) (msg : WsMsg) : Prop where
  le : r.ofs + msg.headerLen + msg.dataLen ≤ r.buf.length
  header : 0 < msg.headerLen

theorem rest_strip (h : r.Holds msg) :
    (r.strip msg).rest = r.rest.drop (msg.headerLen + msg.dataLen) := by
  have hle := h.le
  have hheader := h.header
  unfold strip rest
  split
  · dsimp only
    rw [drop_mgIobufDel (by omega) (by omega), List.drop_drop]
    congr 1
    omega
  · dsimp only
    rw [drop_mgIobufDel (by omega) (by omega), List.drop_drop]
    congr 1
    omega

theorem ofs_strip_le (h : r.Holds msg) : (r.strip msg).ofs ≤ (r.strip msg).buf.length := by
  have hle := h.le
  have hheader := h.header
  unfold strip
  split
  · dsimp only
    rw [length_mgIobufDel (by omega)]
    omega
  · dsimp only
    rw [length_mgIobufDel (by omega)]
    omega

/-- However the frame is taken from the buffer, what comes behind it stays. -/
theorem rest_next (h : r.Holds msg) :
    (r.next msg).rest = r.rest.drop (msg.headerLen + msg.dataLen) := by
  have hle := h.le
  unfold next
  split
  · unfold rest
    dsimp only
    rw [drop_mgIobufDel (by omega) le_rfl, List.drop_drop]
  · split
    · rw [← rest_strip h, rest, drop_mgIobufDel (by simpa using ofs_strip_le h) (Nat.zero_le _),
        Nat.zero_add]
      rfl
    · exact rest_strip h

end Recv

theorem xorLoop_length {p m i n : Nat} {buf buf' : List UInt8}
    (h : xorLoop p m i n buf = some buf') : buf'.length = buf.length := by
  induction n generalizing i buf with
  | zero =>
      cases h
      rfl
  | succ n ih =>
      simp only [xorLoop, Option.bind_eq_bind, Option.bind_eq_some_iff] at h
      obtain ⟨x, -, y, -, hrest⟩ := h
      rw [ih hrest, List.length_set]

theorem wsLength_pos {buf : List UInt8} {flags : UInt8} {n maskLen : Nat} {msg : WsMsg}
    (h : wsLength buf flags n maskLen = some msg) : msg.headerLen = 0 → msg.dataLen = 0 := by
  intro hzero
  unfold wsLength at h
  split at h
  · cases h
    simp at hzero
  · split at h
    · simp only [Option.bind_eq_bind, Option.bind_eq_some_iff] at h
      obtain ⟨b2, -, b3, -, h⟩ := h
      cases h
      simp at hzero
    · split at h
      · simp only [Option.bind_eq_bind, Option.bind_eq_some_iff] at h
        obtain ⟨high, -, low, -, h⟩ := h
        cases h
        simp at hzero
      · cases h
        rfl

theorem wsHeader_pos {buf : List UInt8} {msg : WsMsg} {maskLen : Nat}
    (h : wsHeader buf = some (msg, maskLen)) : msg.headerLen = 0 → msg.dataLen = 0 := by
  unfold wsHeader at h
  split at h
  · simp only [Option.bind_eq_bind, Option.bind_eq_some_iff] at h
    obtain ⟨flags, -, b1, -, msg', hlength, h⟩ := h
    cases h
    exact wsLength_pos hlength
  · cases h
    exact fun _ => rfl

theorem wsProcess_le {buf buf' : List UInt8} {n : Nat} {msg : WsMsg}
    (h : wsProcess buf = some (n + 1, msg, buf')) :
    0 < msg.headerLen ∧ n + 1 = msg.headerLen + msg.dataLen ∧ n + 1 ≤ buf.length ∧
      buf'.length = buf.length := by
  simp only [wsProcess, Option.bind_eq_bind, Option.bind_eq_some_iff] at h
  obtain ⟨⟨msg', maskLen⟩, hheader, h⟩ := h
  have hpos := wsHeader_pos hheader
  dsimp only at h
  split at h
  · cases h
  · split at h
    · cases h
    · next hfits =>
        split at h
        · simp only [Option.bind_eq_some_iff] at h
          obtain ⟨unmasked, hxor, h⟩ := h
          have hlen := xorLoop_length hxor
          simp only [Option.pure_def, Option.some.injEq, Prod.mk.injEq] at h
          obtain ⟨hn, rfl, rfl⟩ := h
          omega
        · simp only [Option.pure_def, Option.some.injEq, Prod.mk.injEq] at h
          obtain ⟨hn, rfl, rfl⟩ := h
          omega

def setPfnData (k : ConnPtr) (r : Recv) : Cpp Unit :=
  setConn k fun c => { c with frag := r.kept }

/-- The body of the loop in `mg_ws_cb`, on a buffer whose payload is unmasked. -/
def body [Nlohmann] (k : ConnPtr) (r : Recv) (msg : WsMsg) : Cpp Unit := do
  wsOp k (r.frame msg)
  if msg.final = 0 ∨ msg.op = 0 then
    setPfnData k (r.strip msg)
  if msg.final ≠ 0 ∧ msg.op = 0 then do
    mgCall k (.wsMsg (fragMessage (r.strip msg).kept))
    setPfnData k (r.next msg)

def mgWsCb [Nlohmann] (k : ConnPtr) (r : Recv) : Cpp Recv :=
  match h : wsProcess r.rest with
  | some (n + 1, msg, rest) => do
      have : ((⟨r.kept ++ rest, r.ofs⟩ : Recv).next msg).rest.length < r.rest.length := by
        obtain ⟨hheader, hn, hle, hlen⟩ := wsProcess_le h
        have hofs : r.ofs ≤ r.buf.length := by
          by_contra hlong
          rw [Recv.rest, List.drop_eq_nil_of_le (by omega)] at hle
          simp at hle
        have hkept : r.kept.length = r.ofs := by
          rw [Recv.kept, List.length_take, Nat.min_eq_left hofs]
        have hholds : (⟨r.kept ++ rest, r.ofs⟩ : Recv).Holds msg :=
          ⟨by simp only [List.length_append, hkept, hlen]; omega, hheader⟩
        have hrest : (⟨r.kept ++ rest, r.ofs⟩ : Recv).rest = rest := by
          rw [Recv.rest, List.drop_left' hkept]
        rw [Recv.rest_next hholds, hrest, List.length_drop, hlen]
        omega
      body k ⟨r.kept ++ rest, r.ofs⟩ msg
      mgWsCb k ((⟨r.kept ++ rest, r.ofs⟩ : Recv).next msg)
  | _ => pure r
termination_by r.rest.length

/-- The reads on a connection one after the other; each puts a piece behind what the receive
buffer holds. -/
def reads [Nlohmann] (k : ConnPtr) (r : Recv) (pieces : List (List UInt8)) : Cpp Recv :=
  pieces.foldlM (fun r piece => mgWsCb k { r with buf := r.buf ++ piece }) r

end Mgws.Ws
