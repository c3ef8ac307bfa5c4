import Mgws.Proofs.Grammar
/-!
# Frames over a stream

What `mg_ws_send` writes is what `ws_process` reads, in whatever pieces the stream of bytes
arrives.
-/

namespace Mgws.Ws

open Lib

/-- A message that goes out in one frame, with the mask that a client would draw for it. -/
structure Outgoing where
  random : Mask
  data : List UInt8
  op : UInt8

namespace Outgoing

variable (m : Outgoing)

def width : Width :=
  if m.data.length < 126 then .short else if m.data.length < 65536 then .medium else .long

def packet (isClient : Bool) : Packet where
  flags := m.op ||| 128
  width := m.width
  mask := if isClient then some m.random else none
  data := m.data

theorem fits (h : m.data.length < 2 ^ 64) : m.data.length < m.width.limit := by
  unfold width
  split
  · next hshort => exact hshort
  · split
    · next hmedium => exact hmedium
    · exact h

theorem packet_wf (isClient : Bool) (h : m.data.length ≤ 1024 * 1024 * 1024) :
    (m.packet isClient).Wf :=
  ⟨m.fits (by omega), h⟩

end Outgoing

theorem or_128 {n : Nat} (h : n < 128) :
    UInt8.ofNat n ||| (1 : UInt8) <<< 7 = UInt8.ofNat (n + 128) := by
  have hall : ∀ m < 128, UInt8.ofNat m ||| (1 : UInt8) <<< 7 = UInt8.ofNat (m + 128) := by
    decide +kernel
  exact hall n h

theorem toBytes_halves (n : Nat) :
    toBytes 4 (n >>> 32) ++ toBytes 4 (n &&& 0xffffffff) = toBytes 8 n := by
  have hlow : n &&& 0xffffffff = n % 256 ^ 4 := Nat.and_two_pow_sub_one_eq_mod n 32
  have hhigh : n >>> 32 = n / 256 ^ 4 := Nat.shiftRight_eq_div_pow n 32
  rw [hlow, hhigh, toBytes_mod, ← toBytes_append]

/-- `mkhdr` writes the header of a frame. -/
theorem mkhdr_eq (m : Outgoing) (isClient : Bool) (h : m.data.length ≤ 1024 * 1024 * 1024) :
    mkhdr m.data.length m.op isClient m.random = (m.packet isClient).header := by
  have hsize : (if m.data.length < 126 then (UInt8.ofNat m.data.length, [])
      else if m.data.length < 65536 then (126, toBytes 2 m.data.length)
      else (127, toBytes 4 (m.data.length >>> 32) ++
        toBytes 4 (m.data.length &&& 0xffffffff)) : UInt8 × List UInt8) =
      (UInt8.ofNat (m.width.code m.data.length), toBytes m.width.extra m.data.length) := by
    unfold Outgoing.width
    split
    · rfl
    · split
      · rfl
      · rw [toBytes_halves]
        rfl
  have hcode : m.width.code m.data.length < 128 := Width.code_lt (m.fits (by omega))
  rw [mkhdr, hsize]
  cases isClient with
  | false => simp [Packet.header, Packet.size, Packet.maskBytes, Outgoing.packet]
  | true =>
      simp only [if_true, or_128 hcode]
      simp [Packet.header, Packet.size, Packet.maskBytes, Outgoing.packet]

theorem mgWsSend_eq (m : Outgoing) (isClient : Bool) (send : List UInt8)
    (h : m.data.length ≤ 1024 * 1024 * 1024) :
    mgWsSend isClient m.random send m.data m.op = some (send ++ (m.packet isClient).bytes) := by
  rw [mgWsSend, mkhdr_eq m isClient h, mgWsMask, Packet.bytes]
  cases isClient with
  | false => simp [Packet.payload, Outgoing.packet]
  | true =>
      let before := send ++ (m.op ||| 128) :: (m.packet true).size ::
        toBytes m.width.extra m.data.length
      have hheader : send ++ (m.packet true).header = before ++ List.ofFn m.random := by
        simp [before, Packet.header, Packet.maskBytes, Outgoing.packet]
      have hpos : (send ++ (m.packet true).header ++ m.data).length - m.data.length =
          before.length + 4 := by
        rw [List.length_append, Nat.add_sub_cancel, hheader, List.length_append, List.length_ofFn]
      have hxor := xorLoop_append m.random before [] m.data []
      rw [List.append_nil, List.append_nil, List.append_nil, ← hheader] at hxor
      rw [if_pos rfl, hpos, Nat.add_sub_cancel]
      exact hxor.trans (by simp [Packet.payload, Outgoing.packet])

def sendAll (isClient : Bool) (send : List UInt8) (ms : List Outgoing) : Option (List UInt8) :=
  ms.foldlM (fun send m => mgWsSend isClient m.random send m.data m.op) send

theorem sendAll_eq {ms : List Outgoing} (isClient : Bool) (send : List UInt8)
    (h : ∀ m ∈ ms, m.data.length ≤ 1024 * 1024 * 1024) :
    sendAll isClient send ms = some (send ++ ms.flatMap fun m => (m.packet isClient).bytes) := by
  induction ms generalizing send with
  | nil => rw [List.flatMap_nil, List.append_nil]; rfl
  | cons m ms ih =>
      rw [sendAll, List.foldlM_cons, mgWsSend_eq m isClient send (h m (by simp)),
        List.flatMap_cons, ← List.append_assoc]
      exact ih _ fun m hm => h m (by simp [hm])

/-- Whatever messages are sent, with whatever masks, and in whatever pieces the bytes arrive: the
reader finds the same messages in the same order, and nothing is left over. -/
theorem feed_sendAll (isClient : Bool) (ms : List Outgoing) (pieces : List (List UInt8))
    (h : ∀ m ∈ ms, m.data.length ≤ 1024 * 1024 * 1024)
    (hsend : sendAll isClient [] ms = some pieces.flatten) :
    decoder.feed [] pieces = (ms.map fun m => ⟨m.op ||| 128, m.data⟩, []) := by
  rw [sendAll_eq isClient [] h, List.nil_append] at hsend
  rw [Decoder.feed_eq Decoder.next_nil, List.nil_append, ← Option.some.inj hsend]
  exact Decoder.run_encode ms fun m hm more => next_bytes (m.packet_wf isClient (h m hm)) more

/-- Two messages of a client, cut inside the header of the second. -/
theorem feed_sendAll_cut :
    ∃ pieces, pieces.length = 2 ∧
      sendAll true [] [⟨fun _ => 1, [72, 105], 1⟩, ⟨fun _ => 2, [], 9⟩] = some pieces.flatten ∧
      decoder.feed [] pieces = ([⟨129, [72, 105]⟩, ⟨137, []⟩], []) :=
  ⟨[[129, 130, 1, 1, 1, 1, 73, 104, 137], [128, 2, 2, 2, 2]], rfl, by decide,
    feed_sendAll true [⟨fun _ => 1, [72, 105], 1⟩, ⟨fun _ => 2, [], 9⟩]
      [[129, 130, 1, 1, 1, 1, 73, 104, 137], [128, 2, 2, 2, 2]] (by decide) (by decide)⟩

end Mgws.Ws
