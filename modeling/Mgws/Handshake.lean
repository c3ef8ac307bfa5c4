import Mgws.Http
import Mgws.Sha1
/-!
# The response to an upgrade

`mg_base64_encode`, and the key that `ws_handshake` answers.
-/

namespace Mgws.Ws

open Lib

def mgBase64EncodeSingle (c : UInt8) : UInt8 :=
  if c < 26 then c + 65
  else if c < 52 then c - 26 + 97
  else if c < 62 then c - 52 + 48
  else if c = 62 then 43
  else 47

/-- The array `to` of `mg_base64_update`: the characters in front of position `n`, and what stands
there. -/
structure Base64 where
  text : List UInt8
  last : UInt8

def mgBase64Update (out : Base64) (ch : UInt8) : Base64 :=
  let rem := (out.text.length &&& 3) % 3
  if rem = 0 then
    ⟨out.text ++ [mgBase64EncodeSingle (ch >>> 2)], (ch &&& 3) <<< 4⟩
  else if rem = 1 then
    ⟨out.text ++ [mgBase64EncodeSingle (out.last ||| ch >>> 4)], (ch &&& 15) <<< 2⟩
  else
    -- the next character is not read before it is written
    ⟨out.text ++
      [mgBase64EncodeSingle (out.last ||| ch >>> 6), mgBase64EncodeSingle (ch &&& 63)], 0⟩

/-- `while (n & 3) to[n++] = '='`, in as many turns as the first argument says. -/
def padEquals : Nat → List UInt8 → List UInt8
  | 0, text => text
  | turns + 1, text => if text.length &&& 3 ≠ 0 then padEquals turns (text ++ [61]) else text

def mgBase64Final (out : Base64) : List UInt8 :=
  let saved := out.text.length
  let text := if saved &&& 3 ≠ 0 then (mgBase64Update out 0).text else out.text
  padEquals 3 (if saved &&& 3 = 2 then text.dropLast else text)

def mgBase64Encode (p : List UInt8) (dl : Nat) : List UInt8 :=
  if dl < (p.length / 3 + if p.length % 3 ≠ 0 then 1 else 0) * 4 + 1 then []
  else mgBase64Final (p.foldl mgBase64Update ⟨[], 0⟩)

/-- The text that `ws_handshake` prints for `Sec-WebSocket-Accept`; `buffer` is what the context
holds before. -/
def wsAccept (buffer wskey : List UInt8) : List UInt8 :=
  let ctx := mgSha1Update (mgSha1Init buffer) wskey
  let ctx := mgSha1Update ctx (bytes "258EAFA5-E914-47DA-95CA-C5AB0DC85B11")
  mgBase64Encode (mgSha1Final ctx) 30

end Mgws.Ws
