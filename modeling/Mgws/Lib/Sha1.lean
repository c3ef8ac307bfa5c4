import Mgws.Lib.Blocks
import Mgws.Lib.Bytes
/-!
# SHA-1

The hash function by its definition, on messages of whole bytes.
-/

namespace Lib.Sha1

@[ext]
structure Regs where
  a : UInt32
  b : UInt32
  c : UInt32
  d : UInt32
  e : UInt32
  deriving DecidableEq, Repr

def rotl (w k : UInt32) : UInt32 := w <<< k ||| w >>> (32 - k)

def word (block : List UInt8) (t : Nat) : UInt32 :=
  UInt32.ofNat (ofBytes ((block.drop (4 * t)).take 4))

def schedule (block : List UInt8) (t : Nat) : UInt32 :=
  if t < 16 then word block t
  else
    rotl (schedule block (t - 3) ^^^ schedule block (t - 8) ^^^ schedule block (t - 14) ^^^
      schedule block (t - 16)) 1

def ch (x y z : UInt32) : UInt32 := (x &&& y) ^^^ (~~~x &&& z)

def parity (x y z : UInt32) : UInt32 := x ^^^ y ^^^ z

def maj (x y z : UInt32) : UInt32 := (x &&& y) ^^^ (x &&& z) ^^^ (y &&& z)

def mix (t : Nat) : UInt32 → UInt32 → UInt32 → UInt32 :=
  if t < 20 then ch else if t < 40 then parity else if t < 60 then maj else parity

def constant (t : Nat) : UInt32 :=
  if t < 20 then 0x5a827999
  else if t < 40 then 0x6ed9eba1
  else if t < 60 then 0x8f1bbcdc
  else 0xca62c1d6

def step (t : Nat) (w : UInt32) (r : Regs) : Regs :=
  ⟨rotl r.a 5 + mix t r.b r.c r.d + r.e + constant t + w, r.a, rotl r.b 30, r.c, r.d⟩

def steps (block : List UInt8) : Nat → Nat → Regs → Regs
  | 0, _, r => r
  | n + 1, t, r => steps block n (t + 1) (step t (schedule block t) r)

def Regs.add (h r : Regs) : Regs := ⟨h.a + r.a, h.b + r.b, h.c + r.c, h.d + r.d, h.e + r.e⟩

def compress (h : Regs) (block : List UInt8) : Regs := h.add (steps block 80 0 h)

def start : Regs := ⟨0x67452301, 0xefcdab89, 0x98badcfe, 0x10325476, 0xc3d2e1f0⟩

def pad (msg : List UInt8) : List UInt8 :=
  msg ++ 128 :: List.replicate ((119 - msg.length % 64) % 64) 0 ++ toBytes 8 (8 * msg.length)

abbrev blocks : Decoder UInt8 (List UInt8) := Decoder.blocks UInt8 (n := 64) (by decide)

def Regs.bytes (r : Regs) : List UInt8 :=
  toBytes 4 r.a.toNat ++ toBytes 4 r.b.toNat ++ toBytes 4 r.c.toNat ++ toBytes 4 r.d.toNat ++
    toBytes 4 r.e.toNat

def digest (msg : List UInt8) : List UInt8 := ((blocks.run (pad msg)).1.foldl compress start).bytes

theorem length_digest (msg : List UInt8) : (digest msg).length = 20 := by
  rw [digest, Regs.bytes]
  simp only [List.length_append, length_toBytes]

end Lib.Sha1
