import Mgws.Lib.Sha1
/-!
# SHA-1

`mg_sha1_init`, `mg_sha1_update` and `mg_sha1_final` with the rounds of `mg_sha1_transform`, on a
little-endian machine.
-/

namespace Mgws.Ws

open Lib Sha1

/-! ## Blocks -/

def rol (value bits : UInt32) : UInt32 := value <<< bits ||| value >>> (32 - bits)

def le32 (buffer : List UInt8) (i : Nat) : UInt32 :=
  UInt32.ofNat (ofBytes ((buffer.drop (4 * i)).take 4).reverse)

def blk0 (l : UInt32) : UInt32 := (rol l 24 &&& 0xFF00FF00) ||| (rol l 8 &&& 0x00FF00FF)

def blk (block : List UInt32) (i : Nat) : UInt32 :=
  rol (block.getD ((i + 13) &&& 15) 0 ^^^ block.getD ((i + 8) &&& 15) 0 ^^^
    block.getD ((i + 2) &&& 15) 0 ^^^ block.getD (i &&& 15) 0) 1

/-- `R0` to `R4` with the word for the round.  The macros are called with the names of the
registers turned by one each time; here the registers turn. -/
def round (i : Nat) (word : UInt32) : Regs → Regs
  | ⟨v, w, x, y, z⟩ =>
      let z :=
        if i < 20 then z + (((w &&& (x ^^^ y)) ^^^ y) + word + 0x5A827999 + rol v 5)
        else if i < 40 then z + ((w ^^^ x ^^^ y) + word + 0x6ED9EBA1 + rol v 5)
        else if i < 60 then z + ((((w ||| x) &&& y) ||| (w &&& x)) + word + 0x8F1BBCDC + rol v 5)
        else z + ((w ^^^ x ^^^ y) + word + 0xCA62C1D6 + rol v 5)
      ⟨z, v, rol w 30, x, y⟩

/-- The rounds from `i` on.  `blk0` and `blk` write the word back into the block. -/
def rounds : Nat → Nat → List UInt32 → Regs → Regs
  | 0, _, _, r => r
  | n + 1, i, block, r =>
      let word := if i < 16 then blk0 (block.getD i 0) else blk block i
      rounds n (i + 1) (block.set (i &&& 15) word) (round i word r)

def mgSha1Transform (state : Regs) (buffer : List UInt8) : Regs :=
  let r := rounds 80 0 ((List.range 16).map (le32 buffer)) state
  ⟨state.a + r.a, state.b + r.b, state.c + r.c, state.d + r.d, state.e + r.e⟩

/-! ## Messages -/

/-- `mg_sha1_ctx`; `count` in 32-bit words, the low one first. -/
structure Sha1Ctx where
  state : Regs
  count : Nat × Nat
  buffer : List UInt8

def mgSha1Init (buffer : List UInt8) : Sha1Ctx :=
  ⟨⟨0x67452301, 0xEFCDAB89, 0x98BADCFE, 0x10325476, 0xC3D2E1F0⟩, (0, 0), buffer⟩

/-- `for (; i + 63 < len; i += 64)`, in as many turns as the first argument says. -/
def transforms : Nat → Regs → List UInt8 → Regs × List UInt8
  | 0, state, data => (state, data)
  | turns + 1, state, data =>
      if data.length < 64 then (state, data)
      else transforms turns (mgSha1Transform state (data.take 64)) (data.drop 64)

def copyTo (buffer : List UInt8) (j : Nat) (data : List UInt8) : List UInt8 :=
  buffer.take j ++ data ++ buffer.drop (j + data.length)

def addCount (count : Nat × Nat) (len : Nat) : Nat × Nat :=
  let low := (count.1 + len % 2 ^ 32 * 8 % 2 ^ 32) % 2 ^ 32
  let high := if low < count.1 then (count.2 + 1) % 2 ^ 32 else count.2
  (low, (high + len / 2 ^ 29 % 2 ^ 32) % 2 ^ 32)

def mgSha1Update (ctx : Sha1Ctx) (data : List UInt8) : Sha1Ctx :=
  let count := addCount ctx.count data.length
  let j := ctx.count.1 / 8 % 64
  if 63 < j + data.length then
    let buffer := copyTo ctx.buffer j (data.take (64 - j))
    let r := transforms data.length (mgSha1Transform ctx.state buffer) (data.drop (64 - j))
    ⟨r.1, count, copyTo buffer 0 r.2⟩
  else ⟨ctx.state, count, copyTo ctx.buffer j data⟩

def padZeros : Nat → Sha1Ctx → Sha1Ctx
  | 0, ctx => ctx
  | turns + 1, ctx =>
      if ctx.count.1 &&& 504 ≠ 448 then padZeros turns (mgSha1Update ctx [0]) else ctx

def mgSha1Final (ctx : Sha1Ctx) : List UInt8 :=
  let finalcount := toBytes 4 ctx.count.2 ++ toBytes 4 ctx.count.1
  let ctx := padZeros 64 (mgSha1Update ctx [0o200])
  (mgSha1Update ctx finalcount).state.bytes

end Mgws.Ws
