import Mgws.Lib.Bytes
/-!
# Base64

Three bytes are four digits in base 64; what is left over is filled up with `=`.
-/

namespace Lib.Base64

def digit (n : Nat) : UInt8 :=
  if n < 26 then UInt8.ofNat (65 + n)
  else if n < 52 then UInt8.ofNat (97 + (n - 26))
  else if n < 62 then UInt8.ofNat (48 + (n - 52))
  else if n = 62 then 43
  else 47

/-- The lowest digits of a number, the highest of them first. -/
def digits : Nat → Nat → List UInt8
  | 0, _ => []
  | width + 1, n => digits width (n / 64) ++ [digit (n % 64)]

def encode : List UInt8 → List UInt8
  | a :: b :: c :: rest => digits 4 (ofBytes [a, b, c]) ++ encode rest
  | [a, b] => digits 3 (4 * ofBytes [a, b]) ++ [61]
  | [a] => digits 2 (16 * ofBytes [a]) ++ [61, 61]
  | [] => []

end Lib.Base64
