import Mathlib.Data.List.Induction
import Mathlib.Tactic.Ring
/-!
# Numbers as bytes

The big-endian digits of a number in base 256, of a fixed width.
-/

namespace Lib

def ofBytes (bs : List UInt8) : Nat := bs.foldl (fun n b => 256 * n + b.toNat) 0

/-- The `width` low bytes of `n`, most significant first. -/
def toBytes : Nat → Nat → List UInt8
  | 0, _ => []
  | width + 1, n => toBytes width (n / 256) ++ [UInt8.ofNat n]

@[simp] theorem length_toBytes (width n : Nat) : (toBytes width n).length = width := by
  induction width generalizing n with
  | zero => rfl
  | succ width ih => rw [toBytes, List.length_append, ih, List.length_singleton]

theorem ofBytes_concat (bs : List UInt8) (b : UInt8) :
    ofBytes (bs ++ [b]) = 256 * ofBytes bs + b.toNat := by
  rw [ofBytes, List.foldl_append]
  rfl

theorem testBit_ofBytes_concat (bs : List UInt8) (b : UInt8) (j : Nat) :
    (ofBytes (bs ++ [b])).testBit j =
      if j < 8 then b.toNat.testBit j else (ofBytes bs).testBit (j - 8) := by
  rw [ofBytes_concat]
  exact Nat.testBit_two_pow_mul_add (ofBytes bs) b.toNat_lt j

theorem ofBytes_lt (bs : List UInt8) : ofBytes bs < 256 ^ bs.length := by
  induction bs using List.reverseRecOn with
  | nil => exact Nat.one_pos
  | append_singleton bs b ih =>
      have hb : b.toNat < 256 := b.toNat_lt
      rw [ofBytes_concat, List.length_append, List.length_singleton, pow_succ]
      omega

theorem ofBytes_toBytes_mod (width n : Nat) : ofBytes (toBytes width n) = n % 256 ^ width := by
  induction width generalizing n with
  | zero =>
      rw [pow_zero, Nat.mod_one]
      rfl
  | succ width ih =>
      have hmod : n % 256 ^ (width + 1) = n % 256 + 256 * (n / 256 % 256 ^ width) := by
        rw [pow_succ', Nat.mod_mul]
      rw [toBytes, ofBytes_concat, ih, UInt8.toNat_ofNat', hmod]
      exact Nat.add_comm _ _

theorem ofBytes_toBytes {width n : Nat} (h : n < 256 ^ width) : ofBytes (toBytes width n) = n := by
  rw [ofBytes_toBytes_mod, Nat.mod_eq_of_lt h]

theorem toBytes_ofBytes (bs : List UInt8) : toBytes bs.length (ofBytes bs) = bs := by
  induction bs using List.reverseRecOn with
  | nil => rfl
  | append_singleton bs b ih =>
      have hb : b.toNat < 256 := b.toNat_lt
      have hhigh : (256 * ofBytes bs + b.toNat) / 256 = ofBytes bs := by omega
      have hlow : UInt8.ofNat (256 * ofBytes bs + b.toNat) = b := by
        apply UInt8.toNat_inj.mp
        rw [UInt8.toNat_ofNat']
        omega
      rw [ofBytes_concat, List.length_append, List.length_singleton, toBytes, hhigh, ih, hlow]

theorem toBytes_append (high low n : Nat) :
    toBytes (high + low) n = toBytes high (n / 256 ^ low) ++ toBytes low n := by
  induction low generalizing n with
  | zero => rw [pow_zero, Nat.div_one, Nat.add_zero, toBytes, List.append_nil]
  | succ low ih =>
      have hdiv : n / 256 / 256 ^ low = n / 256 ^ (low + 1) := by
        rw [Nat.div_div_eq_div_mul, pow_succ, Nat.mul_comm]
      rw [← Nat.add_assoc, toBytes, ih, toBytes, hdiv, List.append_assoc]

theorem toBytes_mod (width n : Nat) : toBytes width (n % 256 ^ width) = toBytes width n := by
  have hback := toBytes_ofBytes (toBytes width n)
  rwa [length_toBytes, ofBytes_toBytes_mod] at hback

end Lib
