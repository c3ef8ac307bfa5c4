import Mathlib.Algebra.Group.Int.Defs
import Mathlib.Algebra.Group.Nat.Defs
import Mathlib.Data.List.TakeWhile
import Mathlib.Tactic.Basic
/-!
# Decimal text of machine integers

`stoi` follows the documented behaviour of `std::stoi` in base ten: leading
white space and one sign are skipped, the longest run of digits is read, what
follows it is ignored, no digit is an `invalid_argument` and a value outside a
32-bit `int` is an `out_of_range`.  `std::to_string` of an unsigned value is
`Nat.repr`.
-/

namespace Lib

inductive StoiError where
  | invalidArgument
  | outOfRange
  deriving DecidableEq, Repr

def isSpace (c : Char) : Bool :=
  c = ' ' || (9 ≤ c.toNat && c.toNat ≤ 13)

def splitSign : List Char → Bool × List Char
  | '-' :: cs => (true, cs)
  | '+' :: cs => (false, cs)
  | cs => (false, cs)

def stoi (s : String) : Except StoiError Int :=
  let (negative, cs) := splitSign (s.toList.dropWhile isSpace)
  let digits := cs.takeWhile Char.isDigit
  if digits = [] then
    .error .invalidArgument
  else
    let value : Int := Nat.ofDigitChars 10 digits 0
    let value := if negative then -value else value
    if -2 ^ 31 ≤ value ∧ value < 2 ^ 31 then .ok value else .error .outOfRange

theorem not_isSpace_of_isDigit {c : Char} (h : c.isDigit = true) : isSpace c = false := by
  have hrange : 48 ≤ c.toNat ∧ c.toNat ≤ 57 := by
    simpa [Char.isDigit, UInt32.le_iff_toNat_le] using h
  have hblank : c ≠ ' ' := by
    rintro rfl
    exact absurd h (by decide)
  simp only [isSpace, hblank, decide_false, Bool.false_or, Bool.and_eq_false_iff,
    decide_eq_false_iff_not]
  omega

theorem splitSign_of_isDigit {c : Char} {cs : List Char} (h : c.isDigit = true) :
    splitSign (c :: cs) = (false, c :: cs) := by
  unfold splitSign
  split
  · next heq =>
      cases heq
      exact absurd h (by decide)
  · next heq =>
      cases heq
      exact absurd h (by decide)
  · rfl

/-- Reading back the decimal text of `n` gives `n` when it fits an `int`, and
throws otherwise. -/
theorem stoi_repr (n : Nat) :
    stoi n.repr = if n < 2 ^ 31 then .ok (n : Int) else .error .outOfRange := by
  have hdigit : ∀ c ∈ Nat.toDigits 10 n, c.isDigit = true :=
    fun c hc => Nat.isDigit_of_mem_toDigits (by omega) (by omega) hc
  obtain ⟨c, cs, hcs⟩ := List.exists_cons_of_ne_nil (Nat.toDigits_ne_nil (n := n) (b := 10))
  have hc : c.isDigit = true := hdigit c (by simp [hcs])
  have htake : (c :: cs).takeWhile Char.isDigit = c :: cs := by
    rw [List.takeWhile_eq_self_iff, ← hcs]
    exact hdigit
  have hvalue : Nat.ofDigitChars 10 (c :: cs) 0 = n := by
    rw [← hcs, Nat.ofDigitChars_ten_toDigits]
  unfold stoi
  rw [Nat.toList_repr, hcs, List.dropWhile_cons_of_neg (by simp [not_isSpace_of_isDigit hc]),
    splitSign_of_isDigit hc]
  simp only [htake, hvalue, reduceCtorEq, if_false, Bool.false_eq_true]
  by_cases hn : n < 2 ^ 31
  · rw [if_pos hn, if_pos (by omega)]
  · rw [if_neg hn, if_neg (by omega)]

theorem repr_injective : Function.Injective Nat.repr := by
  intro m n h
  have hvalue : ∀ k : Nat, Nat.ofDigitChars 10 k.repr.toList 0 = k := fun k => by
    rw [Nat.toList_repr, Nat.ofDigitChars_ten_toDigits]
  rw [← hvalue m, h, hvalue]

end Lib
