import Mathlib.Data.List.Basic
/-!
# Markup

The tag delimiters of a text, in their order.  They are what is left of the structure of markup
when its texts and the names of its tags are forgotten.
-/

namespace Lib

def isDelimiter (c : Char) : Bool := c = '<' || c = '>'

def delimiters (s : String) : List Char := s.toList.filter isDelimiter

theorem delimiters_append (s t : String) : delimiters (s ++ t) = delimiters s ++ delimiters t := by
  rw [delimiters, String.toList_append, List.filter_append]
  rfl

theorem delimiters_repr (n : Nat) : delimiters n.repr = [] := by
  rw [delimiters, Nat.toList_repr, List.filter_eq_nil_iff]
  intro c hc
  have hdigit : c.isDigit = true := Nat.isDigit_of_mem_toDigits (by omega) (by omega) hc
  rw [isDelimiter, Bool.or_eq_true, decide_eq_true_eq, decide_eq_true_eq]
  rintro (rfl | rfl)
  · exact absurd hdigit (by decide)
  · exact absurd hdigit (by decide)

/-- What stands around two texts does not hide how they differ. -/
theorem delimiters_between_iff (l r : String) {s t : String} :
    delimiters (l ++ s ++ r) = delimiters (l ++ t ++ r) ↔ delimiters s = delimiters t := by
  simp only [delimiters_append, List.append_left_inj, List.append_right_inj]

/-- A relation of texts that is kept when texts are put next to each other. -/
structure AppendCongr (r : String → String → Prop) : Prop where
  refl : ∀ s, r s s
  append : ∀ {s s' t t'}, r s s' → r t t' → r (s ++ t) (s' ++ t')

theorem appendCongr_delimiters : AppendCongr fun s t => delimiters s = delimiters t := by
  refine ⟨fun _ => rfl, fun hs ht => ?_⟩
  rw [delimiters_append, delimiters_append, hs, ht]

end Lib
