import Mgws.Lib.Stream
/-!
# Blocks

A stream that is cut into blocks of one length, and what is left at its end.
-/

namespace Lib

namespace Decoder

variable {α : Type} {n : Nat}

def blocks (α : Type) {n : Nat} (hn : 0 < n) : Decoder α (List α) where
  next buf := if buf.length < n then none else some (buf.take n, n)
  pos {buf b m} h := by
    split at h
    · cases h
    · cases h
      exact hn
  le {buf b m} h := by
    split at h
    · cases h
    · cases h
      omega
  upto {buf b m} h more := by
    split at h
    · cases h
    · next hlen =>
        cases h
        have htake : (buf.take n).length = n := List.length_take_of_le (Nat.not_lt.mp hlen)
        rw [if_neg (by rw [List.length_append]; omega), List.take_left' htake]

variable {hn : 0 < n} {buf : List α}

theorem blocks_next_of_lt (h : buf.length < n) : (blocks α hn).next buf = none := if_pos h

theorem blocks_next_of_le (h : n ≤ buf.length) :
    (blocks α hn).next buf = some (buf.take n, n) := if_neg (Nat.not_lt.mpr h)

theorem run_blocks_of_lt (h : buf.length < n) : (blocks α hn).run buf = ([], buf) :=
  run_of_none (blocks_next_of_lt h)

theorem run_blocks_of_le (h : n ≤ buf.length) :
    (blocks α hn).run buf =
      (buf.take n :: ((blocks α hn).run (buf.drop n)).1, ((blocks α hn).run (buf.drop n)).2) :=
  run_of_some (blocks_next_of_le h)

theorem length_run_blocks (buf : List α) :
    ((blocks α hn).run buf).2.length = buf.length % n := by
  induction buf using run_induction (d := blocks α hn) with
  | hnone buf hnone =>
      have hlen : buf.length < n := by
        by_contra hlen
        rw [blocks_next_of_le (Nat.not_lt.mp hlen)] at hnone
        cases hnone
      rw [run_blocks_of_lt hlen, Nat.mod_eq_of_lt hlen]
  | hsome buf b m hsome ih =>
      have hlen : n ≤ buf.length := by
        by_contra hlen
        rw [blocks_next_of_lt (Nat.not_le.mp hlen)] at hsome
        cases hsome
      rw [blocks_next_of_le hlen] at hsome
      obtain ⟨-, rfl⟩ := Prod.mk.inj (Option.some.inj hsome)
      rw [run_blocks_of_le hlen, ih, List.length_drop, ← Nat.mod_eq_sub_mod hlen]

end Decoder

end Lib
