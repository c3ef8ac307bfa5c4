import Mathlib.Data.List.Basic
/-!
# Periodic timers

A timer is due at some time and is looked at now and then.  When it is found to be due it goes
off, and is due again one period later, or one period from now when it is late by more than that.
-/

namespace Lib.Ticker

/-- When a timer of period `p` that was due at `t` and went off at `now` is due again. -/
def next (p t now : Nat) : Nat := if p < now - t then now + p else t + p

/-- The times at which it goes off, among those at which it is looked at. -/
def goings (p : Nat) : Nat → List Nat → List Nat
  | _, [] => []
  | t, now :: nows =>
      if now < t then goings p t nows else now :: goings p (next p t now) nows

variable {p t now x g : Nat} {nows : List Nat}

theorem add_le_next (h : t ≤ now) : t + p ≤ next p t now := by
  rw [next]
  split <;> omega

theorem next_le_add (h : t ≤ now) : next p t now ≤ now + p := by
  rw [next]
  split <;> omega

theorem goings_sublist (p t : Nat) (nows : List Nat) : (goings p t nows).Sublist nows := by
  induction nows generalizing t with
  | nil => exact .slnil
  | cons now nows ih =>
      rw [goings]
      split
      · exact (ih t).cons now
      · exact (ih _).cons_cons now

theorem le_of_goings {i : Nat} (h : (goings p t nows)[i]? = some g) : t + i * p ≤ g := by
  induction nows generalizing t i with
  | nil => simp [goings] at h
  | cons now nows ih =>
      rw [goings] at h
      split at h
      · exact ih h
      · next hdue =>
          have hdue : t ≤ now := Nat.le_of_not_lt hdue
          cases i with
          | zero =>
              obtain rfl : now = g := by simpa using h
              simpa using hdue
          | succ i =>
              have hrest : next p t now + i * p ≤ g := ih (by simpa using h)
              have hnext : t + p ≤ next p t now := add_le_next hdue
              rw [Nat.succ_mul]
              omega

/-- Whenever it is looked at after it was first due, it has gone off less than a period ago. -/
theorem goings_recent (hp : 0 < p) (hsorted : nows.Pairwise (· ≤ ·)) (hx : x ∈ nows)
    (htx : t ≤ x) : ∃ g ∈ goings p t nows, g ≤ x ∧ x < g + p := by
  induction nows generalizing t with
  | nil => exact absurd hx List.not_mem_nil
  | cons now nows ih =>
      obtain ⟨hle, hrest⟩ := List.pairwise_cons.mp hsorted
      rw [goings]
      split
      · next hearly =>
          rcases List.mem_cons.mp hx with rfl | hx
          · omega
          · exact ih hrest hx htx
      · next hdue =>
          have hnow : ∃ g ∈ now :: goings p (next p t now) nows, g ≤ now ∧ now < g + p :=
            ⟨now, List.mem_cons_self, Nat.le_refl now, by omega⟩
          rcases List.mem_cons.mp hx with rfl | hx
          · exact hnow
          · by_cases hnext : next p t now ≤ x
            · obtain ⟨g, hg, hrecent⟩ := ih hrest hx hnext
              exact ⟨g, List.mem_cons_of_mem _ hg, hrecent⟩
            · have hbound : next p t now ≤ now + p := next_le_add (Nat.le_of_not_lt hdue)
              exact ⟨now, List.mem_cons_self, hle x hx, by omega⟩

end Lib.Ticker
