import Mathlib.Data.List.Basic
/-!
# Watchdogs

A watchdog sends probes, and counts those that it has sent since it last heard from the
other side.  Answers arrive in any order and at any time, late ones included.  When the
count is at `n`, the last `n` probes are unanswered.
-/

namespace Lib

/-- The probes that were sent and the answers that have arrived, oldest first, and the count
of probes since the last sign of life. -/
structure Watchdog (α : Type) where
  probes : List α
  answered : List α
  missed : Nat

namespace Watchdog

variable {α : Type}

/-- The steps of a watchdog.  A probe has no answer yet when it is sent.  An answer, or any
other sign of life, sets the count back. -/
inductive Step : Watchdog α → Watchdog α → Prop where
  | idle {w} : Step w w
  | probe {w} (p : α) (hp : p ∉ w.answered) :
      Step w { w with probes := w.probes ++ [p], missed := w.missed + 1 }
  | answer {w} (ps : List α) : Step w { w with answered := w.answered ++ ps, missed := 0 }

def recent (w : Watchdog α) (n : Nat) : List α := w.probes.drop (w.probes.length - n)

structure Sound (w : Watchdog α) : Prop where
  le : w.missed ≤ w.probes.length
  unanswered : ∀ p ∈ w.recent w.missed, p ∉ w.answered

variable {w w' : Watchdog α} {n : Nat}

theorem recent_zero : w.recent 0 = [] := by
  rw [recent, Nat.sub_zero, List.drop_length]

theorem recent_sublist {m : Nat} (h : m ≤ n) : (w.recent m).Sublist (w.recent n) :=
  List.drop_sublist_drop_left _ (Nat.sub_le_sub_left h _)

theorem recent_probe {probes : List α} (hprobes : w'.probes = w.probes ++ probes)
    (hprobe : probes.length = 1) (h : n ≤ w.probes.length) :
    w'.recent (n + 1) = w.recent n ++ probes := by
  have hlength : (w.probes ++ probes).length - (n + 1) = w.probes.length - n := by
    rw [List.length_append, hprobe]
    omega
  rw [recent, recent, hprobes, hlength, List.drop_append_of_le_length (Nat.sub_le _ _)]

theorem Sound.recent (h : w.Sound) (hn : n ≤ w.missed) :
    n ≤ w.probes.length ∧ ∀ p ∈ w.recent n, p ∉ w.answered :=
  ⟨Nat.le_trans hn h.le, fun p hp => h.unanswered p ((recent_sublist hn).subset hp)⟩

theorem sound_of_missed (h : w.missed = 0) : w.Sound := by
  constructor
  · rw [h]
    exact Nat.zero_le _
  · rw [h, recent_zero]
    exact fun p hp => absurd hp List.not_mem_nil

theorem Sound.step (h : w.Sound) (hstep : Step w w') : w'.Sound := by
  cases hstep with
  | idle => exact h
  | probe p hp =>
      constructor
      · rw [List.length_append]
        exact Nat.succ_le_succ h.le
      · intro q hq
        rw [recent_probe rfl rfl h.le] at hq
        rcases List.mem_append.mp hq with hold | hnew
        · exact h.unanswered q hold
        · rwa [List.mem_singleton.mp hnew]
  | answer ps => exact sound_of_missed rfl

end Watchdog

end Lib
