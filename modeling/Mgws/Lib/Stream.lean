import Mathlib.Data.List.Basic
import Mathlib.Logic.Relation
import Mathlib.Tactic.Basic
/-!
# Decoders of a stream

A decoder looks at the front of a buffer for an item.  When what it finds there does not depend
on what follows, it does not matter in which pieces a stream arrives.
-/

namespace Lib

/-- What `next` finds at the front of a buffer: an item and the number of elements it takes
up. -/
structure Decoder (α β : Type) where
  next : List α → Option (β × Nat)
  pos : ∀ {buf b n}, next buf = some (b, n) → 0 < n
  le : ∀ {buf b n}, next buf = some (b, n) → n ≤ buf.length
  upto : ∀ {buf b n}, next buf = some (b, n) → ∀ more, next (buf.take n ++ more) = some (b, n)

namespace Decoder

variable {α β : Type} (d : Decoder α β)

/-- The items that are complete, and what is left. -/
def run (buf : List α) : List β × List α :=
  match h : d.next buf with
  | none => ([], buf)
  | some (b, n) =>
      have : buf.length - n < buf.length := by
        have hpos := d.pos h
        have hle := d.le h
        omega
      let rest := run (buf.drop n)
      (b :: rest.1, rest.2)
termination_by buf.length

def feed (buf : List α) : List (List α) → List β × List α
  | [] => ([], buf)
  | piece :: pieces =>
      let now := d.run (buf ++ piece)
      let later := feed now.2 pieces
      (now.1 ++ later.1, later.2)

variable {d} {buf : List α} {b : β} {n : Nat}

theorem stable (h : d.next buf = some (b, n)) (more : List α) :
    d.next (buf ++ more) = some (b, n) := by
  have hupto := d.upto h (buf.drop n ++ more)
  rwa [← List.append_assoc, List.take_append_drop] at hupto

theorem run_of_none (h : d.next buf = none) : d.run buf = ([], buf) := by
  rw [run]
  split
  · rfl
  · next hsome =>
      rw [h] at hsome
      cases hsome

theorem run_of_some (h : d.next buf = some (b, n)) :
    d.run buf = (b :: (d.run (buf.drop n)).1, (d.run (buf.drop n)).2) := by
  rw [run]
  split
  · next hnone =>
      rw [h] at hnone
      cases hnone
  · next hsome =>
      rw [h] at hsome
      cases hsome
      rfl

theorem next_nil : d.next [] = none := by
  cases hnext : d.next [] with
  | none => rfl
  | some item =>
      have hpos := d.pos hnext
      have hle := d.le hnext
      exact absurd (Nat.lt_of_lt_of_le hpos hle) (Nat.lt_irrefl 0)

theorem run_nil : d.run [] = ([], []) := run_of_none next_nil

theorem run_induction {P : List α → Prop} (hnone : ∀ buf, d.next buf = none → P buf)
    (hsome : ∀ buf b n, d.next buf = some (b, n) → P (buf.drop n) → P buf) (buf : List α) :
    P buf := by
  induction hlen : buf.length using Nat.strongRecOn generalizing buf with
  | ind len ih =>
      cases hnext : d.next buf with
      | none => exact hnone buf hnext
      | some item =>
          have hpos := d.pos hnext
          have hle := d.le hnext
          refine hsome buf item.1 item.2 hnext (ih _ ?_ _ rfl)
          rw [List.length_drop]
          omega

/-- What comes later does not change the items found before. -/
theorem run_append (buf more : List α) :
    d.run (buf ++ more) =
      ((d.run buf).1 ++ (d.run ((d.run buf).2 ++ more)).1, (d.run ((d.run buf).2 ++ more)).2) := by
  induction buf using run_induction (d := d) with
  | hnone buf hnone => rw [run_of_none hnone, List.nil_append]
  | hsome buf b n hsome ih =>
      have hdrop : (buf ++ more).drop n = buf.drop n ++ more :=
        List.drop_append_of_le_length (d.le hsome)
      rw [run_of_some hsome, run_of_some (d.stable hsome more), hdrop, ih, List.cons_append]

theorem next_rest (buf : List α) : d.next (d.run buf).2 = none := by
  induction buf using run_induction (d := d) with
  | hnone buf hnone => rwa [run_of_none hnone]
  | hsome buf b n hsome ih => rwa [run_of_some hsome]

/-- A stream is decoded to the same items in whichever pieces it arrives. -/
theorem feed_eq (hbuf : d.next buf = none) (pieces : List (List α)) :
    d.feed buf pieces = d.run (buf ++ pieces.flatten) := by
  induction pieces generalizing buf with
  | nil => rw [feed, List.flatten_nil, List.append_nil, run_of_none hbuf]
  | cons piece pieces ih =>
      rw [feed, ih (next_rest _), List.flatten_cons, ← List.append_assoc]
      exact (run_append (buf ++ piece) pieces.flatten).symm

/-- An encoder whose items the decoder finds. -/
theorem run_encode {γ : Type} {enc : γ → List α} {f : γ → β} (xs : List γ)
    (h : ∀ x ∈ xs, ∀ more, d.next (enc x ++ more) = some (f x, (enc x).length)) :
    d.run (xs.flatMap enc) = (xs.map f, []) := by
  induction xs with
  | nil => exact run_nil
  | cons x xs ih =>
      rw [List.flatMap_cons, run_of_some (h x (by simp) _), List.drop_left,
        ih fun y hy => h y (by simp [hy])]
      rfl

/-! ## Taking items one at a time -/

/-- A buffer with all that was put into it and the items that were taken out of it, oldest
first. -/
structure Inlet (α β : Type) where
  received : List α
  buf : List α
  taken : List β

inductive Moves (d : Decoder α β) : Inlet α β → Inlet α β → Prop where
  | arrive {w} (piece : List α) :
      Moves d w ⟨w.received ++ piece, w.buf ++ piece, w.taken⟩
  | take {w b n} (h : d.next w.buf = some (b, n)) :
      Moves d w ⟨w.received, w.buf.drop n, w.taken ++ [b]⟩

/-- What was received is the items that were taken and, behind them, the buffer. -/
def Inlet.Split (d : Decoder α β) (w : Inlet α β) : Prop :=
  ∃ before, w.received = before ++ w.buf ∧ d.run before = (w.taken, [])

/-- The items that were taken and those that are complete are those of the whole stream. -/
def Inlet.Sound (d : Decoder α β) (w : Inlet α β) : Prop :=
  d.run w.received = (w.taken ++ (d.run w.buf).1, (d.run w.buf).2)

theorem Inlet.Split.sound {w : Inlet α β} (h : w.Split d) : w.Sound d := by
  obtain ⟨before, hreceived, hbefore⟩ := h
  rw [Inlet.Sound, hreceived, run_append, hbefore, List.nil_append]

theorem Moves.split {w w' : Inlet α β} (h : Moves d w w') (hw : w.Split d) : w'.Split d := by
  obtain ⟨before, hreceived, hbefore⟩ := hw
  cases h with
  | arrive piece => exact ⟨before, by rw [hreceived, List.append_assoc], hbefore⟩
  | @take b n hnext =>
      have htake : d.run (w.buf.take n) = ([b], []) := by
        have hfront := d.upto hnext []
        rw [List.append_nil] at hfront
        rw [run_of_some hfront, List.drop_eq_nil_of_le (List.length_take_le _ _), run_nil]
      refine ⟨before ++ w.buf.take n, ?_, ?_⟩
      · rw [hreceived, List.append_assoc, List.take_append_drop]
      · rw [run_append, hbefore, List.nil_append, htake]

theorem split_nil : (⟨[], [], []⟩ : Inlet α β).Split d := ⟨[], rfl, run_nil⟩

theorem split_of_moves {w w' : Inlet α β} (h : Relation.ReflTransGen (Moves d) w w')
    (hw : w.Split d) : w'.Split d := by
  induction h with
  | refl => exact hw
  | tail _ hmove ih => exact hmove.split ih

/-- However pieces arrive and items are taken, no item is lost, made up, repeated or taken out of
turn. -/
theorem sound_of_moves {w : Inlet α β}
    (h : Relation.ReflTransGen (Moves d) ⟨[], [], []⟩ w) : w.Sound d :=
  (split_of_moves h split_nil).sound

end Decoder

end Lib
