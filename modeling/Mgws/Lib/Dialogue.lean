import Mathlib.Logic.Function.Basic
import Mathlib.Tactic.Basic
/-!
# Offers between two parties

Two parties signal to each other over channels that lose, invent and reorder nothing.
A party makes an offer and may withdraw it.  `waits` and `offers` say which states are
those of a party that waits for what comes of an offer, and of one that stands by the
offer it has made.

`Agreement` says that who waits when everything in flight has arrived waits for an
offer that stands.  The steps of `Step` are guarded, and keep it.  A party that waits for
no offer is forsaken, and what is in flight does not help it.
-/

namespace Lib.Dialogue

inductive Signal where
  | offer
  | withdrawal
  deriving DecidableEq, Repr

/-- A party and the signals in flight to it, oldest first. -/
structure Side (σ : Type) where
  state : σ
  pending : List Signal

variable {σ : Type} (waits offers : σ → Prop)

/-- The party waits when it has received what is in flight: an offer makes it wait, and a
withdrawal ends that. -/
def Side.Awaits (s : Side σ) : Prop :=
  match s.pending.getLast? with
  | none => waits s.state
  | some .offer => True
  | some .withdrawal => False

/-- Who waits waits for an offer. -/
def Agreement (d : Bool → Side σ) : Prop :=
  ∀ x, (d x).Awaits waits → offers (d !x).state

inductive Step : (Bool → Side σ) → (Bool → Side σ) → Prop where
  | stutter {d} : Step d d
  /-- A party changes its state. -/
  | move {d} (x : Bool) (t : σ) (hwaits : waits t → waits (d x).state)
      (hoffers : (d !x).Awaits waits → offers t) :
      Step d (Function.update d x { d x with state := t })
  /-- A party that stands by an offer makes it. -/
  | offer {d} (x : Bool) (hoffers : offers (d x).state) :
      Step d (Function.update d (!x) { d !x with pending := (d !x).pending ++ [.offer] })
  /-- A party takes its offer back. -/
  | withdraw {d} (x : Bool) (t : σ) (hwaits : waits t → waits (d x).state) :
      Step d (Function.update (Function.update d x { d x with state := t }) (!x)
        { d !x with pending := (d !x).pending ++ [.withdrawal] })
  /-- A party receives a signal. -/
  | receive {d} (x : Bool) (t : σ) {signal : Signal} {rest : List Signal}
      (hpending : (d x).pending = signal :: rest) (hoffers : (d !x).Awaits waits → offers t)
      (hwaits : rest = [] → waits t → signal = .offer ∨ offers (d !x).state) :
      Step d (Function.update d x { state := t, pending := rest })

variable {waits offers} {s : Side σ} {d d' : Bool → Side σ}

theorem awaits_nil (h : s.pending = []) : s.Awaits waits ↔ waits s.state := by
  rw [Side.Awaits, h]
  rfl

theorem awaits_offered (state : σ) (pending : List Signal) :
    Side.Awaits waits { state := state, pending := pending ++ [.offer] } := by
  rw [Side.Awaits, List.getLast?_concat]
  trivial

theorem not_awaits_withdrawn (state : σ) (pending : List Signal) :
    ¬Side.Awaits waits { state := state, pending := pending ++ [.withdrawal] } := by
  rw [Side.Awaits, List.getLast?_concat]
  exact id

theorem awaits_move {t : σ} (hwaits : waits t → waits s.state)
    (h : Side.Awaits waits { s with state := t }) : s.Awaits waits := by
  revert h
  simp only [Side.Awaits]
  cases s.pending.getLast? with
  | none => exact hwaits
  | some signal => cases signal <;> exact id

theorem awaits_receive {t : σ} {signal : Signal} {rest : List Signal}
    (hpending : s.pending = signal :: rest)
    (h : Side.Awaits waits { state := t, pending := rest }) :
    s.Awaits waits ∨ rest = [] ∧ waits t := by
  cases hlast : rest.getLast? with
  | none =>
      obtain rfl := List.getLast?_eq_none_iff.mp hlast
      exact .inr ⟨rfl, h⟩
  | some last =>
      left
      rw [Side.Awaits, hlast] at h
      rw [Side.Awaits, hpending, List.getLast?_cons, hlast]
      cases last <;> exact h

theorem not_ne (x : Bool) : (!x) ≠ x := by cases x <;> simp

theorem eq_or_eq_not (x y : Bool) : y = x ∨ y = !x := by cases x <;> cases y <;> simp

theorem Step.agreement (h : Step waits offers d d') (hagree : Agreement waits offers d) :
    Agreement waits offers d' := by
  intro y hy
  cases h with
  | stutter => exact hagree y hy
  | move x t hwaits hoffers =>
      rcases eq_or_eq_not x y with rfl | rfl
      · rw [Function.update_self] at hy
        rw [Function.update_of_ne (not_ne y)]
        exact hagree y (awaits_move hwaits hy)
      · rw [Function.update_of_ne (not_ne x)] at hy
        rw [Bool.not_not, Function.update_self]
        exact hoffers hy
  | offer x hoffers =>
      rcases eq_or_eq_not x y with rfl | rfl
      · rw [Function.update_of_ne (not_ne y).symm] at hy
        rw [Function.update_self]
        exact hagree y hy
      · rw [Bool.not_not, Function.update_of_ne (not_ne x).symm]
        exact hoffers
  | withdraw x t hwaits =>
      rcases eq_or_eq_not x y with rfl | rfl
      · rw [Function.update_of_ne (not_ne y).symm, Function.update_self] at hy
        rw [Function.update_self]
        exact hagree y (awaits_move hwaits hy)
      · rw [Function.update_self] at hy
        exact absurd hy (not_awaits_withdrawn _ _)
  | receive x t hpending hoffers hwaits =>
      rcases eq_or_eq_not x y with rfl | rfl
      · rw [Function.update_self] at hy
        rw [Function.update_of_ne (not_ne y)]
        rcases awaits_receive hpending hy with hold | ⟨rfl, hnow⟩
        · exact hagree y hold
        · rcases hwaits rfl hnow with rfl | hoffered
          · exact hagree y (by rw [Side.Awaits, hpending]; trivial)
          · exact hoffered
      · rw [Function.update_of_ne (not_ne x)] at hy
        rw [Bool.not_not, Function.update_self]
        exact hoffers hy

/-! ## Parties that wait for nothing -/

/-- `x` will wait, and the other party stands by no offer. -/
def Forsaken (waits offers : σ → Prop) (d : Bool → Side σ) (x : Bool) : Prop :=
  (d x).Awaits waits ∧ ¬offers (d !x).state

section

variable {x : Bool} {t : σ} {signal : Signal} {pending rest : List Signal}

/-- Nobody may leave an offer that the other party waits for. -/
theorem forsaken_of_leave (h : (d !x).Awaits waits) (ht : ¬offers t) :
    Forsaken waits offers (Function.update d x { state := t, pending := pending }) (!x) := by
  rw [Forsaken, Function.update_of_ne (not_ne x), Bool.not_not, Function.update_self]
  exact ⟨h, ht⟩

/-- Nobody may make an offer without standing by it. -/
theorem forsaken_of_offer (h : ¬offers (d x).state) :
    Forsaken waits offers
      (Function.update d (!x) { d !x with pending := (d !x).pending ++ [.offer] }) (!x) := by
  rw [Forsaken, Function.update_self, Bool.not_not, Function.update_of_ne (not_ne x).symm]
  exact ⟨awaits_offered _ _, h⟩

/-- A withdrawal must be heard. -/
theorem forsaken_of_unheard (ht : waits t) (h : ¬offers (d !x).state) :
    Forsaken waits offers (Function.update d x { state := t, pending := [] }) x := by
  rw [Forsaken, Function.update_self, Function.update_of_ne (not_ne x)]
  exact ⟨(awaits_nil rfl).mpr ht, h⟩

theorem Forsaken.receive (h : Forsaken waits offers d x)
    (hpending : (d x).pending = signal :: rest) (ht : signal = .offer → waits t) :
    Forsaken waits offers (Function.update d x { state := t, pending := rest }) x := by
  rw [Forsaken, Function.update_self, Function.update_of_ne (not_ne x)]
  refine ⟨?_, h.2⟩
  have hawaits := h.1
  rw [Side.Awaits, hpending, List.getLast?_cons] at hawaits
  rw [Side.Awaits]
  cases hlast : rest.getLast? with
  | none =>
      rw [hlast] at hawaits
      cases signal with
      | offer => exact ht rfl
      | withdrawal => exact hawaits.elim
  | some last =>
      rw [hlast] at hawaits
      cases last with
      | offer => trivial
      | withdrawal => exact hawaits

end

end Lib.Dialogue
