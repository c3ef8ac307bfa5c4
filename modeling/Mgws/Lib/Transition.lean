import Mathlib.Tactic.Basic
/-!
# Runs of a fallible transition system

`step s e` is the effect of event `e` in state `s`; it may fail, and a failed
run has no further states.  Two notions of "along a run" are used.  `Always P`
says that every state of the run, the first included, satisfies `P`.  `Meets C`
says that every step of the run that completes was taken from a state and by an
event that satisfy `C`.
-/

namespace Lib.Transition

variable {σ ε φ : Type} (step : σ → ε → Except φ σ)

def run : σ → List ε → Except φ σ
  | s, [] => .ok s
  | s, e :: es =>
      match step s e with
      | .ok s' => run s' es
      | .error f => .error f

/-- The states some run from `init` reaches by events that satisfy `A`. -/
inductive ReachableBy (A : ε → Prop) (init : σ) : σ → Prop where
  | init : ReachableBy A init init
  | step {s s' : σ} {e : ε} : ReachableBy A init s → A e → step s e = .ok s' →
      ReachableBy A init s'

abbrev Reachable (init : σ) : σ → Prop := ReachableBy step (fun _ => True) init

/-- Every state of the run satisfies `P`. -/
def Always (P : σ → Prop) : σ → List ε → Prop
  | s, [] => P s
  | s, e :: es => P s ∧ ∀ s', step s e = .ok s' → Always P s' es

/-- Every step of the run that completes satisfies `C`. -/
def Meets (C : σ → ε → Prop) : σ → List ε → Prop
  | _, [] => True
  | s, e :: es => ∀ s', step s e = .ok s' → C s e ∧ Meets C s' es

variable {step}

theorem run_append {s s' : σ} {es es' : List ε} (h : run step s es = .ok s') :
    run step s (es ++ es') = run step s' es' := by
  induction es generalizing s with
  | nil =>
      cases h
      rfl
  | cons e es ih =>
      rw [run] at h
      rw [List.cons_append, run]
      cases hs : step s e with
      | error f => simp [hs] at h
      | ok t =>
          rw [hs] at h
          exact ih h

/-! ## Invariants -/

section

variable {A : ε → Prop} {init s : σ}

/-- An invariant holds at the start and is kept by every step from a reachable
state. -/
theorem ReachableBy.invariant {I : σ → Prop} (h : ReachableBy step A init s) (hinit : I init)
    (hstep : ∀ s s' e, ReachableBy step A init s → I s → A e → step s e = .ok s' → I s') :
    I s := by
  induction h with
  | init => exact hinit
  | step hreach hA hs ih => exact hstep _ _ _ hreach ih hA hs

theorem ReachableBy.mono {B : ε → Prop} (h : ReachableBy step A init s)
    (hAB : ∀ e, A e → B e) : ReachableBy step B init s := by
  induction h with
  | init => exact .init
  | step _ hA hs ih => exact .step ih (hAB _ hA) hs

theorem ReachableBy.reachable (h : ReachableBy step A init s) : Reachable step init s :=
  h.mono fun _ _ => trivial

theorem ReachableBy.of_run {s s' : σ} {es : List ε} (h : ReachableBy step A init s)
    (hA : ∀ e ∈ es, A e) (hrun : run step s es = .ok s') : ReachableBy step A init s' := by
  induction es generalizing s with
  | nil =>
      cases hrun
      exact h
  | cons e es ih =>
      rw [run] at hrun
      cases hs : step s e with
      | error f => simp [hs] at hrun
      | ok t =>
          rw [hs] at hrun
          exact ih (h.step (hA e (by simp)) hs) (fun e' he' => hA e' (by simp [he'])) hrun

theorem reachable_of_run (es : List ε) (hrun : run step init es = .ok s) :
    Reachable step init s :=
  ReachableBy.of_run .init (fun _ _ => trivial) hrun

theorem ReachableBy.of_run_error {es : List ε} {f : φ} (h : ReachableBy step A init s)
    (hA : ∀ e ∈ es, A e) (hrun : run step s es = .error f) :
    ∃ t e, ReachableBy step A init t ∧ A e ∧ step t e = .error f := by
  induction es generalizing s with
  | nil => cases hrun
  | cons e es ih =>
      rw [run] at hrun
      cases hs : step s e with
      | error g =>
          rw [hs] at hrun
          cases hrun
          exact ⟨s, e, h, hA e (by simp), hs⟩
      | ok t =>
          rw [hs] at hrun
          exact ih (h.step (hA e (by simp)) hs) (fun e' he' => hA e' (by simp [he'])) hrun

end

/-! ## Properties along a run -/

theorem Always.head {P : σ → Prop} {s : σ} {es : List ε} (h : Always step P s es) : P s := by
  cases es with
  | nil => exact h
  | cons e es => exact h.1

theorem Always.last {P : σ → Prop} {s s' : σ} {es : List ε} (h : Always step P s es)
    (hrun : run step s es = .ok s') : P s' := by
  induction es generalizing s with
  | nil =>
      cases hrun
      exact h
  | cons e es ih =>
      rw [run] at hrun
      cases hs : step s e with
      | error f => simp [hs] at hrun
      | ok t =>
          rw [hs] at hrun
          exact ih (h.2 t hs) hrun

theorem Always.mono {P Q : σ → Prop} {s : σ} {es : List ε} (h : Always step P s es)
    (hPQ : ∀ s, P s → Q s) : Always step Q s es := by
  induction es generalizing s with
  | nil => exact hPQ _ h
  | cons e es ih => exact ⟨hPQ _ h.1, fun s' hs => ih (h.2 s' hs)⟩

section

variable {A : ε → Prop} {init s : σ} {P : σ → Prop} {C : σ → ε → Prop} {es : List ε}

/-- A run whose steps all meet `C` keeps what each step under `C` keeps. -/
theorem Always.of_meets (hreach : ReachableBy step A init s) (hA : ∀ e ∈ es, A e) (hs : P s)
    (hstep : ∀ s s' e, ReachableBy step A init s → P s → A e → C s e →
      step s e = .ok s' → P s')
    (h : Meets step C s es) : Always step P s es := by
  induction es generalizing s with
  | nil => exact hs
  | cons e es ih =>
      refine ⟨hs, fun s' hs' => ?_⟩
      have hAe : A e := hA e (by simp)
      have hC : C s e := (h s' hs').1
      exact ih (hreach.step hAe hs') (fun e' he' => hA e' (by simp [he']))
        (hstep s s' e hreach hs hAe hC hs') (h s' hs').2

theorem Meets.of_always (hreach : ReachableBy step A init s) (hA : ∀ e ∈ es, A e)
    (hstep : ∀ s s' e, ReachableBy step A init s → P s → A e → step s e = .ok s' →
      P s' → C s e)
    (h : Always step P s es) : Meets step C s es := by
  induction es generalizing s with
  | nil => exact trivial
  | cons e es ih =>
      intro s' hs'
      have hAe : A e := hA e (by simp)
      have htail : Always step P s' es := h.2 s' hs'
      exact ⟨hstep s s' e hreach h.1 hAe hs' htail.head,
        ih (hreach.step hAe hs') (fun e' he' => hA e' (by simp [he'])) htail⟩

/-- A run that ends in `P` is in `P` throughout when no step leads into `P` from outside. -/
theorem Always.of_last {s' : σ} (hreach : ReachableBy step A init s) (hA : ∀ e ∈ es, A e)
    (hstep : ∀ s s' e, ReachableBy step A init s → A e → step s e = .ok s' → P s' → P s)
    (hrun : run step s es = .ok s') (h : P s') : Always step P s es := by
  induction es generalizing s with
  | nil =>
      cases hrun
      exact h
  | cons e es ih =>
      rw [run] at hrun
      cases hs : step s e with
      | error f => simp [hs] at hrun
      | ok t =>
          rw [hs] at hrun
          have hAe : A e := hA e (by simp)
          have htail := ih (hreach.step hAe hs) (fun e' he' => hA e' (by simp [he'])) hrun
          refine ⟨hstep s t e hreach hAe hs htail.head, fun u hu => ?_⟩
          rw [hs] at hu
          cases hu
          exact htail

/-- When each step into `P` met `C` and the other way round, a run stays in `P` exactly when
it meets `C`.  `I` is what else is known of the states, as long as the run meets `H`. -/
theorem Always.iff_meets {I : σ → Prop} {H : σ → ε → Prop} (hI : I s) (hP : P s)
    (hinv : ∀ s e s', I s → H s e → C s e → step s e = .ok s' → I s')
    (hstep : ∀ s e s', I s → P s → H s e → step s e = .ok s' → (P s' ↔ C s e))
    (hH : Meets step H s es) : Always step P s es ↔ Meets step C s es := by
  induction es generalizing s with
  | nil => exact ⟨fun _ => trivial, fun _ => hP⟩
  | cons e es ih =>
      have hhead : Always step P s (e :: es) ↔ ∀ s', step s e = .ok s' → Always step P s' es :=
        ⟨fun h => h.2, fun h => ⟨hP, h⟩⟩
      rw [hhead]
      refine forall_congr' fun s' => forall_congr' fun hs => ?_
      obtain ⟨hHe, hHs⟩ := hH s' hs
      have hiff : P s' ↔ C s e := hstep s e s' hI hP hHe hs
      constructor
      · intro h
        have hC : C s e := hiff.mp h.head
        exact ⟨hC, (ih (hinv s e s' hI hHe hC hs) h.head hHs).mp h⟩
      · rintro ⟨hC, h⟩
        exact (ih (hinv s e s' hI hHe hC hs) (hiff.mpr hC) hHs).mpr h

theorem Meets.of_forall (h : ∀ s, ∀ e ∈ es, C s e) : Meets step C s es := by
  induction es generalizing s with
  | nil => exact trivial
  | cons e es ih =>
      intro s' _
      exact ⟨h s e (by simp), ih fun t e' he' => h t e' (by simp [he'])⟩

/-- Conditions that agree in reachable states are met by the same runs. -/
theorem Meets.congr {D : σ → ε → Prop} (hreach : ReachableBy step A init s) (hA : ∀ e ∈ es, A e)
    (hCD : ∀ s e, ReachableBy step A init s → A e → (C s e ↔ D s e)) :
    Meets step C s es ↔ Meets step D s es := by
  induction es generalizing s with
  | nil => exact Iff.rfl
  | cons e es ih =>
      have hAe : A e := hA e (by simp)
      refine forall_congr' fun s' => forall_congr' fun hs => ?_
      exact and_congr (hCD s e hreach hAe)
        (ih (hreach.step hAe hs) fun e' he' => hA e' (by simp [he']))

theorem Meets.congr_of_invariant {I : σ → Prop} {H D : σ → ε → Prop} (hI : I s)
    (hinv : ∀ s e s', I s → H s e → step s e = .ok s' → I s')
    (hCD : ∀ s e, I s → H s e → (C s e ↔ D s e)) (hH : Meets step H s es) :
    Meets step C s es ↔ Meets step D s es := by
  induction es generalizing s with
  | nil => exact Iff.rfl
  | cons e es ih =>
      refine forall_congr' fun s' => forall_congr' fun hs => ?_
      obtain ⟨hHe, hHs⟩ := hH s' hs
      exact and_congr (hCD s e hI hHe) (ih (hinv s e s' hI hHe hs) hHs)

theorem Meets.last {e : ε} {t t' : σ} (h : Meets step C s (es ++ [e]))
    (hrun : run step s es = .ok t) (hlast : step t e = .ok t') : C t e := by
  induction es generalizing s with
  | nil =>
      cases hrun
      exact (h t' hlast).1
  | cons e' es ih =>
      rw [run] at hrun
      cases hs : step s e' with
      | error f => simp [hs] at hrun
      | ok u =>
          rw [hs] at hrun
          exact ih (h u hs).2 hrun

end

end Lib.Transition
