import Mgws.Lib.Program
import Mgws.Lib.Transition
/-!
# Two runs side by side

Two programs agree along a relation of states when from related states they end in the same way,
with the same result, and in related states.  In a transition system a relation that single steps
keep is kept by whole runs.
-/

namespace Lib

section

variable {σ τ ε φ α β : Type}

/-- The same ending, in states that `R` relates. -/
inductive Outcome.Related (R : σ → τ → Prop) : Outcome σ ε φ α → Outcome τ ε φ α → Prop where
  | ret {s t} (a : α) (h : R s t) : Related R (.ret a s) (.ret a t)
  | throw {s t} (e : ε) (h : R s t) : Related R (.throw e s) (.throw e t)
  | fault (f : φ) : Related R (.fault f) (.fault f)

namespace Program

def Agree (R : σ → τ → Prop) (x : Program σ ε φ α) (y : Program τ ε φ α) : Prop :=
  ∀ s t, R s t → (x.run s).Related R (y.run t)

namespace Agree

variable {R : σ → τ → Prop}

theorem pure (a : α) :
    Agree R (Pure.pure a : Program σ ε φ α) (Pure.pure a : Program τ ε φ α) :=
  fun _ _ h => .ret a h

theorem raise (e : ε) :
    Agree R (Program.raise e : Program σ ε φ α) (Program.raise e : Program τ ε φ α) :=
  fun _ _ h => .throw e h

theorem ofExcept (x : Except ε α) :
    Agree R (Program.ofExcept x : Program σ ε φ α) (Program.ofExcept x : Program τ ε φ α) := by
  cases x with
  | ok a => exact pure a
  | error e => exact raise e

theorem modify {g : σ → σ} {h : τ → τ} (hR : ∀ s t, R s t → R (g s) (h t)) :
    Agree R (Program.modify g : Program σ ε φ Unit) (Program.modify h : Program τ ε φ Unit) :=
  fun s t hst => .ret () (hR s t hst)

theorem bind {x : Program σ ε φ α} {y : Program τ ε φ α} {f : α → Program σ ε φ β}
    {g : α → Program τ ε φ β} (hxy : Agree R x y) (hfg : ∀ a, Agree R (f a) (g a)) :
    Agree R (x >>= f) (y >>= g) := by
  intro s t hst
  have h := hxy s t hst
  rw [run_bind, run_bind]
  cases hx : x.run s <;> cases hy : y.run t <;> rw [hx, hy] at h <;> cases h
  · next h => exact hfg _ _ _ h
  · next h => exact .throw _ h
  · exact .fault _

theorem read {f : σ → Program σ ε φ α} {g : τ → Program τ ε φ α}
    (hfg : ∀ s t, R s t → Agree R (f s) (g t)) : Agree R (get >>= f) (get >>= g) :=
  fun s t hst => hfg s t hst s t hst

theorem tryCatch {x : Program σ ε φ α} {y : Program τ ε φ α} {f : ε → Program σ ε φ α}
    {g : ε → Program τ ε φ α} (hxy : Agree R x y) (hfg : ∀ e, Agree R (f e) (g e)) :
    Agree R (Program.tryCatch x f) (Program.tryCatch y g) := by
  intro s t hst
  have h := hxy s t hst
  simp only [Program.tryCatch]
  cases hx : x.run s <;> cases hy : y.run t <;> rw [hx, hy] at h <;> cases h
  · next h => exact .ret _ h
  · next h => exact hfg _ _ _ h
  · exact .fault _

end Agree

end Program

end

namespace Transition

variable {σ τ ε ε' φ φ' : Type} {step : σ → ε → Except φ σ} {step' : τ → ε' → Except φ' τ}

theorem run_related {R : σ → τ → Prop} {E : ε → ε' → Prop}
    (hstep : ∀ s t e e' s', R s t → E e e' → step s e = .ok s' →
      ∃ t', step' t e' = .ok t' ∧ R s' t')
    {s s' : σ} {t : τ} {es : List ε} {es' : List ε'} (hst : R s t) (hes : List.Forall₂ E es es')
    (hrun : run step s es = .ok s') : ∃ t', run step' t es' = .ok t' ∧ R s' t' := by
  induction hes generalizing s t with
  | nil =>
      cases hrun
      exact ⟨t, rfl, hst⟩
  | @cons e e' es es' he _ ih =>
      rw [run] at hrun
      cases hs : step s e with
      | error f => simp [hs] at hrun
      | ok u =>
          rw [hs] at hrun
          obtain ⟨u', hu', huu'⟩ := hstep s t e e' u hst he hs
          obtain ⟨t', ht', hs't'⟩ := ih huu' hrun
          exact ⟨t', by rw [run, hu']; exact ht', hs't'⟩

end Transition

end Lib
