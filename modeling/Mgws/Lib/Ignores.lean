import Mgws.Lib.Program
/-!
# What a program does not use

A program ignores `g` when it makes no difference whether `g` overwrites the state before the
program runs or after.
-/

namespace Lib

variable {σ ε φ α β : Type}

def Outcome.mapState (g : σ → σ) : Outcome σ ε φ α → Outcome σ ε φ α
  | ret a s => ret a (g s)
  | throw e s => throw e (g s)
  | fault f => fault f

namespace Program

/-- `x` neither reads nor writes what `g` overwrites. -/
def Ignores (g : σ → σ) (x : Program σ ε φ α) : Prop := ∀ s, x.run (g s) = (x.run s).mapState g

namespace Ignores

variable {g : σ → σ}

theorem pure (a : α) : Ignores g (Pure.pure a : Program σ ε φ α) := fun _ => rfl

theorem raise (e : ε) : Ignores g (Program.raise e : Program σ ε φ α) := fun _ => rfl

theorem abort (f : φ) : Ignores g (Program.abort f : Program σ ε φ α) := fun _ => rfl

theorem ofExcept (x : Except ε α) : Ignores g (Program.ofExcept x : Program σ ε φ α) := by
  cases x with
  | ok a => exact pure a
  | error e => exact raise e

theorem modify {f : σ → σ} (h : ∀ s, f (g s) = g (f s)) :
    Ignores g (Program.modify f : Program σ ε φ Unit) := by
  intro s
  rw [run_modify, run_modify, h]
  rfl

theorem bind {x : Program σ ε φ α} {f : α → Program σ ε φ β} (hx : Ignores g x)
    (hf : ∀ a, Ignores g (f a)) : Ignores g (x >>= f) := by
  intro s
  rw [run_bind, run_bind, hx s]
  cases x.run s with
  | ret a s' => exact hf a s'
  | throw e s' => rfl
  | fault e => rfl

theorem tryCatch {x : Program σ ε φ α} {f : ε → Program σ ε φ α} (hx : Ignores g x)
    (hf : ∀ e, Ignores g (f e)) : Ignores g (tryCatch x f) := by
  intro s
  simp only [Program.tryCatch, hx s]
  cases x.run s with
  | ret a s' => rfl
  | throw e s' => exact hf e s'
  | fault e => rfl

/-- What follows a read may use what `g` leaves alone. -/
theorem get {f : σ → Program σ ε φ α} (h : ∀ s, f (g s) = f s) (hf : ∀ s, Ignores g (f s)) :
    Ignores g (Program.get >>= f) := by
  intro s
  rw [bind_of_ret (run_get _), bind_of_ret (run_get _), h]
  exact hf s s

theorem fixed {x : Program σ ε φ α} (h : Ignores g x) {s s' : σ} {a : α} (hs : g s = s)
    (hrun : x.run s = .ret a s') : g s' = s' := by
  have hg := h s
  rw [hs, hrun] at hg
  exact (Outcome.ret.inj hg).2.symm

end Ignores

end Program

end Lib
