import Mathlib.Tactic.Basic
import Mathlib.Data.List.Basic
/-!
# Imperative programs with exceptions and faults

A program reads and writes a state of type `σ`.  It ends in one of three ways:
it returns, it throws an exception of type `ε` that a handler may catch and that
keeps the state reached so far, or it faults.  A fault of type `φ` stands for
undefined behaviour: no handler sees it and nothing follows it.

`Triple` is the judgment with one postcondition for each ending.
-/

namespace Lib

inductive Outcome (σ ε φ α : Type) where
  | ret (a : α) (s : σ)
  | throw (e : ε) (s : σ)
  | fault (f : φ)

@[ext]
structure Program (σ ε φ α : Type) where
  run : σ → Outcome σ ε φ α

namespace Program

variable {σ ε φ α β : Type}

instance : Monad (Program σ ε φ) where
  pure a := ⟨fun s => .ret a s⟩
  bind x f := ⟨fun s =>
    match x.run s with
    | .ret a s' => (f a).run s'
    | .throw e s' => .throw e s'
    | .fault g => .fault g⟩

def get : Program σ ε φ σ := ⟨fun s => .ret s s⟩

def modify (g : σ → σ) : Program σ ε φ Unit := ⟨fun s => .ret () (g s)⟩

def raise (e : ε) : Program σ ε φ α := ⟨fun s => .throw e s⟩

def abort (f : φ) : Program σ ε φ α := ⟨fun _ => .fault f⟩

def tryCatch (x : Program σ ε φ α) (h : ε → Program σ ε φ α) : Program σ ε φ α :=
  ⟨fun s =>
    match x.run s with
    | .ret a s' => .ret a s'
    | .throw e s' => (h e).run s'
    | .fault f => .fault f⟩

def ofExcept : Except ε α → Program σ ε φ α
  | .ok a => pure a
  | .error e => raise e

/-! ## Equations -/

@[simp] theorem run_pure (a : α) (s : σ) :
    (pure a : Program σ ε φ α).run s = .ret a s := rfl

theorem run_bind (x : Program σ ε φ α) (f : α → Program σ ε φ β) (s : σ) :
    (x >>= f).run s =
      match x.run s with
      | .ret a s' => (f a).run s'
      | .throw e s' => .throw e s'
      | .fault g => .fault g := rfl

@[simp] theorem run_get (s : σ) : (get : Program σ ε φ σ).run s = .ret s s := rfl

@[simp] theorem run_modify (g : σ → σ) (s : σ) :
    (modify g : Program σ ε φ Unit).run s = .ret () (g s) := rfl

@[simp] theorem run_raise (e : ε) (s : σ) :
    (raise e : Program σ ε φ α).run s = .throw e s := rfl

@[simp] theorem run_abort (f : φ) (s : σ) :
    (abort f : Program σ ε φ α).run s = .fault f := rfl

@[simp] theorem ofExcept_ok (a : α) :
    (ofExcept (.ok a) : Program σ ε φ α) = pure a := rfl

@[simp] theorem ofExcept_error (e : ε) :
    (ofExcept (.error e) : Program σ ε φ α) = raise e := rfl

theorem bind_of_ret {x : Program σ ε φ α} {f : α → Program σ ε φ β} {s s' : σ} {a : α}
    (h : x.run s = .ret a s') : (x >>= f).run s = (f a).run s' := by
  rw [run_bind, h]

theorem bind_of_throw {x : Program σ ε φ α} {f : α → Program σ ε φ β} {s s' : σ} {e : ε}
    (h : x.run s = .throw e s') : (x >>= f).run s = .throw e s' := by
  rw [run_bind, h]

theorem bind_of_fault {x : Program σ ε φ α} {f : α → Program σ ε φ β} {s : σ} {g : φ}
    (h : x.run s = .fault g) : (x >>= f).run s = .fault g := by
  rw [run_bind, h]

theorem ret_of_bind {x : Program σ ε φ α} {f : α → Program σ ε φ β} {s s' : σ} {b : β}
    (h : (x >>= f).run s = .ret b s') :
    ∃ a t, x.run s = .ret a t ∧ (f a).run t = .ret b s' := by
  cases hx : x.run s with
  | ret a t => exact ⟨a, t, rfl, by rwa [bind_of_ret hx] at h⟩
  | throw e t => simp [bind_of_throw hx] at h
  | fault g => simp [bind_of_fault hx] at h

theorem tryCatch_of_ret {x : Program σ ε φ α} {h : ε → Program σ ε φ α} {s s' : σ} {a : α}
    (hx : x.run s = .ret a s') : (tryCatch x h).run s = .ret a s' := by
  simp only [tryCatch, hx]

theorem tryCatch_of_throw {x : Program σ ε φ α} {h : ε → Program σ ε φ α} {s s' : σ} {e : ε}
    (hx : x.run s = .throw e s') : (tryCatch x h).run s = (h e).run s' := by
  simp only [tryCatch, hx]

theorem tryCatch_of_fault {x : Program σ ε φ α} {h : ε → Program σ ε φ α} {s : σ} {f : φ}
    (hx : x.run s = .fault f) : (tryCatch x h).run s = .fault f := by
  simp only [tryCatch, hx]

instance : LawfulMonad (Program σ ε φ) :=
  have hbind : ∀ {α β γ : Type} (x : Program σ ε φ α) (f : α → Program σ ε φ β)
      (g : β → Program σ ε φ γ), x >>= f >>= g = x >>= fun a => f a >>= g := by
    intro α β γ x f g
    ext s
    simp only [run_bind]
    cases x.run s <;> rfl
  have hmap : ∀ {α : Type} (x : Program σ ε φ α), id <$> x = x := by
    intro α x
    ext s
    show (x >>= fun a => pure (id a)).run s = x.run s
    rw [run_bind]
    cases x.run s <;> rfl
  LawfulMonad.mk' _ hmap (fun _ _ => rfl) hbind

/-! ## Loops -/

/-- A loop whose body never writes folds the values the body computes; `r` says
which accumulators the loop goes through. -/
theorem foldlM_of_read {γ δ : Type} {f : β → γ → Program σ ε φ β} {r : δ → β}
    {g : δ → γ → δ} {s : σ} (xs : List γ) (init : δ)
    (hf : ∀ d, ∀ x ∈ xs, (f (r d) x).run s = .ret (r (g d x)) s) :
    (xs.foldlM f (r init)).run s = .ret (r (xs.foldl g init)) s := by
  induction xs generalizing init with
  | nil => rfl
  | cons x xs ih =>
      rw [List.foldlM_cons, bind_of_ret (hf init x (by simp)), List.foldl_cons]
      exact ih _ (fun d y hy => hf d y (by simp [hy]))

theorem foldlM_of_write {γ : Type} {f : Unit → γ → Program σ ε φ Unit} {w : σ → γ → σ}
    {I : σ → Prop} {s : σ} (xs : List γ) (hs : I s)
    (hf : ∀ s, I s → ∀ x ∈ xs, (f () x).run s = .ret () (w s x) ∧ I (w s x)) :
    (xs.foldlM f ()).run s = .ret () (xs.foldl w s) := by
  induction xs generalizing s with
  | nil => rfl
  | cons x xs ih =>
      obtain ⟨hrun, hI⟩ := hf s hs x (by simp)
      rw [List.foldlM_cons, bind_of_ret hrun, List.foldl_cons]
      exact ih hI fun t ht y hy => hf t ht y (by simp [hy])

theorem foldlM_of_fault {γ : Type} {f : β → γ → Program σ ε φ β} {I : β → σ → Prop}
    {init : β} {s : σ} (xs : List γ) (hs : I init s)
    (hf : ∀ b s, I b s → ∀ x ∈ xs,
      (∃ b' s', (f b x).run s = .ret b' s' ∧ I b' s') ∨ ∃ e, (f b x).run s = .fault e)
    (hbad : ∃ x ∈ xs, ∀ b s, I b s → ∃ e, (f b x).run s = .fault e) :
    ∃ e, (xs.foldlM f init).run s = .fault e := by
  induction xs generalizing init s with
  | nil => simp at hbad
  | cons x xs ih =>
      rw [List.foldlM_cons]
      rcases hf init s hs x (by simp) with ⟨b', s', hret, hs'⟩ | ⟨e, he⟩
      · rw [bind_of_ret hret]
        apply ih hs'
        · exact fun b t ht y hy => hf b t ht y (by simp [hy])
        · obtain ⟨y, hy, hfault⟩ := hbad
          rcases List.mem_cons.mp hy with rfl | hmem
          · obtain ⟨e, he⟩ := hfault init s hs
            rw [he] at hret
            cases hret
          · exact ⟨y, hmem, hfault⟩
      · exact ⟨e, bind_of_fault he⟩

/-! ## Triples -/

/-- From every state in `P`, the program returns into `Q`, throws into `E`, or
faults with a fault in `F`. -/
def Triple (P : σ → Prop) (x : Program σ ε φ α) (Q : α → σ → Prop) (E : σ → Prop)
    (F : φ → Prop) : Prop :=
  ∀ s, P s →
    match x.run s with
    | .ret a s' => Q a s'
    | .throw _ s' => E s'
    | .fault f => F f

namespace Triple

variable {P : σ → Prop} {Q : α → σ → Prop} {R : β → σ → Prop} {E : σ → Prop} {F : φ → Prop}

theorem pure {a : α} (h : ∀ s, P s → Q a s) :
    Triple P (Pure.pure a : Program σ ε φ α) Q E F :=
  fun s hs => h s hs

theorem bind {x : Program σ ε φ α} {f : α → Program σ ε φ β} (hx : Triple P x Q E F)
    (hf : ∀ a, Triple (Q a) (f a) R E F) : Triple P (x >>= f) R E F := by
  intro s hs
  have h := hx s hs
  rw [run_bind]
  cases hrun : x.run s with
  | ret a s' => rw [hrun] at h; exact hf a s' h
  | throw e s' => rw [hrun] at h; exact h
  | fault g => rw [hrun] at h; exact h

theorem modify {g : σ → σ} {Q : Unit → σ → Prop} (h : ∀ s, P s → Q () (g s)) :
    Triple P (Program.modify g : Program σ ε φ Unit) Q E F :=
  fun s hs => h s hs

end Triple

/-! ## Invariants -/

/-- However `x` ends, the state satisfies `I` if it did at the start. -/
def Preserves (I : σ → Prop) (x : Program σ ε φ α) : Prop :=
  Triple I x (fun _ => I) I fun _ => True

namespace Preserves

variable {I : σ → Prop}

theorem pure (a : α) : Preserves I (Pure.pure a : Program σ ε φ α) := fun _ hs => hs

theorem raise (e : ε) : Preserves I (Program.raise e : Program σ ε φ α) := fun _ hs => hs

theorem abort (f : φ) : Preserves I (Program.abort f : Program σ ε φ α) := fun _ _ => trivial

theorem read : Preserves I (Program.get : Program σ ε φ σ) := fun _ hs => hs

theorem ofExcept (x : Except ε α) : Preserves I (Program.ofExcept x : Program σ ε φ α) := by
  cases x with
  | ok a => exact pure a
  | error e => exact raise e

theorem modify {g : σ → σ} (h : ∀ s, I s → I (g s)) :
    Preserves I (Program.modify g : Program σ ε φ Unit) :=
  Triple.modify h

theorem bind {x : Program σ ε φ α} {f : α → Program σ ε φ β} (hx : Preserves I x)
    (hf : ∀ a, Preserves I (f a)) : Preserves I (x >>= f) :=
  Triple.bind hx hf

theorem get {f : σ → Program σ ε φ α} (h : ∀ t, Triple (fun s => I s ∧ s = t) (f t)
    (fun _ => I) I fun _ => True) : Preserves I (Program.get >>= f) :=
  fun s hs => h s s ⟨hs, rfl⟩

theorem tryCatch {x : Program σ ε φ α} {f : ε → Program σ ε φ α} (hx : Preserves I x)
    (hf : ∀ e, Preserves I (f e)) : Preserves I (tryCatch x f) := by
  intro s hs
  have h := hx s hs
  simp only [Program.tryCatch]
  cases hrun : x.run s with
  | ret a s' => rw [hrun] at h; exact h
  | throw e s' => rw [hrun] at h; exact hf e s' h
  | fault g => trivial

end Preserves

end Program

end Lib
