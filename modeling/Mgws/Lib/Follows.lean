import Mgws.Lib.Program
import Mgws.Lib.Transition
/-!
# Programs that follow a transition system

A program follows a transition system when whatever it does is a run of it: the program ends in
the state to which some events lead, or with the fault with which they end.
-/

namespace Lib

variable {σ ε φ η α β : Type} {step : σ → η → Except φ σ} {A B : η → Prop} {s s' t : σ}

def Transition.Leads (step : σ → η → Except φ σ) (A : η → Prop) (s s' : σ) : Prop :=
  ∃ es, (∀ e ∈ es, A e) ∧ run step s es = .ok s'

namespace Transition.Leads

theorem refl (s : σ) : Leads step A s s :=
  ⟨[], fun _ he => absurd he List.not_mem_nil, rfl⟩

theorem single {e : η} (he : A e) (h : step s e = .ok s') : Leads step A s s' :=
  ⟨[e], fun e' he' => List.mem_singleton.mp he' ▸ he, by rw [run, h]; rfl⟩

theorem trans (h : Leads step A s t) (h' : Leads step A t s') : Leads step A s s' := by
  obtain ⟨es, hes, hrun⟩ := h
  obtain ⟨es', hes', hrun'⟩ := h'
  exact ⟨es ++ es', List.forall_mem_append.mpr ⟨hes, hes'⟩, (run_append hrun).trans hrun'⟩

theorem mono (h : Leads step A s s') (hAB : ∀ e, A e → B e) : Leads step B s s' := by
  obtain ⟨es, hes, hrun⟩ := h
  exact ⟨es, fun e he => hAB e (hes e he), hrun⟩

theorem reachable {init : σ} (h : Leads step A s s') (hs : ReachableBy step A init s) :
    ReachableBy step A init s' := by
  obtain ⟨es, hes, hrun⟩ := h
  exact hs.of_run hes hrun

theorem invariant {I : σ → Prop} (h : Leads step A s s') (hs : I s)
    (hstep : ∀ t u e, I t → A e → step t e = .ok u → I u) : I s' := by
  obtain ⟨es, hes, hrun⟩ := h
  induction es generalizing s with
  | nil =>
      cases hrun
      exact hs
  | cons e es ih =>
      obtain ⟨he, hrest⟩ := List.forall_mem_cons.mp hes
      rw [run] at hrun
      cases ht : step s e with
      | error f => simp [ht] at hrun
      | ok t =>
          rw [ht] at hrun
          exact ih (hstep s t e hs he ht) hrest hrun

end Transition.Leads

namespace Program

open Transition

/-- From `s` on, the program takes steps by events that satisfy `A`, and throws nothing. -/
def Follows (step : σ → η → Except φ σ) (A : η → Prop) (s : σ) (x : Program σ ε φ α) : Prop :=
  match x.run s with
  | .ret _ s' => Leads step A s s'
  | .throw _ _ => False
  | .fault f => ∃ es, (∀ e ∈ es, A e) ∧ Transition.run step s es = .error f

namespace Follows

variable {x y : Program σ ε φ α} {f : α → Program σ ε φ β}

theorem leads (h : Follows step A s x) {a : α} (hrun : x.run s = .ret a s') :
    Leads step A s s' := by
  rwa [Follows, hrun] at h

theorem of_ret {a : α} (hrun : x.run s = .ret a s') (h : Leads step A s s') :
    Follows step A s x := by
  rwa [Follows, hrun]

theorem pure (a : α) : Follows step A s (Pure.pure a : Program σ ε φ α) := .refl s

theorem mono (h : Follows step A s x) (hAB : ∀ e, A e → B e) : Follows step B s x := by
  unfold Follows at h ⊢
  cases hrun : x.run s with
  | ret a s' =>
      rw [hrun] at h
      exact Leads.mono h hAB
  | throw e s' =>
      rw [hrun] at h
      exact h
  | fault g =>
      rw [hrun] at h
      obtain ⟨es, hes, herror⟩ := h
      exact ⟨es, fun e he => hAB e (hes e he), herror⟩

theorem congr (h : Follows step A s x) (hrun : y.run s = x.run s) : Follows step A s y := by
  rwa [Follows, hrun]

theorem bind (hx : Follows step A s x)
    (hf : ∀ a s', x.run s = .ret a s' → Leads step A s s' → Follows step A s' (f a)) :
    Follows step A s (x >>= f) := by
  cases hrun : x.run s with
  | ret a s' =>
      have hleads := hx.leads hrun
      have hrest := hf a s' hrun hleads
      rw [Follows, bind_of_ret hrun]
      cases hrun' : (f a).run s' with
      | ret b t => exact hleads.trans (hrest.leads hrun')
      | throw e t =>
          rw [Follows, hrun'] at hrest
          exact hrest
      | fault g =>
          rw [Follows, hrun'] at hrest
          obtain ⟨es, hes, hok⟩ := hleads
          obtain ⟨es', hes', herror⟩ := hrest
          exact ⟨es ++ es', List.forall_mem_append.mpr ⟨hes, hes'⟩,
            (run_append hok).trans herror⟩
  | throw e s' =>
      rw [Follows, hrun] at hx
      exact hx.elim
  | fault g =>
      rw [Follows, hrun] at hx
      rw [Follows, bind_of_fault hrun]
      exact hx

theorem get {f : σ → Program σ ε φ α} (h : Follows step A s (f s)) :
    Follows step A s (Program.get >>= f) :=
  h.congr (bind_of_ret (run_get s))

theorem event {e : η} (he : A e) (hret : ∀ a s', x.run s = .ret a s' → step s e = .ok s')
    (hthrow : ∀ g s', x.run s ≠ .throw g s')
    (hfault : ∀ g, x.run s = .fault g → step s e = .error g) : Follows step A s x := by
  cases hrun : x.run s with
  | ret a s' => exact .of_ret hrun (.single he (hret a s' hrun))
  | throw g s' => exact absurd hrun (hthrow g s')
  | fault g =>
      rw [Follows, hrun]
      refine ⟨[e], fun e' he' => List.mem_singleton.mp he' ▸ he, ?_⟩
      rw [Transition.run, hfault g hrun]

end Follows

end Program

end Lib
