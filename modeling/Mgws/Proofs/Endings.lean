import Mgws.Proofs.Events
/-!
# How a call ends

`EndCall` closes the connection of a call and puts another one in its place, and
every way out of a call but a click on a row goes through it.  It does nothing
when there is no local stream.
-/

namespace Mgws.Browser

open Lib Program

def CallState.active : CallState → Bool
  | calling | ringing | connected => true
  | idle | identified => false

/-- The connection of `c` is closed, and in its place is one that is open and did not
exist in `c`. -/
def Replaced (c c' : Client) : Prop :=
  ∃ pc pc', c.pc = some pc ∧ pc.number ∈ c'.closed ∧
    c'.pc = some pc' ∧ c.connections ≤ pc'.number ∧ pc'.number ∉ c'.closed

section

variable {c c' : Client} {e : Event}

theorem replaced_of_ended (h : Numbered c.line) (hpc : c'.line.pc = c.line.ended.pc)
    (hclosed : c'.line.closed = c.line.ended.closed) : Replaced c c' := by
  obtain ⟨n, hn, hlt, -⟩ := h.current
  obtain ⟨pc, hc, rfl⟩ := Option.map_eq_some_iff.mp hn
  rw [Line.ended, hn] at hpc hclosed
  obtain ⟨pc', hc', hnumber⟩ := Option.map_eq_some_iff.mp hpc
  have hclosed : c'.closed = c.closed ++ [pc.number] := hclosed
  have hnumber : pc'.number = c.connections := hnumber
  refine ⟨pc, pc', hc, by simp [hclosed], hc', Nat.le_of_eq hnumber.symm, fun hmem => ?_⟩
  rw [hclosed, hnumber] at hmem
  rcases List.mem_append.mp hmem with hold | hold
  · exact absurd (h.closed _ hold) (Nat.lt_irrefl _)
  · exact absurd (List.mem_singleton.mp hold).symm (Nat.ne_of_lt hlt)

/-! ## Ways out of a call -/

/-- A step out of a call ends the call. -/
def EndsProperly (c : Client) (e : Event) : Prop :=
  c.callState.active → ¬(c.after e).callState.active → Replaced c (c.after e)

def SelectsInCall (c : Client) (e : Event) : Prop :=
  c.callState.active ∧ ∃ i < c.rows.length, e = .rowClick i

theorem Did.leaves {l : Line} (h : Did c e l) (hactive : c.callState.active)
    (hleft : ¬l.callState.active) :
    SelectsInCall c e ∨ l.pc = c.line.ended.pc ∧ l.closed = c.line.ended.closed := by
  cases h with
  | nothing | signalled => exact absurd hactive hleft
  | dialled | rang | connected => exact absurd rfl hleft
  | @selected i tr hrow =>
      exact .inl ⟨hactive, i, (List.getElem?_eq_some_iff.mp hrow).1, rfl⟩
  | hungUp | released | vanished => exact .inr ⟨rfl, rfl⟩

/-- A click on a row closes no connection. -/
theorem not_endsProperly_of_selects (h : Numbered c.line) (hselects : SelectsInCall c e) :
    ¬EndsProperly c e := by
  obtain ⟨hactive, i, hi, rfl⟩ := hselects
  have hline := line_rowClick (List.getElem?_eq_getElem hi)
  have hleft : (c.after (.rowClick i)).callState = .identified := congrArg Line.callState hline
  have hclosed : (c.after (.rowClick i)).closed = c.closed := congrArg Line.closed hline
  intro hends
  obtain ⟨pc, -, hpc, hmem, -⟩ := hends hactive (by rw [hleft]; decide)
  obtain ⟨n, hn, -, hopen⟩ := h.current
  rw [show c.line.pc = some pc.number from congrArg (Option.map _) hpc] at hn
  cases hn
  rw [hclosed] at hmem
  exact hopen hmem

theorem endsProperly_iff (h : Reachable c) : EndsProperly c e ↔ ¬SelectsInCall c e := by
  have hnumbered := reachable_numbered h
  constructor
  · exact fun hends hselects => not_endsProperly_of_selects hnumbered hselects hends
  · intro hselects hactive hleft
    rcases (after_did c e).leaves hactive hleft with hclick | ⟨hpc, hclosed⟩
    · exact absurd hclick hselects
    · exact replaced_of_ended hnumbered hpc hclosed

end

/-- Every step out of a call ends it in exactly the runs in which no row is clicked
during a call. -/
theorem meets_endsProperly_iff (storedName : Name) (host : String) (es : List Event) :
    Transition.Meets step EndsProperly (loaded storedName host) es ↔
      Transition.Meets step (fun c e => ¬SelectsInCall c e) (loaded storedName host) es :=
  Transition.Meets.congr .init (fun _ _ => trivial) fun _ _ hreach _ =>
    endsProperly_iff ⟨storedName, host, hreach⟩

def joined : List Event :=
  [.message (.sessionID 2), .message (.sessionsChanged [⟨2, "A"⟩, ⟨3, "B"⟩, ⟨4, "C"⟩]),
    .userMedia true]

/-- A caller who clicks on another row is out of the call with the connection still
open. -/
theorem not_endsProperly_of_rowClick :
    ¬∀ (storedName : Name) (host : String) (es : List Event),
      Transition.Meets step EndsProperly (loaded storedName host) es := by
  intro hall
  have hrun : ∃ c, Transition.run step (loaded .null "") (joined ++ [.rowClick 0, .callClick]) =
      .ok c ∧ c.callState = .calling ∧ c.rows.length = 2 :=
    ⟨_, rfl, rfl, rfl⟩
  obtain ⟨c, hrun, hcalling, hrows⟩ := hrun
  have hends := (hall .null "" (joined ++ [.rowClick 0, .callClick] ++ [.rowClick 1])).last hrun rfl
  refine not_endsProperly_of_selects (reachable_numbered ⟨_, _, Transition.reachable_of_run _ hrun⟩)
    ⟨by rw [hcalling]; rfl, 1, by rw [hrows]; decide, rfl⟩ hends

/-! ## Hanging up -/

section

variable {c : Client} {p : Nat}

end

end Mgws.Browser
