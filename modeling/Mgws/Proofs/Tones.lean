import Mgws.Proofs.Panel
/-!
# Ring tones

A source that ends starts another one of its tone, unless the call is connected or
over.  Sources are numbered in the order in which they were started, so that those which
an event starts are told by their numbers.
-/

namespace Mgws.Browser

open Lib Program

def Tone.state : Tone → CallState
  | remoteRing => .calling
  | telephoneRing => .ringing

theorem CallState.tone?_eq_some_iff {state : CallState} {tone : Tone} :
    state.tone? = some tone ↔ state = tone.state := by
  cases state <;> cases tone <;> decide

/-- Every source that the event starts plays the tone of the state that the call is in. -/
def RingsInState (c : Client) (e : Event) : Prop :=
  ∀ source ∈ (c.after e).sources, c.nextSource ≤ source.number →
    (c.after e).callState = source.tone.state

/-- A source ends in the state that its tone announces, or when the call is connected or
over. -/
def EndsInState (c : Client) (e : Event) : Prop :=
  ∀ i source, e = .ended i → c.sources[i]? = some source →
    c.callState = source.tone.state ∨ c.callState = .connected ∨ c.callState = .idle

/-! ## What an event starts -/

structure Panel.Quiet (p q : Panel) : Prop where
  nextSource : q.nextSource = p.nextSource
  sources : ∀ source ∈ q.sources, source ∈ p.sources

structure Panel.Starts (p q : Panel) (tone : Tone) : Prop where
  nextSource : q.nextSource = p.nextSource + 1
  sources : ∀ source ∈ q.sources, source ∈ p.sources ∨ source = (p.nextSource, tone)
  started : (p.nextSource, tone) ∈ q.sources

/-- An event starts no source, the tone of the state that it enters, or a tone that has
ended. -/
inductive Sounds (c : Client) : Event → Panel → Prop where
  | quiet {e q} (hquiet : c.panel.Quiet q) (hends : ∀ i source, e = .ended i →
      c.sources[i]? = some source → c.callState = .connected ∨ c.callState = .idle) :
      Sounds c e q
  | rings {e q tone} (he : ∀ i, e ≠ .ended i) (hstarts : c.panel.Starts q tone)
      (hstate : q.callState = tone.state) : Sounds c e q
  | restarts {i source q} (hsource : c.sources[i]? = some source)
      (hstate : ¬(c.callState = .connected ∨ c.callState = .idle))
      (hstarts : c.panel.Starts q source.tone) (hsame : q.callState = c.callState) :
      Sounds c (.ended i) q

section

variable {c : Client} {e : Event} {p q : Panel}

theorem Panel.quiet_of_eq (hsources : q.sources = p.sources)
    (hnext : q.nextSource = p.nextSource) : p.Quiet q :=
  ⟨hnext, fun _ hmem => hsources ▸ hmem⟩

theorem Panel.Quiet.starts_play (h : p.Quiet q) (tone : Tone) : p.Starts (q.play tone) tone := by
  constructor
  · rw [Panel.play, h.nextSource]
  · intro source hmem
    rw [Panel.play, h.nextSource] at hmem
    rcases List.mem_append.mp hmem with hold | hnew
    · exact .inl (h.sources source hold)
    · exact .inr (List.mem_singleton.mp hnew)
  · rw [Panel.play, h.nextSource]
    exact List.mem_append_right _ (List.mem_singleton.mpr rfl)

theorem Panel.quiet_drop (number : Nat) : p.Quiet (p.drop number) :=
  ⟨rfl, fun _ hmem => (List.mem_filter.mp hmem).1⟩

theorem sounds_same (he : ∀ i, e ≠ .ended i) (hsources : q.sources = c.panel.sources)
    (hnext : q.nextSource = c.panel.nextSource) : Sounds c e q :=
  .quiet (Panel.quiet_of_eq hsources hnext) fun i _ hended => absurd hended (he i)

theorem sounds_enter (state : CallState) (he : ∀ i, e ≠ .ended i)
    (hsources : q.sources = c.panel.sources) (hnext : q.nextSource = c.panel.nextSource) :
    Sounds c e (q.enter state) := by
  have hbuttons : c.panel.Quiet ({ q with callState := state }.buttons state) :=
    Panel.quiet_of_eq hsources hnext
  rw [Panel.enter, Panel.display]
  cases htone : state.tone? with
  | none => exact sounds_same he hsources hnext
  | some tone => exact .rings he (hbuttons.starts_play tone) (CallState.tone?_eq_some_iff.mp htone)

/-- A source that has ended is started again unless the call is connected or over. -/
theorem sounds_ended (c : Client) (i : Nat) : Sounds c (.ended i) (c.shows (.ended i)) := by
  rw [Client.shows]
  cases hsource : c.sources[i]? with
  | none =>
      refine .quiet (Panel.quiet_of_eq rfl rfl) fun j source hended hsome => ?_
      cases hended
      rw [hsource] at hsome
      cases hsome
  | some source =>
      simp only [Client.panelEnded]
      split
      · next hover => exact .quiet (Panel.quiet_drop _) fun _ _ _ _ => hover
      · next hover =>
          exact .restarts hsource hover ((Panel.quiet_drop _).starts_play source.tone) rfl

theorem sounds_panelHungUp (he : ∀ i, e ≠ .ended i) : Sounds c e c.panelHungUp := by
  rw [Client.panelHungUp]
  split
  · exact sounds_enter .idle he rfl rfl
  · exact sounds_same he rfl rfl

theorem sounds_panelTold (msg : Message) : Sounds c (.message msg) (c.panelTold msg) := by
  have he : ∀ i, Event.message msg ≠ .ended i := fun _ => Event.noConfusion
  cases msg with
  | sessionsChanged sessions =>
      rw [Client.panelTold, Client.panelListed]
      split
      · split
        · exact sounds_enter .idle he rfl rfl
        · exact sounds_same he rfl rfl
      · exact sounds_same he rfl rfl
  | call userName targetId sessionId session =>
      exact sounds_enter .ringing he rfl rfl
  | hangup => exact sounds_panelHungUp he
  | _ => exact sounds_same he rfl rfl

/-- The sources of a page before and after an event. -/
theorem sounds_shows (c : Client) (e : Event) : Sounds c e (c.shows e) := by
  by_cases hended : ∃ i, e = .ended i
  · obtain ⟨i, rfl⟩ := hended
    exact sounds_ended c i
  have he : ∀ i, e ≠ .ended i := fun i heq => hended ⟨i, heq⟩
  cases e with
  | rowClick i =>
      rw [Client.shows]
      cases c.rows[i]? with
      | none => exact sounds_same he rfl rfl
      | some tr => exact sounds_enter .identified he rfl rfl
  | callClick =>
      rw [Client.shows]
      split
      · exact sounds_same he rfl rfl
      · have hplayed := Panel.Quiet.starts_play (p := c.panel) (q := c.panel)
          (Panel.quiet_of_eq rfl rfl) .remoteRing
        exact .rings he ⟨hplayed.nextSource, hplayed.sources, hplayed.started⟩ rfl
  | hangupClick =>
      rw [Client.shows]
      split
      · exact sounds_same he rfl rfl
      · exact sounds_panelHungUp he
  | message msg =>
      rw [Client.shows]
      split
      · exact sounds_same he rfl rfl
      · exact sounds_panelTold msg
  | settle i settled =>
      rw [Client.shows]
      split <;> exact sounds_same he rfl rfl
  | connectionState state =>
      rw [Client.shows]
      split
      · exact sounds_enter .connected he rfl rfl
      · exact sounds_same he rfl rfl
  | ended i => exact absurd rfl (he i)
  | timer i =>
      rw [Client.shows]
      split <;> exact sounds_same he rfl rfl
  | answerClick | controlsClick | userMedia | iceCandidate | iceCandidateError | close =>
      exact sounds_same he rfl rfl

/-! ## Numbers of sources -/

def Panel.Counted (p : Panel) : Prop := ∀ source ∈ p.sources, source.1 < p.nextSource

theorem Panel.Counted.quiet (h : p.Counted) (hquiet : p.Quiet q) : q.Counted := by
  intro source hmem
  rw [hquiet.nextSource]
  exact h source (hquiet.sources source hmem)

theorem Panel.Counted.starts (h : p.Counted) {tone : Tone} (hstarts : p.Starts q tone) :
    q.Counted := by
  intro source hmem
  rw [hstarts.nextSource]
  rcases hstarts.sources source hmem with hold | rfl
  · exact Nat.lt_succ_of_lt (h source hold)
  · exact Nat.lt_succ_self _

theorem Panel.Counted.sounds (h : c.panel.Counted) (hsounds : Sounds c e q) : q.Counted := by
  cases hsounds with
  | quiet hquiet => exact h.quiet hquiet
  | rings _ hstarts => exact h.starts hstarts
  | restarts _ _ hstarts _ => exact h.starts hstarts

theorem reachable_counted (h : Reachable c) : c.panel.Counted := by
  obtain ⟨storedName, host, hrun⟩ := h
  refine hrun.invariant (I := fun c => c.panel.Counted) ?_ fun c c' e _ hcounted _ hstep => ?_
  · intro source hmem
    cases hmem
  · cases hstep
    rw [panel_after]
    exact hcounted.sounds (sounds_shows c e)

/-! ## Tones and call state -/

def Panel.RingsFrom (p : Panel) (n : Nat) : Prop :=
  ∀ source ∈ p.sources, n ≤ source.1 → p.callState = source.2.state

theorem ringsInState_iff_panel :
    RingsInState c e ↔ (c.after e).panel.RingsFrom c.panel.nextSource := by
  constructor
  · intro h source hmem hle
    obtain ⟨started, hstarted, rfl⟩ := List.mem_map.mp hmem
    exact h started hstarted hle
  · exact fun h source hmem hle => h _ (List.mem_map_of_mem hmem) hle

theorem Panel.Counted.ringsFrom_quiet (h : p.Counted) (hquiet : p.Quiet q) :
    q.RingsFrom p.nextSource := by
  intro source hmem hle
  exact absurd (h source (hquiet.sources source hmem)) (Nat.not_lt.mpr hle)

theorem Panel.Counted.ringsFrom_starts_iff (h : p.Counted) {tone : Tone}
    (hstarts : p.Starts q tone) : q.RingsFrom p.nextSource ↔ q.callState = tone.state := by
  constructor
  · exact fun hrings => hrings _ hstarts.started (Nat.le_refl _)
  · intro hstate source hmem hle
    rcases hstarts.sources source hmem with hold | rfl
    · exact absurd (h source hold) (Nat.not_lt.mpr hle)
    · exact hstate

theorem ringsInState_iff (h : Reachable c) : RingsInState c e ↔ EndsInState c e := by
  have hcounted := reachable_counted h
  rw [ringsInState_iff_panel, panel_after]
  cases sounds_shows c e with
  | quiet hquiet hends =>
      refine iff_of_true (hcounted.ringsFrom_quiet hquiet) ?_
      exact fun i source hended hsource => .inr (hends i source hended hsource)
  | rings he hstarts hstate =>
      refine iff_of_true ((hcounted.ringsFrom_starts_iff hstarts).mpr hstate) ?_
      exact fun i source hended => absurd hended (he i)
  | @restarts i source _ hsource hstate hstarts hsame =>
      rw [hcounted.ringsFrom_starts_iff hstarts, hsame]
      constructor
      · intro htone j source' hended hsource'
        cases hended
        rw [hsource] at hsource'
        cases hsource'
        exact .inl htone
      · intro hends
        rcases hends i source rfl hsource with htone | hover
        · exact htone
        · exact absurd hover hstate

end

/-- Tones are started in their states alone in exactly the runs in which each source ends in the
state of its tone, or when the call is connected or over. -/
theorem meets_ringsInState_iff (storedName : Name) (host : String) (es : List Event) :
    Transition.Meets step RingsInState (loaded storedName host) es ↔
      Transition.Meets step EndsInState (loaded storedName host) es :=
  Transition.Meets.congr .init (fun _ _ => trivial) fun _ _ hreach _ =>
    ringsInState_iff ⟨storedName, host, hreach⟩

/-- A caller clicks on a row, and the tone of the call goes on. -/
theorem not_ringsInState_of_rowClick :
    ¬∀ (storedName : Name) (host : String) (es : List Event),
      Transition.Meets step RingsInState (loaded storedName host) es := by
  intro hall
  have hrun : ∃ c, Transition.run step (loaded .null "")
      (joined ++ [.rowClick 0, .callClick, .rowClick 1]) = .ok c ∧ c.callState = .identified ∧
      c.sources[0]? = some { number := 0, tone := .remoteRing, stopped := false } :=
    ⟨_, rfl, rfl, rfl⟩
  obtain ⟨c, hrun, hidentified, hsource⟩ := hrun
  have hrings := (hall .null ""
    (joined ++ [.rowClick 0, .callClick, .rowClick 1] ++ [.ended 0])).last hrun rfl
  rw [ringsInState_iff ⟨_, _, Transition.reachable_of_run _ hrun⟩] at hrings
  have hstate := hrings 0 _ rfl hsource
  rw [hidentified] at hstate
  rcases hstate with htone | hconnected | hidle
  · cases htone
  · cases hconnected
  · cases hidle

end Mgws.Browser
