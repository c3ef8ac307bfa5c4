import Mgws.Lib.Ticker
import Mgws.Proofs.Poll
/-!
# The rate of the timer

However the polls come, the timer's callback runs once per 500 ms at most, counted from the first
poll on, and whenever a poll comes it has run within the last 500 ms.
-/

namespace Mgws

open Lib Program Transition

def Action.isTick : Action → Bool
  | tick => true
  | _ => false

def expirations (expire : Nat) : List Nat → List Nat
  | [] => []
  | now :: nows =>
      let (expired, expire) := mgTimerExpired expire pollIntervalMs now
      if expired then now :: expirations expire nows else expirations expire nows

/-- The loop may go from `st` to `s` by actions of which `n` are runs of the callback. -/
def Ticked [Nlohmann] (n : Nat) (st s : Server) : Prop :=
  ∃ es, run step st es = .ok s ∧ es.countP Action.isTick = n

section

variable [Nlohmann] {st s t : Server} {m n expire expire' : Nat} {poll : Poll}

theorem Ticked.trans (h : Ticked m st t) (h' : Ticked n t s) : Ticked (m + n) st s := by
  obtain ⟨es, hrun, rfl⟩ := h
  obtain ⟨es', hrun', rfl⟩ := h'
  exact ⟨es ++ es', (run_append hrun).trans hrun', List.countP_append⟩

theorem Ticked.single {a : Action} (h : (perform a).run st = .ret () s) :
    Ticked (if a.isTick then 1 else 0) st s := by
  have hstep : step st a = .ok s := by rw [step, h]
  refine ⟨[a], by rw [Transition.run, hstep]; rfl, ?_⟩
  rw [List.countP_singleton]

theorem reachable_of_ticked (h : Ticked n st s) (hst : Reachable st) : Reachable s := by
  obtain ⟨es, hrun, -⟩ := h
  exact hst.of_run (fun _ _ => trivial) hrun

omit [Nlohmann] in
theorem isTick_of_about {P Q : List HttpTurn → Prop} {k : ConnPtr} {a : Action}
    (h : a.About P Q k) : a.isTick = false := by
  cases a with
  | tick => exact h.elim
  | _ => rfl

theorem Ticked.of_about {P Q : List HttpTurn → Prop} {ks : List ConnPtr} {x : Cpp Unit}
    (h : Follows step (fun a => ∃ k ∈ ks, a.About P Q k) st x) (hrun : x.run st = .ret () s) :
    Ticked 0 st s := by
  obtain ⟨es, hes, hleads⟩ := h.leads hrun
  refine ⟨es, hleads, List.countP_eq_zero.mpr fun a ha => ?_⟩
  obtain ⟨k, -, habout⟩ := hes a ha
  simp [isTick_of_about habout]

theorem ticked_mgTimerPoll (hrun : (mgTimerPoll expire poll).run st = .ret expire' s) :
    expire' = (mgTimerExpired expire pollIntervalMs poll.now).2 ∧
      Ticked (if (mgTimerExpired expire pollIntervalMs poll.now).1 then 1 else 0) st s := by
  rw [mgTimerPoll] at hrun
  cases hexpired : mgTimerExpired expire pollIntervalMs poll.now with
  | mk expired next =>
      rw [hexpired] at hrun
      cases expired with
      | false =>
          cases hrun
          exact ⟨rfl, [], rfl, rfl⟩
      | true =>
          obtain ⟨_, t, hclock, hrun⟩ := ret_of_bind hrun
          obtain ⟨_, _, ⟨⟩, hrun⟩ := ret_of_bind hrun
          obtain ⟨_, u, htick, hrun⟩ := ret_of_bind hrun
          cases hrun
          have hfirst : Ticked 0 st t := .single (a := .clock poll.callback) hclock
          have hsecond : Ticked 1 t s := .single (a := .tick) htick
          exact ⟨rfl, hfirst.trans hsecond⟩

theorem ticked_mgMgrPoll (hst : Reachable st)
    (hrun : (mgMgrPoll expire poll).run st = .ret expire' s) :
    expire' = (mgTimerExpired expire pollIntervalMs poll.now).2 ∧
      Ticked (if (mgTimerExpired expire pollIntervalMs poll.now).1 then 1 else 0) st s := by
  obtain ⟨_, t, hiotest, hrun⟩ := ret_of_bind (x := mgIotest poll.io (st.conns.map (·.ptr))) hrun
  obtain ⟨_, u, hclock, hrun⟩ := ret_of_bind hrun
  obtain ⟨next, v, htimer, hrun⟩ := ret_of_bind hrun
  obtain ⟨_, w, hwalk, hrun⟩ :=
    ret_of_bind (x := pollFrom poll.io v.conns.length (v.conns.head?.map (·.ptr))) hrun
  cases hrun
  obtain ⟨hnext, hticked⟩ := ticked_mgTimerPoll htimer
  have hst_t : Ticked 0 st t :=
    .of_about (follows_mgIotest (P := fun _ => True) (Q := fun _ => True) hst _ _) hiotest
  have ht_u : Ticked 0 t u := .single (a := .clock poll.now) hclock
  have hst_v := (hst_t.trans ht_u).trans hticked
  have hv := reachable_of_ticked hst_v hst
  rw [pollFrom_conns poll.io hv] at hwalk
  have hv_s : Ticked 0 v s :=
    .of_about (follows_pollAll (fun k => (poll.io k).brings) hv _) hwalk
  refine ⟨hnext, ?_⟩
  simpa using hst_v.trans hv_s

/-- A run of the loop is a run of actions with one tick for each expiration. -/
theorem ticked_infiniteLoop (hst : Reachable st) {polls : List Poll}
    (hrun : (infiniteLoop expire polls).run st = .ret expire' s) :
    Ticked (expirations expire (polls.map (·.now))).length st s := by
  induction polls generalizing st expire with
  | nil =>
      cases hrun
      exact ⟨[], rfl, rfl⟩
  | cons poll polls ih =>
      obtain ⟨next, t, hpoll, hrest⟩ := ret_of_bind hrun
      obtain ⟨rfl, hticked⟩ := ticked_mgMgrPoll hst hpoll
      have hboth := hticked.trans (ih (reachable_of_ticked hticked hst) hrest)
      rw [List.map_cons, expirations]
      split at hboth
      · next hexpired =>
          simp only [hexpired, if_true, List.length_cons]
          rwa [Nat.add_comm] at hboth
      · next hexpired =>
          simp only [hexpired]
          simpa using hboth

end

/-! ## Expirations -/

/-- Away from the largest numbers the clock does not wrap. -/
theorem mgTimerExpired_eq {t prd now : Nat} (ht : t ≠ 0) (hle : t ≤ now + prd)
    (hbound : now + prd < 2 ^ 64) :
    mgTimerExpired t prd now = if now < t then (false, t) else (true, Ticker.next prd t now) := by
  have hwrap : ¬(now + prd) % 2 ^ 64 < t := by
    rw [Nat.mod_eq_of_lt hbound]
    omega
  simp only [mgTimerExpired, if_neg hwrap, if_neg ht]
  split
  · rfl
  · next hdue =>
      have hperiod : t + prd < 2 ^ 64 := by omega
      rw [Nat.mod_eq_of_lt hbound, Nat.mod_eq_of_lt hperiod, Ticker.next]

theorem expirations_eq {t : Nat} {nows : List Nat} (ht : t ≠ 0)
    (hle : ∀ x ∈ nows, t ≤ x + pollIntervalMs) (hsorted : nows.Pairwise (· ≤ ·))
    (hbound : ∀ x ∈ nows, x + pollIntervalMs < 2 ^ 64) :
    expirations t nows = Ticker.goings pollIntervalMs t nows := by
  induction nows generalizing t with
  | nil => rfl
  | cons now nows ih =>
      obtain ⟨hnow, hle⟩ := List.forall_mem_cons.mp hle
      obtain ⟨hnow', hbound⟩ := List.forall_mem_cons.mp hbound
      obtain ⟨hfirst, hsorted⟩ := List.pairwise_cons.mp hsorted
      rw [expirations, mgTimerExpired_eq ht hnow hnow', Ticker.goings]
      by_cases hearly : now < t
      · simpa only [if_pos hearly, Bool.false_eq_true, if_false] using ih ht hle hsorted hbound
      · have hdue : t ≤ now := Nat.le_of_not_lt hearly
        have hnext : t + pollIntervalMs ≤ Ticker.next pollIntervalMs t now :=
          Ticker.add_le_next hdue
        have hlate : Ticker.next pollIntervalMs t now ≤ now + pollIntervalMs :=
          Ticker.next_le_add hdue
        have hle' : ∀ x ∈ nows, Ticker.next pollIntervalMs t now ≤ x + pollIntervalMs :=
          fun x hx => hlate.trans (Nat.add_le_add_right (hfirst x hx) _)
        simp only [if_neg hearly, if_true]
        rw [ih (by omega) hle' hsorted hbound]

theorem expirations_zero {now : Nat} (hbound : now + pollIntervalMs < 2 ^ 64) (nows : List Nat) :
    expirations 0 (now :: nows) = expirations (now + pollIntervalMs) nows := by
  have hfirst : mgTimerExpired 0 pollIntervalMs now = (false, now + pollIntervalMs) := by
    have hpos : now < now + pollIntervalMs := by
      rw [pollIntervalMs]
      omega
    simp only [mgTimerExpired, Nat.not_lt_zero, if_false, if_true, Nat.mod_eq_of_lt hbound,
      if_pos hpos]
  rw [expirations, hfirst]
  rfl

/-- As long as the clock neither runs backwards nor wraps, a run of the endless loop is a run of
actions in which the callback of the timer runs at times of polls: for the `i`-th time not before
`i` periods after the first poll, and, whenever there is a poll one period after the first or
later, less than a period ago. -/
theorem infiniteLoop_ticks [Nlohmann] {poll : Poll} {polls : List Poll} {expire : Nat} {s : Server}
    (hsorted : ((poll :: polls).map (·.now)).Pairwise (· ≤ ·))
    (hbound : ∀ q ∈ poll :: polls, q.now + pollIntervalMs < 2 ^ 64)
    (hrun : (infiniteLoop 0 (poll :: polls)).run initial = .ret expire s) :
    ∃ times : List Nat, times.Sublist (polls.map (·.now)) ∧ Ticked times.length initial s ∧
      (∀ i g, times[i]? = some g → poll.now + (i + 1) * pollIntervalMs ≤ g) ∧
      ∀ q ∈ polls, poll.now + pollIntervalMs ≤ q.now →
        ∃ g ∈ times, g ≤ q.now ∧ q.now < g + pollIntervalMs := by
  have hticked := ticked_infiniteLoop .init hrun
  obtain ⟨hfirst, hrest⟩ := List.pairwise_cons.mp hsorted
  obtain ⟨hpoll, hpolls⟩ := List.forall_mem_cons.mp hbound
  have hnow : ∀ x ∈ polls.map (·.now), x + pollIntervalMs < 2 ^ 64 := by
    intro x hx
    obtain ⟨q, hq, rfl⟩ := List.mem_map.mp hx
    exact hpolls q hq
  have hgoings : expirations 0 ((poll :: polls).map (·.now)) =
      Ticker.goings pollIntervalMs (poll.now + pollIntervalMs) (polls.map (·.now)) := by
    rw [List.map_cons, expirations_zero hpoll]
    exact expirations_eq (by rw [pollIntervalMs]; omega)
      (fun x hx => Nat.add_le_add_right (hfirst x hx) _) hrest hnow
  rw [hgoings] at hticked
  refine ⟨_, Ticker.goings_sublist _ _ _, hticked, fun i g hg => ?_, fun q hq hlate => ?_⟩
  · have hge := Ticker.le_of_goings hg
    rw [Nat.succ_mul]
    omega
  · exact Ticker.goings_recent (by decide) hrest (List.mem_map_of_mem hq) hlate

set_option maxRecDepth 20000 in
theorem infiniteLoop_ticks_late :
    letI := parserOf "" .null
    ∃ times : List Nat, times.Sublist [600, 1700] ∧
      Ticked times.length initial { initial with now := 1700 } ∧
      (∀ i g, times[i]? = some g → 0 + (i + 1) * 500 ≤ g) ∧
      ∀ q ∈ [readable 600 2 .wait, readable 1700 2 .wait], 0 + 500 ≤ q.now →
        ∃ g ∈ times, g ≤ q.now ∧ q.now < g + 500 := by
  let _ := parserOf "" .null
  have hrun : (infiniteLoop 0 [readable 0 2 .wait, readable 600 2 .wait,
      readable 1700 2 .wait]).run initial = .ret 2200 { initial with now := 1700 } := rfl
  exact infiniteLoop_ticks (by simp [readable]) (by simp [readable, pollIntervalMs]) hrun

end Mgws
