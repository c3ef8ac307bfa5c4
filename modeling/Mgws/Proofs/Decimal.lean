import Mgws.Proofs.Lookup
/-!
# Looking a session up by the text of its id

An id is printed as an unsigned number and read back as a signed one.  The
reader accepts half of what the printer prints, and accepts texts that the
printer never prints.
-/

namespace Mgws

open Lib Program

/-- Looking up `t` inverts the printing of ids: the decimal of `n` finds what `n`
finds, and a text that is no session's printed id finds no session. -/
structure InvertsPrinting (st : Server) (t : String) : Prop where
  printed : ∀ n < 2 ^ 32, t = n.repr →
    (SessionManager.getSessionByIdString t).run st = (SessionManager.getSessionById n).run st
  other : (∀ p, st.Valid p → t ≠ (st.idOf p).repr) →
    ∀ q s, (SessionManager.getSessionByIdString t).run st ≠ .ret (some q) s

/-- `t` is no number from 2^31 on, and a session that the enumeration reaches has
the id that `std::stoi` reads from `t` only when it prints as `t`. -/
structure Canonical (st : Server) (t : String) : Prop where
  small : ∀ n < 2 ^ 32, t = n.repr → n < 2 ^ 31
  exact : ∀ i, stoi t = .ok i → (∀ p ∈ st.reached, st.Valid p) →
    ∀ p ∈ st.reached, st.idOf p = toSessionId i → t = (st.idOf p).repr

section

variable {st : Server} {t : String} {n : Nat}

theorem stoi_repr_of_lt (hn : n < 2 ^ 31) : stoi n.repr = .ok (n : Int) := by
  rw [stoi_repr, if_pos hn]

theorem stoi_repr_of_le (hn : 2 ^ 31 ≤ n) : stoi n.repr = .error .outOfRange := by
  rw [stoi_repr, if_neg (by omega)]

theorem getSessionById_ne_throw (e : Exn) (s : Server) :
    (SessionManager.getSessionById n).run st ≠ .throw e s := by
  intro hthrow
  rcases st.reached_valid_or with hall | ⟨p, hp, hinvalid⟩
  · rw [getSessionById_run hall] at hthrow
    cases hthrow
  · obtain ⟨f, hf⟩ := getSessionById_fault hp hinvalid n
    rw [hf] at hthrow
    cases hthrow

theorem getSessionByIdString_repr (hn : n < 2 ^ 31) :
    (SessionManager.getSessionByIdString n.repr).run st =
      (SessionManager.getSessionById n).run st := by
  have hid : ((n : Int) % 2 ^ 32).toNat = n := toSessionId_natCast hn
  rw [SessionManager.getSessionByIdString, stoi_repr_of_lt hn]
  show (SessionManager.getSessionById ((n : Int) % 2 ^ 32).toNat).run st = _
  rw [hid]

/-- What a lookup that finds a session has read. -/
theorem getSessionByIdString_eq_some {q : SessionPtr} {s : Server}
    (h : (SessionManager.getSessionByIdString t).run st = .ret (some q) s) :
    ∃ i, stoi t = .ok i ∧ (∀ p ∈ st.reached, st.Valid p) ∧
      st.lookup (toSessionId i) = some q := by
  cases hi : stoi t with
  | error e =>
      rw [getSessionByIdString_throw hi] at h
      cases h
  | ok i =>
      rcases st.reached_valid_or with hall | ⟨p, hp, hinvalid⟩
      · rw [getSessionByIdString_run hall hi] at h
        injection h with hlookup
        exact ⟨i, rfl, hall, hlookup⟩
      · obtain ⟨f, hf⟩ := getSessionByIdString_fault hp hinvalid hi
        rw [hf] at h
        cases h

variable (st t) in
/-- The lookup inverts the printing exactly on the texts that are canonical. -/
theorem invertsPrinting_iff : InvertsPrinting st t ↔ Canonical st t := by
  constructor
  · intro h
    constructor
    · rintro n hn rfl
      by_contra hlarge
      have hsame := h.printed n hn rfl
      rw [getSessionByIdString_throw (stoi_repr_of_le (by omega))] at hsame
      exact getSessionById_ne_throw _ _ hsame.symm
    · intro i hi hall p hp hid
      by_contra hne
      -- a printed id would read back as itself, so `t` is no printed id
      have hother : ∀ r, st.Valid r → t ≠ (st.idOf r).repr := by
        rintro r hr rfl
        by_cases hsmall : st.idOf r < 2 ^ 31
        · rw [stoi_repr_of_lt hsmall] at hi
          cases hi
          rw [toSessionId_natCast hsmall] at hid
          exact hne (by rw [hid])
        · rw [stoi_repr_of_le (by omega)] at hi
          cases hi
      have hfound : (st.lookup (toSessionId i)).isSome :=
        lastMatch_isSome hp (by simpa using hid)
      obtain ⟨q, hq⟩ := Option.isSome_iff_exists.mp hfound
      refine h.other hother q st ?_
      rw [getSessionByIdString_run hall hi, hq]
  · intro h
    constructor
    · rintro n hn rfl
      exact getSessionByIdString_repr (h.small n hn rfl)
    · intro hother q s hrun
      obtain ⟨i, hi, hall, hlookup⟩ := getSessionByIdString_eq_some hrun
      obtain ⟨hq, hid⟩ := lookup_mem hlookup
      exact hother q (hall q hq) (h.exact i hi hall q hq hid)

end

theorem blank_two_ne_repr (n : Nat) : " 2" ≠ n.repr := by
  intro htext
  have hread : stoi " 2" = .ok 2 := rfl
  rw [htext, stoi_repr] at hread
  split at hread
  · have htwo : n = 2 := by
      injection hread with hvalue
      omega
    rw [htwo] at htext
    exact absurd htext (by decide)
  · cases hread

/-- A blank before the digits is skipped by the reader. -/
theorem not_invertsPrinting_of_blank :
    ¬∀ [Nlohmann] (st : Server) (t : String), Reachable st → InvertsPrinting st t := by
  intro hall
  let _ := parserOf "" .null
  have hfound : ∃ st, Transition.run step initial (joining 2) = .ok st ∧
      (SessionManager.getSessionByIdString " 2").run st = .ret (some 0) st :=
    ⟨_, rfl, rfl⟩
  obtain ⟨st, hrun, hfound⟩ := hfound
  have hinverts := hall st " 2" (Transition.reachable_of_run _ hrun)
  exact hinverts.other (fun p _ => blank_two_ne_repr _) 0 st hfound

end Mgws
