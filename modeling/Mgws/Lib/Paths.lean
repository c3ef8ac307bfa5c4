import Mathlib.Data.List.Basic
import Mathlib.Data.List.DropRight
/-!
# Paths

A path is a text with separators.  Followed name by name from some directory it leads to a place,
which is given by the names on the way down from the top.
-/

namespace Lib

/-- How paths are written: the separator, and the names of a directory itself and of the one
above it. -/
structure Paths (α : Type) where
  sep : α
  here : List α
  up : List α

namespace Paths

variable {α : Type} [DecidableEq α] (w : Paths α)

def names (path : List α) : List (List α) := (path.splitOn w.sep).filter (· ≠ [])

def follow (place : List (List α)) : List (List α) → List (List α)
  | [] => place
  | c :: cs =>
      if c = w.here then follow place cs
      else if c = w.up then follow place.dropLast cs
      else follow (place ++ [c]) cs

def locate (cwd : List (List α)) (path : List α) : List (List α) :=
  w.follow (if path.head? = some w.sep then [] else cwd) (w.names path)

/-- From wherever the paths are followed, the second leads into the tree below the first. -/
def Inside (dir path : List α) : Prop := ∀ cwd, w.locate cwd dir <+: w.locate cwd path

/-- A path that goes on from a directory without a name of the directory above. -/
structure Extends (dir path : List α) : Prop where
  head : path.head? = dir.head?
  names : ∃ rest, w.names path = w.names dir ++ rest ∧ w.up ∉ rest

variable {w} {p q dir : List α}

/-! ## Names -/

theorem sep_induction {P : List α → Prop} (hlast : ∀ p, w.sep ∉ p → P p)
    (hsep : ∀ p q, w.sep ∉ p → P q → P (p ++ w.sep :: q)) (path : List α) : P path := by
  induction hlen : path.length using Nat.strongRecOn generalizing path with
  | ind len ih =>
      by_cases hmem : w.sep ∈ path
      · obtain ⟨p, q, hpath, hp⟩ := List.eq_append_cons_of_mem hmem
        rw [hpath] at hlen ⊢
        refine hsep p q hp (ih _ ?_ q rfl)
        rw [List.length_append, List.length_cons] at hlen
        omega
      · exact hlast path hmem

theorem names_append_sep (p q : List α) :
    w.names (p ++ w.sep :: q) = w.names p ++ w.names q := by
  rw [names, List.splitOn_append_cons_self, List.filter_append]
  rfl

@[simp] theorem names_nil : w.names [] = [] := rfl

theorem names_sep (p : List α) : w.names (w.sep :: p) = w.names p := names_append_sep [] p

theorem names_concat_sep (p : List α) : w.names (p ++ [w.sep]) = w.names p := by
  rw [names_append_sep, names_nil, List.append_nil]

theorem names_of_not_mem (h : w.sep ∉ p) : w.names p = if p = [] then [] else [p] := by
  rw [names, List.splitOn_eq_singleton h]
  split
  · next hnil => simp [hnil]
  · next hne => simp [hne]

theorem names_append_seps (p : List α) {q : List α} (h : ∀ c ∈ q, c = w.sep) :
    w.names (p ++ q) = w.names p := by
  induction q using List.reverseRecOn with
  | nil => rw [List.append_nil]
  | append_singleton q c ih =>
      rw [h c (by simp), ← List.append_assoc, names_concat_sep]
      exact ih fun c hc => h c (by simp [hc])

theorem names_append_of_getLast? (h : p.getLast? = some w.sep) (q : List α) :
    w.names (p ++ q) = w.names p ++ w.names q := by
  obtain ⟨front, rfl⟩ := List.getLast?_eq_some_iff.mp h
  rw [names_concat_sep, List.append_assoc, List.singleton_append, names_append_sep]

theorem exists_of_mem_names {c : List α} (h : c ∈ w.names p) :
    ∃ before after, w.sep :: p = before ++ w.sep :: (c ++ after) := by
  induction p using sep_induction (w := w) with
  | hlast p hp =>
      rw [names_of_not_mem hp] at h
      split at h
      · simp at h
      · rw [List.mem_singleton.mp h]
        exact ⟨[], [], by simp⟩
  | hsep p q hp ih =>
      rw [names_append_sep, List.mem_append] at h
      cases h with
      | inl h =>
          rw [names_of_not_mem hp] at h
          split at h
          · simp at h
          · rw [List.mem_singleton.mp h]
            exact ⟨[], w.sep :: q, rfl⟩
      | inr h =>
          obtain ⟨before, after, hq⟩ := ih h
          exact ⟨w.sep :: p ++ before, after, by rw [List.append_assoc, ← hq]; rfl⟩

/-! ## Places -/

theorem follow_append (place : List (List α)) (cs ds : List (List α)) :
    w.follow place (cs ++ ds) = w.follow (w.follow place cs) ds := by
  induction cs generalizing place with
  | nil => rfl
  | cons c cs ih =>
      rw [List.cons_append, follow, follow]
      split
      · exact ih place
      · split
        · exact ih _
        · exact ih _

/-- Without a name of the directory above, the way only leads down. -/
theorem prefix_follow {cs : List (List α)} (h : w.up ∉ cs) (place : List (List α)) :
    place <+: w.follow place cs := by
  induction cs generalizing place with
  | nil => exact List.prefix_refl place
  | cons c cs ih =>
      rw [List.mem_cons, not_or] at h
      rw [follow]
      split
      · exact ih h.2 place
      · rw [if_neg fun hc => h.1 hc.symm]
        exact (List.prefix_append place [c]).trans (ih h.2 _)

theorem Extends.inside (h : w.Extends dir p) : w.Inside dir p := by
  intro cwd
  obtain ⟨rest, hnames, hup⟩ := h.names
  rw [locate, locate, h.head, hnames, follow_append]
  exact prefix_follow hup _

theorem Extends.append (h : w.Extends dir p) (hp : p ≠ []) {q : List α}
    (hq : ∀ c ∈ q.head?, c = w.sep) (hup : w.up ∉ w.names q) : w.Extends dir (p ++ q) := by
  obtain ⟨rest, hnames, hrest⟩ := h.names
  have happend : w.names (p ++ q) = w.names p ++ w.names q := by
    cases q with
    | nil => rw [List.append_nil, names_nil, List.append_nil]
    | cons c q =>
        rw [hq c rfl, names_append_sep, names_sep]
  refine ⟨(List.head?_append_of_ne_nil p hp).trans h.head, rest ++ w.names q, ?_, ?_⟩
  · rw [happend, hnames, List.append_assoc]
  · rw [List.mem_append, not_or]
    exact ⟨hrest, hup⟩

end Paths

end Lib
