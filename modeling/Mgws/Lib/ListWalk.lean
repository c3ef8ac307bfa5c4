import Mathlib.Data.List.Basic
import Mathlib.Data.List.Induction
import Mathlib.Data.List.Pairwise
/-!
# Walking a list up to the first gap

`walk f l` is what a loop over `l` visits when it stops at the first element on
which `f` has no value.  `lastMatch p l` is what a loop leaves in a variable it
overwrites at every match.
-/

namespace Lib

variable {α β : Type}

/-- The values of `f` up to the first element without one. -/
def walk (f : α → Option β) : List α → List β
  | [] => []
  | a :: l =>
      match f a with
      | none => []
      | some b => b :: walk f l

@[simp] theorem walk_nil (f : α → Option β) : walk f [] = [] := rfl

theorem walk_cons_some {f : α → Option β} {a : α} {b : β} (h : f a = some b) (l : List α) :
    walk f (a :: l) = b :: walk f l := by
  rw [walk, h]

theorem walk_cons_none {f : α → Option β} {a : α} (h : f a = none) (l : List α) :
    walk f (a :: l) = [] := by
  rw [walk, h]

theorem walk_map {γ : Type} (f : α → Option β) (g : γ → α) (l : List γ) :
    walk f (l.map g) = walk (fun c => f (g c)) l := by
  induction l with
  | nil => rfl
  | cons c l ih => rw [List.map_cons, walk, walk, ih]

/-- A walk visits the longest prefix on which `f` is defined throughout. -/
theorem walk_eq_takeWhile (f : α → Option β) (l : List α) :
    walk f l = (l.takeWhile fun a => (f a).isSome).filterMap f := by
  induction l with
  | nil => rfl
  | cons a l ih =>
      cases hfa : f a with
      | none => rw [walk_cons_none hfa, List.takeWhile_cons_of_neg (by simp [hfa])]; rfl
      | some b =>
          rw [walk_cons_some hfa, List.takeWhile_cons_of_pos (by simp [hfa]),
            List.filterMap_cons_some hfa, ih]

theorem mem_walk {f : α → Option β} {l : List α} {b : β} (h : b ∈ walk f l) :
    ∃ a ∈ l, f a = some b := by
  rw [walk_eq_takeWhile, List.mem_filterMap] at h
  obtain ⟨a, ha, hfa⟩ := h
  exact ⟨a, (List.takeWhile_prefix _).subset ha, hfa⟩

/-- The walk misses nothing exactly when no gap stands before a value. -/
theorem walk_eq_filterMap_iff (f : α → Option β) (l : List α) :
    walk f l = l.filterMap f ↔ l.Pairwise fun a b => (f b).isSome → (f a).isSome := by
  induction l with
  | nil => simp
  | cons a l ih =>
      rw [List.pairwise_cons]
      cases hfa : f a with
      | none =>
          rw [walk_cons_none hfa, List.filterMap_cons_none hfa]
          constructor
          · intro h
            have hnone : ∀ b ∈ l, ¬(f b).isSome := by
              simpa using List.filterMap_eq_nil_iff.mp h.symm
            refine ⟨fun b hb hsome => absurd hsome (hnone b hb), ?_⟩
            exact List.pairwise_iff_forall_sublist.mpr fun {x y} hxy hy =>
              absurd hy (hnone y (hxy.subset (by simp)))
          · rintro ⟨h, -⟩
            symm
            rw [List.filterMap_eq_nil_iff]
            intro b hb
            simpa using fun hsome => h b hb hsome
      | some b =>
          rw [walk_cons_some hfa, List.filterMap_cons_some hfa]
          simp only [List.cons.injEq, true_and, Option.isSome_some, implies_true, ih]

def lastMatch (p : α → Bool) (l : List α) : Option α :=
  l.foldl (fun found a => if p a then some a else found) none

theorem lastMatch_concat (p : α → Bool) (l : List α) (a : α) :
    lastMatch p (l ++ [a]) = if p a then some a else lastMatch p l := by
  simp [lastMatch, List.foldl_append]

theorem lastMatch_eq_some_iff {p : α → Bool} {l : List α} {a : α} :
    lastMatch p l = some a ↔
      ∃ pre post, l = pre ++ a :: post ∧ p a = true ∧ ∀ b ∈ post, p b = false := by
  induction l using List.reverseRecOn with
  | nil => simp [lastMatch]
  | append_singleton l b ih =>
      rw [lastMatch_concat]
      cases hp : p b with
      | true =>
          simp only [if_true, Option.some.injEq]
          constructor
          · rintro rfl
            exact ⟨l, [], rfl, hp, by simp⟩
          · rintro ⟨pre, post, hl, ha, hpost⟩
            rcases List.eq_nil_or_concat post with rfl | ⟨post', c, rfl⟩
            · have hsame : l = pre ∧ b = a := by simpa using hl
              exact hsame.2
            · have hsplit : l ++ [b] = (pre ++ a :: post') ++ [c] := by simpa using hl
              have hbc : b = c := by simpa using (List.append_inj' hsplit rfl).2
              have := hpost c (by simp)
              rw [← hbc, hp] at this
              cases this
      | false =>
          simp only [Bool.false_eq_true, if_false, ih]
          constructor
          · rintro ⟨pre, post, rfl, ha, hpost⟩
            refine ⟨pre, post ++ [b], by simp, ha, ?_⟩
            simpa [or_imp, forall_and, hp] using hpost
          · rintro ⟨pre, post, hl, ha, hpost⟩
            rcases List.eq_nil_or_concat post with rfl | ⟨post', c, rfl⟩
            · have hsame : l = pre ∧ b = a := by simpa using hl
              rw [hsame.2, ha] at hp
              cases hp
            · refine ⟨pre, post', ?_, ha, fun x hx => hpost x (by simp [hx])⟩
              have hsplit : l ++ [b] = (pre ++ a :: post') ++ [c] := by simpa using hl
              exact (List.append_inj' hsplit rfl).1

theorem lastMatch_mem {p : α → Bool} {l : List α} {a : α} (h : lastMatch p l = some a) :
    a ∈ l ∧ p a = true := by
  obtain ⟨pre, post, rfl, ha, -⟩ := lastMatch_eq_some_iff.mp h
  exact ⟨by simp, ha⟩

theorem lastMatch_isSome {p : α → Bool} {l : List α} {a : α} (ha : a ∈ l) (hp : p a = true) :
    (lastMatch p l).isSome := by
  induction l using List.reverseRecOn with
  | nil => cases ha
  | append_singleton l b ih =>
      rw [lastMatch_concat]
      split
      · rfl
      · next hb =>
          rcases List.mem_append.mp ha with hold | hnew
          · exact ih hold
          · rw [List.mem_singleton.mp hnew] at hp
            exact absurd hp hb

end Lib
