import Mgws.Lib.Stoi
import Mathlib.Data.Rat.Defs
/-!
# JSON values

The part of `nlohmann::json` that the server uses: the non-const
`operator[]`, which inserts a null member for a missing key, the implicit
conversion to `std::string`, comparison with an unsigned number and
`push_back`.  A number keeps its value only, so the signed and the unsigned
integer types of the library are one constructor.
-/

namespace Mgws

open Lib

inductive Exn where
  | lengthError
  | parseError
  | typeError (code : Nat)
  | badFunctionCall
  | stoi (e : StoiError)
  | badAlloc
  deriving DecidableEq, Repr

inductive Json where
  | null
  | bool (b : Bool)
  | int (i : Int)
  | float (q : Rat)
  | str (s : String)
  | arr (elems : List Json)
  | obj (members : List (String × Json))

namespace Json

def find? (j : Json) (key : String) : Option Json :=
  match j with
  | obj members => members.lookup key
  | _ => none

/-- `j[key]` on a mutable value: the member and the value `j` has afterwards.
A null becomes an object, a missing member is inserted as null, and any other
type throws `type_error.305`. -/
def subscript (j : Json) (key : String) : Except Exn (Json × Json) :=
  match j with
  | null => .ok (null, obj [(key, null)])
  | obj members =>
      match members.lookup key with
      | some v => .ok (v, obj members)
      | none => .ok (null, obj (members ++ [(key, null)]))
  | _ => .error (.typeError 305)

def getString : Json → Except Exn String
  | str s => .ok s
  | _ => .error (.typeError 302)

def eqNat (j : Json) (n : Nat) : Bool :=
  match j with
  | int i => i = n
  | float q => q = (n : Rat)
  | _ => false

def pushBack (j v : Json) : Except Exn Json :=
  match j with
  | null => .ok (arr [v])
  | arr elems => .ok (arr (elems ++ [v]))
  | _ => .error (.typeError 308)

def assign (j : Json) (key : String) (v : Json) : Json :=
  match j with
  | obj members => obj (members.map fun m => if m.1 = key then (key, v) else m)
  | j => j

def pushTo (j : Json) (key : String) (v : Json) : Except Exn Json := do
  let (elems, j) ← j.subscript key
  let elems ← elems.pushBack v
  pure (j.assign key elems)

theorem subscript_of_find? {key : String} {j v : Json} (h : j.find? key = some v) :
    j.subscript key = .ok (v, j) := by
  cases j with
  | obj members =>
      simp only [find?] at h
      simp only [subscript, h]
  | _ => simp [find?] at h

theorem subscript_obj (key : String) (members : List (String × Json)) :
    ∃ v members', (obj members).subscript key = .ok (v, obj members') ∧
      ∀ key' w, (obj members).find? key' = some w → (obj members').find? key' = some w := by
  simp only [subscript, find?]
  cases h : members.lookup key with
  | some v => exact ⟨v, members, rfl, fun _ _ hw => hw⟩
  | none =>
      refine ⟨null, members ++ [(key, null)], rfl, fun key' w hw => ?_⟩
      rw [List.lookup_append, hw, Option.some_or]

theorem getString_eq_ok_iff {j : Json} {s : String} : j.getString = .ok s ↔ j = str s := by
  cases j <;> simp [getString]

end Json

/-- `json::parse`, on the bytes of a message; `none` is a `parse_error`. -/
class Nlohmann where
  parse : List UInt8 → Option Json

end Mgws
