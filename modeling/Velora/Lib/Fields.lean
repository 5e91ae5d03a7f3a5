import Mathlib.Data.List.Basic

/-!
# Records by their fields

A table of the fields of a record, each with its name and its value, and the names of the fields in which two records
differ.
-/

namespace Velora.Lib

/-- A field of the records of type `S`: its name and what it holds. -/
structure FieldOf (S : Type) where
  name : String
  {Value : Type}
  [eq : DecidableEq Value]
  get : S → Value

namespace FieldOf

variable {S T : Type}

instance (f : FieldOf S) : DecidableEq f.Value := f.eq

/-- A field of a part of a record, as a field of the whole. -/
def at' (pre : String) (part : T → S) (f : FieldOf S) : FieldOf T := ⟨pre ++ f.name, f.get ∘ part⟩

/-- The names of the fields in which two records differ, in the order of the table. -/
def changed (fields : List (FieldOf S)) (a b : S) : List String :=
  fields.filterMap (fun f => if f.get a = f.get b then none else some f.name)

variable {fields : List (FieldOf S)} {a b : S}

theorem changed_append (l l' : List (FieldOf S)) : changed (l ++ l') a b = changed l a b ++ changed l' a b :=
  List.filterMap_append

theorem mem_changed {n : String} : n ∈ changed fields a b ↔ ∃ f ∈ fields, f.get a ≠ f.get b ∧ f.name = n := by
  simp [changed, List.mem_filterMap]

/-- No name is listed exactly when the records agree on the table. -/
theorem changed_eq_nil : changed fields a b = [] ↔ ∀ f ∈ fields, f.get a = f.get b := by
  simp [changed, List.filterMap_eq_nil_iff]

/-- The names do not depend on which record comes first. -/
theorem changed_comm : changed fields a b = changed fields b a := by
  simp only [changed, eq_comm]

end FieldOf

end Velora.Lib
