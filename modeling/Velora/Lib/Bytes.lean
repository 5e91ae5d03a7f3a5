import Mathlib.Data.List.Basic
import Mathlib.Data.Nat.ModEq

/-!
# Records of fixed width

A record is written as its fields one after the other, and a field is read as a slice. When the fields that are written have
the widths at which the slices are cut, each slice is its field (`slice_fields`). Numbers are fields with the highest byte
first.
-/

namespace Velora.Lib

/-! ### Slices -/

/-- `data[i:j]`. -/
def slice {α : Type} (data : List α) (i j : ℕ) : List α := (data.drop i).take (j - i)

section

variable {α : Type} {fields : List (List α)} {f : List α}

theorem drop_fields (fields : List (List α)) (tail : List α) {n : ℕ} (h : (fields.map List.length).sum = n) :
    (fields.flatten ++ tail).drop n = tail := by
  rw [← h, ← List.length_flatten, List.drop_left]

/-- **A field is read where it was written.** -/
theorem slice_fields (tail : List α) {k i j : ℕ} (hf : fields[k]? = some f)
    (hi : ((fields.take k).map List.length).sum = i) (hj : j = i + f.length) : slice (fields.flatten ++ tail) i j = f := by
  obtain ⟨hk, rfl⟩ := List.getElem?_eq_some_iff.1 hf
  have hsplit : fields.flatten ++ tail = (fields.take k).flatten ++ (fields[k] ++ ((fields.drop (k + 1)).flatten ++ tail)) := by
    conv_lhs => rw [← List.take_append_drop k fields, List.drop_eq_getElem_cons hk]
    rw [List.flatten_append, List.flatten_cons, List.append_assoc, List.append_assoc]
  rw [hsplit, slice, hj, ← hi, ← List.length_flatten, List.drop_left, Nat.add_sub_cancel_left, List.take_left]

end

/-! ### Numbers -/

/-- The lowest `n` bytes of a number, the highest of them first. -/
def bigEndian : ℕ → ℕ → List UInt8
  | 0, _ => []
  | n + 1, v => bigEndian n (v / 256) ++ [UInt8.ofNat v]

@[simp] theorem length_bigEndian (n v : ℕ) : (bigEndian n v).length = n := by
  induction n generalizing v with
  | zero => rfl
  | succ n ih => rw [bigEndian, List.length_append, ih, List.length_singleton]

/-- The number that is read back. -/
theorem foldl_bigEndian (n v : ℕ) : (bigEndian n v).foldl (fun n b => n * 256 + b.toNat) 0 = v % 256 ^ n := by
  induction n generalizing v with
  | zero => rw [pow_zero, Nat.mod_one, bigEndian, List.foldl_nil]
  | succ n ih =>
    have hpow : v % 256 ^ (n + 1) = v % 256 + 256 * (v / 256 % 256 ^ n) := by rw [pow_succ', Nat.mod_mul]
    rw [bigEndian, List.foldl_append, ih, List.foldl_cons, List.foldl_nil, UInt8.toNat_ofNat', hpow]
    omega

end Velora.Lib
