import Velora.Wire.Name

/-!
# Names of messages

A name of a message is a list of labels of bytes. `github.com/miekg/dns` hands it to the program in presentation form:
a byte that has a meaning there is escaped by a backslash, and a byte that cannot be printed is written as its three decimal
digits.
-/

namespace Velora.Wire

open Velora.Lib Velora.Lib.Text

/-- A name as it can stand in a message. -/
structure WireName where
  labels : List (List UInt8)
  bounds : ∀ l ∈ labels, 1 ≤ l.length ∧ l.length ≤ 63
  short : (labels.map (fun l => l.length + 1)).sum + 1 ≤ 255

def byteChar (b : UInt8) : Char := Char.ofNat b.toNat

/-- `isDomainNameLabelSpecial`: dot, blank, quotes, at, semicolon, parentheses and backslash. -/
def special (b : UInt8) : Bool := b.toNat ∈ [46, 32, 39, 64, 59, 40, 41, 34, 92]

/-- One byte of a label. -/
def presentByte (b : UInt8) : Str :=
  if special b then ['\\', byteChar b]
  else if b.toNat < 32 ∨ 126 < b.toNat then
    ['\\', Nat.digitChar (b.toNat / 100), Nat.digitChar (b.toNat / 10 % 10), Nat.digitChar (b.toNat % 10)]
  else [byteChar b]

def presentLabel (l : List UInt8) : Str := l.flatMap presentByte

/-- The name in presentation form. -/
def present (labels : List (List UInt8)) : Str := if labels = [] then root else joinLabels (labels.map presentLabel)

example : present [[119, 46, 0], [97]] = "w\\.\\000.a.".toList := by decide

/-! ### Bytes that stand for themselves -/

def plainByte (b : UInt8) : Bool := !special b && 32 ≤ b.toNat && b.toNat ≤ 126

theorem byteChar_toNat (b : UInt8) : (byteChar b).toNat = b.toNat := by
  have hb := b.toNat_lt
  rw [byteChar, Char.toNat_ofNat, if_pos (Or.inl (by omega))]

theorem byteChar_inj {a b : UInt8} (h : byteChar a = byteChar b) : a = b := by
  have hn := congrArg Char.toNat h
  rw [byteChar_toNat, byteChar_toNat] at hn
  exact UInt8.toNat_inj.1 hn

theorem presentByte_plain {b : UInt8} (h : plainByte b = true) : presentByte b = [byteChar b] := by
  simp only [plainByte, Bool.and_eq_true, Bool.not_eq_true', decide_eq_true_eq] at h
  obtain ⟨⟨hs, hlo⟩, hhi⟩ := h
  rw [presentByte, hs, if_neg Bool.false_ne_true, if_neg (by omega)]

/-- Any other byte is written with a backslash. -/
theorem presentByte_escape {b : UInt8} (h : plainByte b = false) : ∃ r, presentByte b = '\\' :: r := by
  unfold presentByte
  split
  · exact ⟨_, rfl⟩
  · rename_i hs
    split
    · exact ⟨_, rfl⟩
    · rename_i hr
      simp only [plainByte, hs, Bool.not_false, Bool.true_and, Bool.and_eq_false_iff, decide_eq_false_iff_not] at h
      omega

theorem presentLabel_plain {l : List UInt8} (h : ∀ b ∈ l, plainByte b = true) : presentLabel l = l.map byteChar := by
  rw [presentLabel, List.flatMap_congr fun b hb => presentByte_plain (h b hb), ← List.map_eq_flatMap]

/-- The presentation of a label does not start with a blank. -/
theorem head_presentLabel {l : List UInt8} {c : Char} (h : (presentLabel l).head? = some c) :
    c = '\\' ∨ ∃ b, plainByte b = true ∧ c = byteChar b := by
  cases l with
  | nil => cases h
  | cons b bs =>
    cases hb : plainByte b with
    | true =>
      rw [presentLabel, List.flatMap_cons, presentByte_plain hb] at h
      exact Or.inr ⟨b, hb, by simpa using h.symm⟩
    | false =>
      obtain ⟨r, hr⟩ := presentByte_escape hb
      rw [presentLabel, List.flatMap_cons, hr] at h
      exact Or.inl (by simpa using h.symm)

theorem intercalate_append {x : Char} {as bs : List Str} (ha : as ≠ []) (hb : bs ≠ []) :
    [x].intercalate (as ++ bs) = [x].intercalate as ++ x :: [x].intercalate bs := by
  induction as with
  | nil => exact absurd rfl ha
  | cons a as ih =>
    cases as with
    | nil =>
      obtain ⟨b, bs, rfl⟩ := List.exists_cons_of_ne_nil hb
      simp [List.intercalate_cons_cons]
    | cons a' as =>
      have hrest := ih (by simp)
      simp only [List.cons_append] at hrest ⊢
      rw [List.intercalate_cons_cons, List.intercalate_cons_cons, hrest]
      simp

theorem lower_intercalate (x : Char) (ls : List Str) (hx : lowerChar x = x) :
    lower ([x].intercalate ls) = [x].intercalate (ls.map lower) := by
  induction ls with
  | nil => rfl
  | cons l ls ih =>
    cases ls with
    | nil => simp
    | cons l' ls =>
      rw [List.map_cons, List.map_cons, List.intercalate_cons_cons, List.intercalate_cons_cons, ← List.map_cons, ← ih,
        lower_append, lower_append]
      simp [lower, hx]

end Velora.Wire
