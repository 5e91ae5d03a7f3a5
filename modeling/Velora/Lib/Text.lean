import Mathlib

/-!
# Text as lists of characters

The strings of the program are lists of characters. Case is the case of ASCII, which is all that a name in
presentation form or an accepted host name has. The last part is about *joining with a separator*: a text followed by fields
that do not contain the separator can be read back (`append_sep_inj`), which is what makes a formatted
key injective whatever characters its first field holds.
-/

namespace Velora.Lib

/-- A string, as the list of its characters. -/
abbrev Str := List Char

instance : LawfulBEq Str := inferInstanceAs (LawfulBEq (List Char))

namespace Text

/-! ### Case -/

/-- The lower case of a character: of the letters of ASCII, and of the Kelvin sign and the dotted capital I, which are
the only other characters with a lower case in ASCII. -/
def lowerChar (c : Char) : Char :=
  if c.toNat = 0x212a then 'k' else if c.toNat = 0x130 then 'i' else c.toLower

/-- `strings.ToLower`. -/
def lower (s : Str) : Str := s.map lowerChar

/-- The upper case of a character: of the letters of ASCII, and of the dotless i and the long s, which are the only
other characters with an upper case in ASCII. -/
def upperChar (c : Char) : Char :=
  if c.toNat = 0x131 then 'I' else if c.toNat = 0x17f then 'S' else c.toUpper

/-- `strings.ToUpper`. -/
def upper (s : Str) : Str := s.map upperChar

/-- `strings.EqualFold`, on the names of messages. -/
def equalFold (a b : Str) : Bool := lower a == lower b

theorem equalFold_iff {a b : Str} : equalFold a b = true ↔ lower a = lower b := by
  simp [equalFold]

theorem equalFold_refl (a : Str) : equalFold a a = true := equalFold_iff.2 rfl

theorem isUpper_iff {c : Char} : c.isUpper = true ↔ 65 ≤ c.toNat ∧ c.toNat ≤ 90 := by
  simp only [Char.isUpper, ge_iff_le, decide_eq_true_eq]
  exact and_congr UInt32.le_iff_toNat_le UInt32.le_iff_toNat_le

theorem toLower_toNat {c : Char} (h : c.isUpper = true) : c.toLower.toNat = c.toNat + 32 := by
  have hle := isUpper_iff.1 h
  rw [Char.toLower_eq_of_isUpper h, Char.toNat_ofNat, if_pos (Or.inl (by omega))]

/-- A character of ASCII that is no capital is its own lower case. -/
theorem lowerChar_of_toNat {c : Char} (hascii : c.toNat < 128) (hu : c.toNat < 65 ∨ 90 < c.toNat) : lowerChar c = c := by
  have h1 : c.toNat ≠ 0x212a := by omega
  have h2 : c.toNat ≠ 0x130 := by omega
  have hno : ¬ c.isUpper = true := by
    rw [isUpper_iff]
    omega
  simp [lowerChar, h1, h2, Char.toLower_eq_of_not_isUpper hno]

/-- A character whose lower case is no small letter is that lower case. -/
theorem lowerChar_eq {c d : Char} (h : lowerChar c = d) (hd : d.isLower = false) : c = d := by
  unfold lowerChar at h
  split at h
  · subst h
    cases hd
  · split at h
    · subst h
      cases hd
    · by_cases hu : c.isUpper = true
      · have hn : c.toLower.isLower = true := by
          have hle := isUpper_iff.1 hu
          have hlow := toLower_toNat hu
          simp only [Char.isLower, ge_iff_le, Bool.and_eq_true, decide_eq_true_eq]
          constructor
          · show 97 ≤ c.toLower.toNat
            omega
          · show c.toLower.toNat ≤ 122
            omega
        rw [h, hd] at hn
        cases hn
      · rw [Char.toLower_eq_of_not_isUpper hu] at h
        exact h

theorem lowerChar_lowerChar (c : Char) : lowerChar (lowerChar c) = lowerChar c := by
  unfold lowerChar
  by_cases h1 : c.toNat = 0x212a
  · simp [h1]
  by_cases h2 : c.toNat = 0x130
  · simp [h2]
  -- the lower case of any other character is a letter of ASCII or the character itself
  by_cases hu : c.isUpper
  · have hle := isUpper_iff.1 hu
    have hlow := toLower_toNat hu
    have h3 : c.toLower.toNat ≠ 0x212a := by omega
    have h4 : c.toLower.toNat ≠ 0x130 := by omega
    simp [h1, h2, h3, h4]
  · simp [h1, h2, Char.toLower_eq_of_not_isUpper hu]

@[simp] theorem lower_lower (s : Str) : lower (lower s) = lower s := by
  simp [lower, lowerChar_lowerChar]

@[simp] theorem lower_append (a b : Str) : lower (a ++ b) = lower a ++ lower b := by
  simp [lower]

theorem upperChar_upperChar (c : Char) : upperChar (upperChar c) = upperChar c := by
  unfold upperChar
  by_cases h1 : c.toNat = 0x131
  · simp [h1]
  by_cases h2 : c.toNat = 0x17f
  · simp [h2]
  by_cases hl : c.isLower
  · have hrange : 97 ≤ c.toNat ∧ c.toNat ≤ 122 := by
      simp only [Char.isLower, ge_iff_le, Bool.and_eq_true, decide_eq_true_eq] at hl
      exact ⟨UInt32.le_iff_toNat_le.1 hl.1, UInt32.le_iff_toNat_le.1 hl.2⟩
    have hup : c.toUpper.toNat = c.toNat - 32 := by
      rw [Char.toUpper_eq_of_isLower hl, Char.toNat_ofNat, if_pos (Or.inl (by omega))]
    have h3 : c.toUpper.toNat ≠ 0x131 := by omega
    have h4 : c.toUpper.toNat ≠ 0x17f := by omega
    simp [h1, h2, h3, h4]
  · simp [h1, h2, Char.toUpper_eq_of_not_isLower hl]

@[simp] theorem upper_upper (s : Str) : upper (upper s) = upper s := by
  simp [upper, upperChar_upperChar]

/-! ### Cutting at dots -/

/-- What follows the first dot, then what follows the second, and so on. -/
def dotTails : Str → List Str
  | [] => []
  | c :: cs => if c = '.' then cs :: dotTails cs else dotTails cs

theorem mem_dotTails {n d : Str} : d ∈ dotTails n ↔ ∃ l, n = l ++ '.' :: d := by
  induction n with
  | nil => simp [dotTails]
  | cons c cs ih =>
    have hskip : (∃ l, c :: cs = l ++ '.' :: d) ↔ (c = '.' ∧ cs = d) ∨ ∃ l, cs = l ++ '.' :: d := by
      constructor
      · rintro ⟨l, hl⟩
        cases l with
        | nil =>
          injection hl with h1 h2
          exact Or.inl ⟨h1, h2⟩
        | cons x l =>
          injection hl with h1 h2
          exact Or.inr ⟨l, h2⟩
      · rintro (⟨rfl, rfl⟩ | ⟨l, rfl⟩)
        · exact ⟨[], rfl⟩
        · exact ⟨c :: l, rfl⟩
    rw [hskip, ← ih, dotTails]
    by_cases hc : c = '.'
    · simp [hc, eq_comm]
    · simp [hc]

/-- A name and what is left of it when it is cut at its dots, one after the other, down to the empty text. -/
def suffixes (s : Str) : List Str := (s :: dotTails s).takeWhile (· ≠ [])

/-- `strings.TrimSuffix(s, ".")`. -/
def trimDot (s : Str) : Str := if s.getLast? = some '.' then s.dropLast else s

/-- `unicode.IsSpace`, on ASCII: tab to carriage return, and the blank. -/
def isSpace (c : Char) : Bool := (9 ≤ c.toNat && c.toNat ≤ 13) || c.toNat == 32

/-- `strings.TrimSpace`. -/
def trimSpace (s : Str) : Str := ((s.dropWhile isSpace).reverse.dropWhile isSpace).reverse

/-- `unicode.IsSpace`, on all characters. -/
def isSpaceRune (c : Char) : Bool :=
  isSpace c || c.toNat ∈ [0x85, 0xa0, 0x1680, 0x2028, 0x2029, 0x202f, 0x205f, 0x3000] ||
    (0x2000 ≤ c.toNat && c.toNat ≤ 0x200a)

/-- `strings.TrimSpace`, of any text. -/
def trimSpaces (s : Str) : Str := ((s.dropWhile isSpaceRune).reverse.dropWhile isSpaceRune).reverse

/-- `strings.CutPrefix`: the rest, when the prefix is there. -/
def cutPrefix (p s : Str) : Option Str := if p.isPrefixOf s then some (s.drop p.length) else none

/-- `net.SplitHostPort`: the host, or what is wrong with the text. -/
def splitHostPort (s : Str) : Except String Str :=
  match (List.range s.length).reverse.find? (fun i => s[i]? == some ':') with
  | none => .error "missing port in address"
  | some i =>
    if s.head? = some '[' then
      match s.findIdx? (· == ']') with
      | none => .error "missing ']' in address"
      | some e =>
        if e + 1 = s.length then .error "missing port in address"
        else if e + 1 ≠ i then
          .error (if s[e + 1]? = some ':' then "too many colons in address" else "missing port in address")
        else if '[' ∈ s.drop 1 then .error "unexpected '[' in address"
        else if ']' ∈ s.drop (e + 1) then .error "unexpected ']' in address"
        else .ok ((s.take e).drop 1)
    else if ':' ∈ s.take i then .error "too many colons in address"
    else if '[' ∈ s then .error "unexpected '[' in address"
    else if ']' ∈ s then .error "unexpected ']' in address"
    else .ok (s.take i)

/-! ### Fields between separators -/

/-- A text followed by a separator and a field without separators determines both. -/
theorem append_sep_inj {sep : Char} {a b x y : Str} (hx : sep ∉ x) (hy : sep ∉ y)
    (h : a ++ sep :: x = b ++ sep :: y) : a = b ∧ x = y := by
  rcases List.append_eq_append_iff.1 h with ⟨m, hb, hm⟩ | ⟨m, ha, hm⟩
  · rcases m with _ | ⟨c, m⟩
    · simp only [List.nil_append, List.cons.injEq, true_and] at hm
      exact ⟨by simpa using hb.symm, hm⟩
    · -- the second separator would lie inside the first field
      simp only [List.cons_append, List.cons.injEq] at hm
      exact absurd (hm.2 ▸ by simp : sep ∈ x) hx
  · rcases m with _ | ⟨c, m⟩
    · simp only [List.nil_append, List.cons.injEq, true_and] at hm
      exact ⟨by simpa using ha, hm.symm⟩
    · simp only [List.cons_append, List.cons.injEq] at hm
      exact absurd (hm.2 ▸ by simp : sep ∈ y) hy

/-- `%d` of an unsigned integer. -/
def decimal (n : ℕ) : Str := Nat.toDigits 10 n

theorem decimal_inj {m n : ℕ} (h : decimal m = decimal n) : m = n := by
  have h' := congrArg (fun s => Nat.ofDigitChars 10 s 0) h
  simpa [decimal, Nat.ofDigitChars_toDigits] using h'

theorem notMem_decimal {c : Char} (hc : c.isDigit = false) (n : ℕ) : c ∉ decimal n := by
  intro h
  have := Nat.isDigit_of_mem_toDigits (b := 10) (by omega) (by omega) h
  rw [hc] at this
  cases this

/-- `%t` of a boolean. -/
def truth (b : Bool) : Str := if b then "true".toList else "false".toList

theorem truth_inj {a b : Bool} (h : truth a = truth b) : a = b := by
  revert a b; decide

theorem notMem_truth (b : Bool) : '/' ∉ truth b := by
  revert b; decide

end Text

end Velora.Lib
