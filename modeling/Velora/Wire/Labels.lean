import Velora.Lib.Utf8
import Velora.Wire.Present

/-!
# The dots of a name in presentation form

A name in presentation form has a dot after each label, and a backslash and a dot for each dot inside one. The labels can be
read back from the text (`dotted_inj`). A program that cuts the text at every dot gets more than the names above it:
`dotTails_dotted` says what, cut by cut, and `mem_textTails` which of the cuts fall inside a label.
-/

namespace Velora.Wire

open Velora.Lib Velora.Lib.Text Velora.Lib.Utf8

/-! ### Reading a name back -/

theorem octets_digits {x y z : Char} (hx : x.isDigit = true) (hy : y.isDigit = true) (hz : z.isDigit = true) (r : Str) :
    octets none ('\\' :: x :: y :: z :: r) = Nat.ofDigitChars 10 [x, y, z] 0 :: octets none r := by
  simp [octets, hx, hy, hz]

/-- The three digits of a byte. -/
def byteDigits (b : UInt8) : Str :=
  [Nat.digitChar (b.toNat / 100), Nat.digitChar (b.toNat / 10 % 10), Nat.digitChar (b.toNat % 10)]

/-- What is to be looked up of each byte: its digits, that a special byte is no digit, and the first character of its text. -/
theorem presentByte_table : ∀ b,
    ((byteDigits b).all Char.isDigit = true ∧ Nat.ofDigitChars 10 (byteDigits b) 0 = b.toNat) ∧
      (special b = true → (byteChar b).isDigit = false) ∧ presentByte b ≠ [] ∧ (presentByte b).head? ≠ some '.' := by
  refine forall_byte ?_
  decide +kernel

theorem byteDigits_spec (b : UInt8) :
    (byteDigits b).all Char.isDigit = true ∧ Nat.ofDigitChars 10 (byteDigits b) 0 = b.toNat := (presentByte_table b).1

theorem special_not_digit (b : UInt8) : special b = true → (byteChar b).isDigit = false := (presentByte_table b).2.1

theorem byteChar_ne_backslash {b : UInt8} (h : special b = false) : byteChar b ≠ '\\' := by
  intro hc
  have hn : b.toNat = 92 := (byteChar_toNat b).symm.trans (congrArg Char.toNat hc)
  simp [special, hn] at h

/-- The octet of a byte is the byte. -/
theorem octets_presentByte (b : UInt8) (r : Str) : octets none (presentByte b ++ r) = b.toNat :: octets none r := by
  unfold presentByte
  split
  · rename_i hs
    have hd := special_not_digit b hs
    simp [octets, hd, byteChar_toNat]
  split
  · obtain ⟨hall, hval⟩ := byteDigits_spec b
    simp only [byteDigits, List.all_cons, List.all_nil, Bool.and_true, Bool.and_eq_true] at hall hval
    obtain ⟨hx, hy, hz⟩ := hall
    have h := octets_digits hx hy hz r
    rw [hval] at h
    exact h
  · rename_i hs _
    show octets none (byteChar b :: r) = _
    rw [octets, if_neg (byteChar_ne_backslash (Bool.eq_false_iff.2 hs)), byteChar_toNat]

theorem presentByte_append_inj {a b : UInt8} {r s : Str} (h : presentByte a ++ r = presentByte b ++ s) : a = b ∧ r = s := by
  have hoct := congrArg (octets none) h
  rw [octets_presentByte, octets_presentByte, List.cons.injEq] at hoct
  have hab : a = b := UInt8.toNat_inj.1 hoct.1
  subst hab
  exact ⟨rfl, List.append_cancel_left h⟩

theorem presentByte_ne_dot {b : UInt8} {r s : Str} : presentByte b ++ r ≠ '.' :: s := by
  intro h
  have hhead : (presentByte b).head? = some '.' := by
    cases hp : presentByte b with
    | nil => exact absurd hp (presentByte_table b).2.2.1
    | cons c cs =>
      rw [hp] at h
      injection h with h1 _
      rw [h1]
      rfl
  exact (presentByte_table b).2.2.2 hhead

/-- The labels, with a dot after each. -/
def dotted (labels : List (List UInt8)) : Str := labels.flatMap (fun l => presentLabel l ++ ['.'])

theorem dotted_cons (l : List UInt8) (ls : List (List UInt8)) : dotted (l :: ls) = presentLabel l ++ '.' :: dotted ls := by
  simp [dotted]

theorem presentLabel_append_inj {l m : List UInt8} {r s : Str} (h : presentLabel l ++ '.' :: r = presentLabel m ++ '.' :: s) :
    l = m ∧ r = s := by
  induction l generalizing m with
  | nil =>
    cases m with
    | nil =>
      injection h with _ hrs
      exact ⟨rfl, hrs⟩
    | cons b m =>
      rw [presentLabel, presentLabel, List.flatMap_cons, List.append_assoc] at h
      exact absurd h.symm presentByte_ne_dot
  | cons a l ih =>
    rw [presentLabel, List.flatMap_cons, List.append_assoc] at h
    cases m with
    | nil => exact absurd h presentByte_ne_dot
    | cons b m =>
      rw [presentLabel, List.flatMap_cons, List.append_assoc] at h
      obtain ⟨rfl, hrest⟩ := presentByte_append_inj h
      obtain ⟨rfl, hrs⟩ := ih hrest
      exact ⟨rfl, hrs⟩

theorem dotted_inj {ls ms : List (List UInt8)} (h : dotted ls = dotted ms) : ls = ms := by
  induction ls generalizing ms with
  | nil =>
    cases ms with
    | nil => rfl
    | cons m ms => simp [dotted] at h
  | cons l ls ih =>
    cases ms with
    | nil => simp [dotted] at h
    | cons m ms =>
      rw [dotted_cons, dotted_cons] at h
      obtain ⟨rfl, hrest⟩ := presentLabel_append_inj h
      rw [ih hrest]

theorem present_eq_dotted {labels : List (List UInt8)} (h : labels ≠ []) : present labels = dotted labels := by
  rw [present, if_neg h]
  induction labels with
  | nil => exact absurd rfl h
  | cons l ls ih =>
    cases ls with
    | nil => simp [joinLabels, dotted]
    | cons l' ls =>
      have hrest := ih (by simp)
      rw [dotted_cons, ← hrest]
      simp [joinLabels, List.intercalate_cons_cons]

/-- The root is written like a name of one empty label. -/
theorem present_nil : present [] = dotted [[]] := rfl

theorem present_inj {ls ms : List (List UInt8)} (hl : [] ∉ ls) (hm : [] ∉ ms) (h : present ls = present ms) : ls = ms := by
  by_cases h1 : ls = []
  · subst h1
    by_contra hne
    rw [present_nil, present_eq_dotted (Ne.symm hne)] at h
    exact hm (dotted_inj h ▸ List.mem_singleton_self _)
  by_cases h2 : ms = []
  · subst h2
    rw [present_nil, present_eq_dotted h1] at h
    exact absurd (dotted_inj h ▸ List.mem_singleton_self _) hl
  · rw [present_eq_dotted h1, present_eq_dotted h2] at h
    exact dotted_inj h

/-! ### Case -/

def lowerByte (b : UInt8) : UInt8 := if 65 ≤ b.toNat ∧ b.toNat ≤ 90 then b + 32 else b

/-- The labels in lower case; two names are the same when they agree in it. -/
def folded (labels : List (List UInt8)) : List (List UInt8) := labels.map (fun l => l.map lowerByte)

theorem lowerByte_table : ∀ b, lower (presentByte b) = presentByte (lowerByte b) ∧ (b ≠ 46 → '.' ∉ presentByte b) := by
  refine forall_byte ?_
  decide +kernel

theorem lower_presentByte (b : UInt8) : lower (presentByte b) = presentByte (lowerByte b) := (lowerByte_table b).1

theorem lower_presentLabel (l : List UInt8) : lower (presentLabel l) = presentLabel (l.map lowerByte) := by
  induction l with
  | nil => rfl
  | cons b l ih =>
    rw [presentLabel, List.flatMap_cons, lower_append, lower_presentByte, ← presentLabel, ih]
    rfl

theorem lower_present (labels : List (List UInt8)) : lower (present labels) = present (folded labels) := by
  have hdot : lower ['.'] = ['.'] := by decide
  unfold present folded
  by_cases h : labels = []
  · subst h
    exact hdot
  · rw [if_neg h, if_neg (by simpa using h), joinLabels, lower_append, lower_intercalate '.' _ (by decide), hdot, joinLabels,
      List.map_map, List.map_map]
    congr 3
    exact funext lower_presentLabel

theorem nil_notMem_folded {labels : List (List UInt8)} (h : [] ∉ labels) : [] ∉ folded labels := by
  intro hmem
  obtain ⟨l, hl, hnil⟩ := List.mem_map.1 hmem
  rw [List.map_eq_nil_iff.1 hnil] at hl
  exact h hl

theorem WireName.nil_notMem (w : WireName) : [] ∉ w.labels := by
  intro h
  have := (w.bounds [] h).1
  simp at this

/-! ### Cutting at the dots -/

/-- What follows the dot bytes of a label, one after the other. -/
def byteTails : List UInt8 → List (List UInt8)
  | [] => []
  | b :: bs => if b = 46 then bs :: byteTails bs else byteTails bs

/-- What the text of a name is cut into at its dots: what is left of a label after a dot byte is taken for a label. -/
def textTails : List (List UInt8) → List (List (List UInt8))
  | [] => []
  | l :: ls => (byteTails l).map (· :: ls) ++ ls :: textTails ls

theorem dotTails_append {a : Str} (h : '.' ∉ a) (r : Str) : dotTails (a ++ r) = dotTails r := by
  induction a with
  | nil => rfl
  | cons c a ih =>
    rw [List.mem_cons, not_or] at h
    rw [List.cons_append, dotTails, if_neg (Ne.symm h.1), ih h.2]

theorem dot_notMem_presentByte (b : UInt8) : b ≠ 46 → '.' ∉ presentByte b := (lowerByte_table b).2

theorem dotTails_presentLabel (l : List UInt8) (r : Str) :
    dotTails (presentLabel l ++ r) = (byteTails l).map (fun v => presentLabel v ++ r) ++ dotTails r := by
  induction l with
  | nil => rfl
  | cons b l ih =>
    rw [presentLabel, List.flatMap_cons, List.append_assoc, ← presentLabel, byteTails]
    by_cases hb : b = 46
    · subst hb
      have hdot : presentByte 46 = ['\\', '.'] := by decide
      rw [hdot, if_pos rfl]
      show dotTails ('\\' :: '.' :: (presentLabel l ++ r)) = _
      rw [List.map_cons, List.cons_append, ← ih]
      rfl
    · rw [if_neg hb, dotTails_append (dot_notMem_presentByte b hb), ih]

/-- **The cuts of a name's text at its dots.** -/
theorem dotTails_dotted (labels : List (List UInt8)) : dotTails (dotted labels) = (textTails labels).map dotted := by
  induction labels with
  | nil => rfl
  | cons l ls ih =>
    rw [dotted_cons, dotTails_presentLabel, dotTails, if_pos rfl, ih, textTails, List.map_append, List.map_map, List.map_cons]
    congr 2
    exact funext fun v => (dotted_cons v ls).symm

theorem mem_byteTails {l v : List UInt8} : v ∈ byteTails l ↔ ∃ u, l = u ++ 46 :: v := by
  induction l with
  | nil => simp [byteTails]
  | cons b l ih =>
    have hskip : (∃ u, b :: l = u ++ 46 :: v) ↔ (b = 46 ∧ l = v) ∨ ∃ u, l = u ++ 46 :: v := by
      constructor
      · rintro ⟨u, hu⟩
        rcases List.cons_eq_append_iff.1 hu with ⟨-, h⟩ | ⟨u', -, h⟩
        · injection h with h1 h2
          exact Or.inl ⟨h1.symm, h2.symm⟩
        · exact Or.inr ⟨u', h⟩
      · rintro (⟨rfl, rfl⟩ | ⟨u, rfl⟩)
        · exact ⟨[], rfl⟩
        · exact ⟨b :: u, rfl⟩
    rw [hskip, ← ih, byteTails]
    by_cases hb : b = 46
    · simp [hb, eq_comm]
    · simp [hb]

/-- A cut falls behind a label, and leaves a name above, or behind a dot inside a label. -/
theorem mem_textTails {labels t : List (List UInt8)} : t ∈ textTails labels ↔
    (∃ us, us ≠ [] ∧ labels = us ++ t) ∨ ∃ us u v ws, labels = us ++ (u ++ 46 :: v) :: ws ∧ t = v :: ws := by
  induction labels with
  | nil => simp [textTails]
  | cons l ls ih =>
    rw [textTails, List.mem_append, List.mem_cons, List.mem_map, ih]
    constructor
    · rintro (⟨v, hv, rfl⟩ | rfl | ⟨us, -, rfl⟩ | ⟨us, u, v, ws, rfl, rfl⟩)
      · obtain ⟨u, rfl⟩ := mem_byteTails.1 hv
        exact Or.inr ⟨[], u, v, ls, rfl, rfl⟩
      · exact Or.inl ⟨[l], by simp, rfl⟩
      · exact Or.inl ⟨l :: us, by simp, rfl⟩
      · exact Or.inr ⟨l :: us, u, v, ws, rfl, rfl⟩
    · rintro (⟨us, hne, h⟩ | ⟨us, u, v, ws, h, rfl⟩)
      · obtain ⟨x, us, rfl⟩ := List.exists_cons_of_ne_nil hne
        injection h with h1 h2
        by_cases hus : us = []
        · subst hus
          exact Or.inr (Or.inl h2.symm)
        · exact Or.inr (Or.inr (Or.inl ⟨us, hus, h2⟩))
      · rcases List.cons_eq_append_iff.1 h with ⟨-, h'⟩ | ⟨us', -, h'⟩
        · injection h' with h1 h2
          exact Or.inl ⟨v, mem_byteTails.2 ⟨u, h1.symm⟩, by rw [h2]⟩
        · exact Or.inr (Or.inr (Or.inr ⟨us', u, v, ws, h', rfl⟩))

end Velora.Wire
