import Velora.Wire.Labels

/-!
# Character-strings and their printed form

A TXT record is a list of character-strings, which `github.com/miekg/dns` keeps in *escaped form*: a backslash there stands
with what follows it for one byte. The library reads the escapes when it packs a string and when it prints it
(`Unescapes`), and what it prints between quotes is the escaped form of the bytes. So a text that is put into a record as it
is, cut into pieces, is printed as another text, unless it was in escaped form and no escape was cut: `kept_iff` says exactly
when the printed pieces are the text again.
-/

namespace Velora.Wire

open Velora.Lib Velora.Lib.Text Velora.Lib.Utf8

/-! ### What the library does -/

/-- `isDDD`: the bytes go on with three digits. -/
def isDDD : List UInt8 → Bool
  | x :: y :: z :: _ => (byteChar x).isDigit && (byteChar y).isDigit && (byteChar z).isDigit
  | _ => false

/-- What the library reads a string as: a backslash and three digits are one byte, a backslash and another byte are that byte,
a backslash at the end is nothing, and every other byte is itself. -/
structure Unescapes (read : List UInt8 → List UInt8) : Prop where
  nil : read [] = []
  plain : ∀ {b : UInt8} (s), b ≠ 92 → read (b :: s) = b :: read s
  code : ∀ {x y z : UInt8} (s), isDDD [x, y, z] = true → ∃ b : UInt8, read (92 :: x :: y :: z :: s) = b :: read s ∧
    (Nat.ofDigitChars 10 [byteChar x, byteChar y, byteChar z] 0 ≤ 255 →
      b.toNat = Nat.ofDigitChars 10 [byteChar x, byteChar y, byteChar z] 0)
  escape : ∀ {b : UInt8} (s), isDDD (b :: s) = false → read (92 :: b :: s) = b :: read s
  dangling : read [92] = []

/-- The reading of a string, with the code of a byte as the library computes it. -/
def unescape : List UInt8 → List UInt8
  | [] => []
  | b :: s =>
    if b ≠ 92 then b :: unescape s
    else
      match s with
      | x :: y :: z :: r =>
        if isDDD [x, y, z] then UInt8.ofNat (Nat.ofDigitChars 10 [byteChar x, byteChar y, byteChar z] 0) :: unescape r
        else x :: unescape (y :: z :: r)
      | x :: r => x :: unescape r
      | [] => []

theorem unescape_unescapes : Unescapes unescape where
  nil := rfl
  plain s hb := by
    rw [unescape.eq_def]
    exact if_pos hb
  code s h := by
    refine ⟨_, by rw [unescape, if_neg (by decide)]; exact if_pos h, fun hle => ?_⟩
    exact UInt8.toNat_ofNat_of_lt' (Nat.lt_succ_of_le hle)
  escape s h := by
    match s, h with
    | [], _ => rfl
    | [_], _ => rfl
    | y :: z :: r, h =>
      rw [unescape, if_neg (by decide)]
      exact if_neg (by rw [show isDDD [_, y, z] = false from h]; decide)
  dangling := rfl

example : unescape [99, 92, 49, 57, 53, 92, 34] = [99, 195, 34] := by decide

/-- One byte between quotes. -/
def escapeByte (b : UInt8) : Str :=
  if b = 34 ∨ b = 92 then ['\\', byteChar b]
  else if b.toNat < 32 ∨ 126 < b.toNat then '\\' :: byteDigits b
  else [byteChar b]

/-- What is printed between quotes for a string. -/
def quoted (read : List UInt8 → List UInt8) (s : Str) : Str := (read (utf8 s)).flatMap escapeByte

/-! ### Escaped form -/

/-- A character that is printed as it is. -/
def Bare (c : Char) : Prop := 32 ≤ c.toNat ∧ c.toNat ≤ 126 ∧ c ≠ '"' ∧ c ≠ '\\'

/-- The digits are those of a byte that cannot be printed. -/
def Coded (x y z : Char) : Prop := ∃ b : UInt8, [x, y, z] = byteDigits b ∧ (b.toNat < 32 ∨ 126 < b.toNat)

/-- The texts that are printed between quotes. -/
inductive Escaped : Str → Prop
  | nil : Escaped []
  | bare {c s} : Bare c → Escaped s → Escaped (c :: s)
  | pair {c s} : c = '"' ∨ c = '\\' → Escaped s → Escaped ('\\' :: c :: s)
  | code {x y z s} : Coded x y z → Escaped s → Escaped ('\\' :: x :: y :: z :: s)

/-- A text in escaped form, cut into pieces, none of them inside an escape; except that a backslash which ends a piece (and
is owed then) is made good by a double quote, with nothing but pairs of backslashes before it. -/
inductive Kept : Bool → List Str → Prop
  | done : Kept false []
  | next {owed ps} : Kept owed ps → Kept owed ([] :: ps)
  | bare {c s ps} : Bare c → Kept false (s :: ps) → Kept false ((c :: s) :: ps)
  | pair {c s ps} : c = '"' ∨ c = '\\' → Kept false (s :: ps) → Kept false (('\\' :: c :: s) :: ps)
  | code {x y z s ps} : Coded x y z → Kept false (s :: ps) → Kept false (('\\' :: x :: y :: z :: s) :: ps)
  | cut {ps} : Kept true ps → Kept false (['\\'] :: ps)
  | backslashes {s ps} : Kept true (s :: ps) → Kept true (('\\' :: '\\' :: s) :: ps)
  | quote {s ps} : Kept false (s :: ps) → Kept true (('"' :: s) :: ps)

/-! ### One byte, one character -/

theorem byteChar_ofNat {c : Char} (h : c.toNat < 128) : byteChar (UInt8.ofNat c.toNat) = c := by
  rw [byteChar, toNat_ofNat h, Char.ofNat_toNat]

theorem isDigit_iff {c : Char} : c.isDigit = true ↔ 48 ≤ c.toNat ∧ c.toNat ≤ 57 := Char.isDigit_iff_toNat

theorem bare_of_digit {c : Char} (h : c.isDigit = true) : Bare c := by
  obtain ⟨hlo, hhi⟩ := isDigit_iff.1 h
  refine ⟨by omega, by omega, ?_, ?_⟩
  · rintro rfl
    cases h
  · rintro rfl
    cases h

/-- A byte is printed as its character, after a backslash, or in digits. -/
theorem escapeByte_cases (b : UInt8) : (Bare (byteChar b) ∧ escapeByte b = [byteChar b]) ∨
    ((byteChar b = '"' ∨ byteChar b = '\\') ∧ escapeByte b = ['\\', byteChar b]) ∨
    ((b.toNat < 32 ∨ 126 < b.toNat) ∧ escapeByte b = '\\' :: byteDigits b) := by
  by_cases hpair : b = 34 ∨ b = 92
  · refine Or.inr (Or.inl ⟨?_, if_pos hpair⟩)
    rcases hpair with rfl | rfl
    · exact Or.inl (by decide)
    · exact Or.inr (by decide)
  by_cases hcode : b.toNat < 32 ∨ 126 < b.toNat
  · exact Or.inr (Or.inr ⟨hcode, by rw [escapeByte, if_neg hpair, if_pos hcode]⟩)
  · refine Or.inl ⟨⟨by rw [byteChar_toNat]; omega, by rw [byteChar_toNat]; omega, ?_, ?_⟩, ?_⟩
    · intro h
      exact hpair (Or.inl (@byteChar_inj b 34 (h.trans (by decide))))
    · intro h
      exact hpair (Or.inr (@byteChar_inj b 92 (h.trans (by decide))))
    · rw [escapeByte, if_neg hpair, if_neg hcode]

/-- What is printed for a character. -/
def escapeChar (c : Char) : Str := (String.utf8EncodeChar c).flatMap escapeByte

/-- A character is printed as it is, after a backslash, or with a backslash and a digit first. -/
theorem escapeChar_cases (c : Char) : (Bare c ∧ escapeChar c = [c]) ∨ ((c = '"' ∨ c = '\\') ∧ escapeChar c = ['\\', c]) ∨
    (¬ Bare c ∧ ∃ d r, d.isDigit = true ∧ escapeChar c = '\\' :: d :: r) := by
  have hdigits : ∀ b : UInt8, ∃ d r, d.isDigit = true ∧ byteDigits b = d :: r := fun b => by
    have hall := (byteDigits_spec b).1
    rw [byteDigits, List.all_cons, Bool.and_eq_true] at hall
    exact ⟨_, _, hall.1, rfl⟩
  by_cases hc : c.toNat < 128
  · have hone : escapeChar c = escapeByte (UInt8.ofNat c.toNat) := by
      rw [escapeChar, encode_ascii hc, List.flatMap_singleton]
    have hchar := byteChar_ofNat hc
    rcases escapeByte_cases (UInt8.ofNat c.toNat) with ⟨hb, heq⟩ | ⟨hb, heq⟩ | ⟨hb, heq⟩
    · rw [hchar] at hb heq
      exact Or.inl ⟨hb, hone.trans heq⟩
    · rw [hchar] at hb heq
      exact Or.inr (Or.inl ⟨hb, hone.trans heq⟩)
    · obtain ⟨d, r, hd, hr⟩ := hdigits (UInt8.ofNat c.toNat)
      rw [toNat_ofNat hc] at hb
      exact Or.inr (Or.inr ⟨fun hbare => by have := hbare.1; have := hbare.2.1; omega, d, r, hd, by rw [hone, heq, hr]⟩)
  · obtain ⟨b, bs, heq, -, hb, -⟩ := encode_high (not_lt.1 hc)
    obtain ⟨d, r, hd, hr⟩ := hdigits b
    have hesc : escapeByte b = '\\' :: byteDigits b := by
      rw [escapeByte, if_neg, if_pos (Or.inr (by omega))]
      rintro (rfl | rfl) <;> exact absurd hb (by decide)
    refine Or.inr (Or.inr ⟨fun hbare => by have := hbare.2.1; omega, d, r ++ bs.flatMap escapeByte, hd, ?_⟩)
    rw [escapeChar, heq, List.flatMap_cons, hesc, hr]
    rfl

/-! ### The front of a string -/

section

variable {read : List UInt8 → List UInt8}

/-- What a string begins with, and what is printed for it. -/
inductive Front (read : List UInt8 → List UInt8) : Str → Prop
  | plain {c s} : c ≠ '\\' → quoted read (c :: s) = escapeChar c ++ quoted read s → Front read (c :: s)
  | code {x y z s} (b : UInt8) : x.isDigit = true ∧ y.isDigit = true ∧ z.isDigit = true →
      quoted read ('\\' :: x :: y :: z :: s) = escapeByte b ++ quoted read s → Front read ('\\' :: x :: y :: z :: s)
  | escape {c s} : quoted read ('\\' :: c :: s) = escapeChar c ++ quoted read s → Front read ('\\' :: c :: s)
  | dangling : quoted read ['\\'] = [] → Front read ['\\']

/-- A digit among the bytes of a text is a digit of the text. -/
theorem utf8_digit {t : Str} {b : UInt8} {r : List UInt8} (h : utf8 t = b :: r) (hb : (byteChar b).isDigit = true) :
    ∃ t', t = byteChar b :: t' ∧ r = utf8 t' := by
  rw [isDigit_iff, byteChar_toNat] at hb
  obtain _ | ⟨c, t'⟩ := t
  · cases h
  rw [utf8_cons] at h
  by_cases hc : c.toNat < 128
  · rw [encode_ascii hc, List.singleton_append, List.cons.injEq] at h
    refine ⟨t', ?_, h.2.symm⟩
    rw [← h.1, byteChar_ofNat hc]
  · obtain ⟨x, xs, heq, -, hx, -⟩ := encode_high (not_lt.1 hc)
    rw [heq, List.cons_append, List.cons.injEq] at h
    rw [h.1] at hx
    omega

theorem isDDD_utf8 {t : Str} (h : isDDD (utf8 t) = true) :
    ∃ x y z s, t = x :: y :: z :: s ∧ x.isDigit = true ∧ y.isDigit = true ∧ z.isDigit = true := by
  obtain ⟨x, y, z, r, ht, hx, hy, hz⟩ : ∃ x y z r, utf8 t = x :: y :: z :: r ∧ (byteChar x).isDigit = true ∧
      (byteChar y).isDigit = true ∧ (byteChar z).isDigit = true := by
    unfold isDDD at h
    split at h
    · rename_i ht
      rw [Bool.and_eq_true, Bool.and_eq_true] at h
      exact ⟨_, _, _, _, ht, h.1.1, h.1.2, h.2⟩
    · cases h
  obtain ⟨t₁, rfl, h₁⟩ := utf8_digit ht hx
  obtain ⟨t₂, rfl, h₂⟩ := utf8_digit h₁.symm hy
  obtain ⟨t₃, rfl, -⟩ := utf8_digit h₂.symm hz
  exact ⟨_, _, _, _, rfl, hx, hy, hz⟩

theorem utf8_ascii {c : Char} (h : c.toNat < 128) (s : Str) : utf8 (c :: s) = UInt8.ofNat c.toNat :: utf8 s := by
  rw [utf8_cons, encode_ascii h, List.singleton_append]

theorem utf8_backslash (s : Str) : utf8 ('\\' :: s) = 92 :: utf8 s := utf8_ascii (by decide) s

variable (hread : Unescapes read)

include hread

/-- Bytes that are not a backslash are read as they are. -/
theorem Unescapes.append : ∀ {bs : List UInt8} (s), (∀ b ∈ bs, b ≠ 92) → read (bs ++ s) = bs ++ read s
  | [], _, _ => rfl
  | b :: bs, s, h => by
    rw [List.cons_append, hread.plain _ (h b List.mem_cons_self), Unescapes.append s fun x hx => h x (List.mem_cons_of_mem b hx)]
    rfl

/-- Bytes without a backslash are read as they are. -/
theorem Unescapes.eq_self {s : List UInt8} (h : 92 ∉ s) : read s = s := by
  have hself := hread.append [] fun b hb heq => h (heq ▸ hb)
  rwa [List.append_nil, hread.nil, List.append_nil] at hself

/-- An escape is read as fewer bytes than it has. -/
theorem Unescapes.length_le (s : List UInt8) : (read s).length ≤ s.length ∧ (92 ∈ s → (read s).length < s.length) := by
  induction hn : s.length using Nat.strong_induction_on generalizing s with
  | _ n ih =>
    obtain _ | ⟨b, t⟩ := s
    · rw [hread.nil]
      exact ⟨Nat.zero_le _, fun h => absurd h List.not_mem_nil⟩
    rw [List.length_cons] at hn
    by_cases hb : b = 92
    · subst hb
      obtain _ | ⟨x, r⟩ := t
      · rw [hread.dangling]
        exact ⟨Nat.zero_le _, fun _ => by omega⟩
      rw [List.length_cons] at hn
      cases hddd : isDDD (x :: r) with
      | false =>
        have hle := (ih r.length (by omega) r rfl).1
        rw [hread.escape r hddd, List.length_cons]
        exact ⟨by omega, fun _ => by omega⟩
      | true =>
        match r, hddd with
        | y :: z :: u, hddd =>
          obtain ⟨c, hc, -⟩ := @Unescapes.code _ hread x y z u hddd
          rw [List.length_cons, List.length_cons] at hn
          have hle := (ih u.length (by omega) u rfl).1
          rw [hc, List.length_cons]
          exact ⟨by omega, fun _ => by omega⟩
    · obtain ⟨hle, hlt⟩ := ih t.length (by omega) t rfl
      rw [hread.plain t hb, List.length_cons]
      refine ⟨by omega, fun h => ?_⟩
      have := hlt ((List.mem_cons.1 h).resolve_left fun h => hb h.symm)
      omega

/-- **When strings are read as they are**: when there is no backslash in them. -/
theorem Unescapes.flatMap_eq_iff {ss : List (List UInt8)} : ss.flatMap read = ss.flatten ↔ 92 ∉ ss.flatten := by
  have hlen : (ss.flatMap read).length ≤ ss.flatten.length ∧ (92 ∈ ss.flatten → (ss.flatMap read).length < ss.flatten.length) := by
    induction ss with
    | nil => exact ⟨le_refl _, fun h => absurd h List.not_mem_nil⟩
    | cons s ss ih =>
      obtain ⟨hle, hlt⟩ := hread.length_le s
      rw [List.flatMap_cons, List.flatten_cons, List.length_append, List.length_append, List.mem_append]
      refine ⟨by omega, ?_⟩
      rintro (h | h)
      · have := hlt h
        omega
      · have := ih.2 h
        omega
  constructor
  · intro heq h
    have hlt := hlen.2 h
    rw [heq] at hlt
    exact lt_irrefl _ hlt
  · intro h
    rw [← List.flatMap_id, List.flatMap_congr fun s hs => hread.eq_self fun h92 => h (List.mem_flatten.2 ⟨s, hs, h92⟩)]
    rfl

theorem quoted_plain {c : Char} (s : Str) (h : c ≠ '\\') : quoted read (c :: s) = escapeChar c ++ quoted read s := by
  have hbytes : ∀ b ∈ String.utf8EncodeChar c, b ≠ 92 := by
    rintro b hb rfl
    exact h (Char.toNat_inj.1 (mem_encode (by decide) hb))
  rw [quoted, utf8_cons, hread.append _ hbytes, List.flatMap_append]
  rfl

theorem quoted_code {x y z : Char} (s : Str) (hx : x.isDigit = true) (hy : y.isDigit = true) (hz : z.isDigit = true) :
    ∃ b : UInt8, quoted read ('\\' :: x :: y :: z :: s) = escapeByte b ++ quoted read s ∧
      (Nat.ofDigitChars 10 [x, y, z] 0 ≤ 255 → b.toNat = Nat.ofDigitChars 10 [x, y, z] 0) := by
  have hascii : ∀ {c : Char}, c.isDigit = true → c.toNat < 128 := fun h => by
    have := isDigit_iff.1 h
    omega
  obtain ⟨b, hb, hval⟩ := @Unescapes.code _ hread (UInt8.ofNat x.toNat) (UInt8.ofNat y.toNat) (UInt8.ofNat z.toNat) (utf8 s)
    (by simp [isDDD, byteChar_ofNat (hascii hx), byteChar_ofNat (hascii hy), byteChar_ofNat (hascii hz), hx, hy, hz])
  rw [byteChar_ofNat (hascii hx), byteChar_ofNat (hascii hy), byteChar_ofNat (hascii hz)] at hval
  refine ⟨b, ?_, hval⟩
  rw [quoted, utf8_backslash, utf8_ascii (hascii hx), utf8_ascii (hascii hy), utf8_ascii (hascii hz), hb]
  rfl

theorem quoted_escape {c : Char} (s : Str) (h : isDDD (utf8 (c :: s)) = false) :
    quoted read ('\\' :: c :: s) = escapeChar c ++ quoted read s := by
  by_cases hc : c.toNat < 128
  · rw [utf8_ascii hc] at h
    rw [quoted, utf8_backslash, utf8_ascii hc, hread.escape _ h, List.flatMap_cons, escapeChar, encode_ascii hc,
      List.flatMap_singleton]
    rfl
  · obtain ⟨b, bs, heq, -, hb, hbs⟩ := encode_high (not_lt.1 hc)
    have hrest : ∀ x ∈ bs, x ≠ 92 := by
      rintro x hx rfl
      exact absurd (hbs _ hx).2 (by decide)
    rw [utf8_cons, heq, List.cons_append] at h
    rw [quoted, utf8_backslash, utf8_cons, heq, List.cons_append, hread.escape _ h, hread.append _ hrest, escapeChar, heq,
      List.flatMap_cons, List.flatMap_cons, List.flatMap_append, List.append_assoc]
    rfl

theorem quoted_dangling : quoted read ['\\'] = [] := by
  rw [quoted, utf8_backslash, utf8, List.flatMap_nil, hread.dangling, List.flatMap_nil]

theorem front {s : Str} (h : s ≠ []) : Front read s := by
  obtain ⟨c, t, rfl⟩ := List.exists_cons_of_ne_nil h
  by_cases hc : c = '\\'
  · subst hc
    obtain _ | ⟨d, r⟩ := t
    · exact .dangling (quoted_dangling hread)
    cases hddd : isDDD (utf8 (d :: r)) with
    | false => exact .escape (quoted_escape hread r hddd)
    | true =>
      obtain ⟨x, y, z, s, heq, hx, hy, hz⟩ := isDDD_utf8 hddd
      rw [heq]
      obtain ⟨b, hb, -⟩ := quoted_code hread s hx hy hz
      exact .code b ⟨hx, hy, hz⟩ hb
  · exact .plain hc (quoted_plain hread t hc)

end

/-! ### Escaped texts -/

theorem escaped_escapeByte (b : UInt8) {s : Str} (h : Escaped s) : Escaped (escapeByte b ++ s) := by
  rcases escapeByte_cases b with ⟨hb, heq⟩ | ⟨hb, heq⟩ | ⟨hb, heq⟩
  · rw [heq]
    exact .bare hb h
  · rw [heq]
    exact .pair hb h
  · rw [heq]
    exact .code ⟨b, rfl, hb⟩ h

theorem escaped_flatMap (bs : List UInt8) : Escaped (bs.flatMap escapeByte) := by
  induction bs with
  | nil => exact .nil
  | cons b bs ih =>
    rw [List.flatMap_cons]
    exact escaped_escapeByte b ih

/-- What is printed for the pieces of a text is in escaped form. -/
theorem escaped_printed (read : List UInt8 → List UInt8) (ps : List Str) : Escaped (ps.flatMap (quoted read)) := by
  have h := escaped_flatMap (ps.flatMap (fun p => read (utf8 p)))
  rwa [List.flatMap_assoc] at h

theorem Escaped.tail {c : Char} {s : Str} (h : Escaped (c :: s)) (hc : c ≠ '\\') : Bare c ∧ Escaped s := by
  cases h with
  | bare hb hs => exact ⟨hb, hs⟩
  | pair => exact absurd rfl hc
  | code => exact absurd rfl hc

theorem Escaped.digits {x y : Char} {s : Str} (h : Escaped (x :: y :: s)) (hx : x.isDigit = true) (hy : y.isDigit = true) :
    Escaped s :=
  ((h.tail (bare_of_digit hx).2.2.2).2.tail (bare_of_digit hy).2.2.2).2

/-- After a backslash and the character that follows it the text is in escaped form again: two more digits are. -/
theorem Escaped.after {c : Char} {s : Str} (h : Escaped ('\\' :: c :: s)) :
    (c = '"' ∨ c = '\\' ∨ c.isDigit = true) ∧ Escaped s := by
  cases h with
  | bare hb _ => exact absurd rfl hb.2.2.2
  | pair hc hs => exact ⟨hc.imp_right Or.inl, hs⟩
  | @code x y z s hcode hs =>
    obtain ⟨b, hb, -⟩ := hcode
    have hall := (byteDigits_spec b).1
    rw [← hb] at hall
    simp only [List.all_cons, List.all_nil, Bool.and_true, Bool.and_eq_true] at hall
    exact ⟨Or.inr (Or.inr hall.1), .bare (bare_of_digit hall.2.1) (.bare (bare_of_digit hall.2.2) hs)⟩

/-! ### Nothing is gained -/

/-- Induction on the pieces of a text: from the rest of a piece, and from the other pieces. -/
theorem pieces_induction {motive : List Str → Prop} (nil : motive []) (next : ∀ ps, motive ps → motive ([] :: ps))
    (cons : ∀ c s ps, motive ps → (∀ t, t <:+ s → motive (t :: ps)) → motive ((c :: s) :: ps)) : ∀ ps, motive ps := by
  intro ps
  induction ps with
  | nil => exact nil
  | cons p ps ih =>
    have hall : ∀ t, t <:+ p → motive (t :: ps) := by
      induction p with
      | nil =>
        intro t ht
        rw [List.suffix_nil.1 ht]
        exact next ps ih
      | cons c s ihs =>
        intro t ht
        rcases List.suffix_cons_iff.1 ht with rfl | ht
        · exact cons c s ps ih ihs
        · exact ihs t ht
    exact hall p (List.suffix_refl p)

/-- The backslash that is owed. -/
def debt (owed : Bool) : Str := bif owed then ['\\'] else []

theorem length_false : (debt false).length = 0 := rfl

theorem length_true : (debt true).length = 1 := rfl

/-- A character that is printed as it stands, or after the backslash that is owed. -/
theorem plain_eq {owed : Bool} {c : Char} {u v : Str} (hc : c ≠ '\\') (h : escapeChar c ++ u = debt owed ++ c :: v) :
    u = v ∧ (owed = false ∧ Bare c ∨ owed = true ∧ c = '"') := by
  rcases escapeChar_cases c with ⟨hbare, hchar⟩ | ⟨hpair, hchar⟩ | ⟨hno, d, r, hd, hchar⟩
  · rw [hchar] at h
    cases owed with
    | false => exact ⟨(List.cons.inj h).2, Or.inl ⟨rfl, hbare⟩⟩
    | true => exact absurd (List.cons.inj h).1 hc
  · rw [hchar] at h
    cases owed with
    | false => exact absurd (List.cons.inj h).1.symm hc
    | true => exact ⟨(List.cons.inj (List.cons.inj h).2).2, Or.inr ⟨rfl, hpair.resolve_right hc⟩⟩
  · rw [hchar] at h
    cases owed with
    | false => exact absurd (List.cons.inj h).1.symm hc
    | true =>
      have hsame : d = c := (List.cons.inj (List.cons.inj h).2).1
      exact absurd (bare_of_digit (hsame ▸ hd)) hno

/-- An escaped character that is printed as it stands; after a backslash that is owed it is a backslash and owes another. -/
theorem escape_eq {owed : Bool} {c : Char} {u v : Str} (h : escapeChar c ++ u = debt owed ++ '\\' :: c :: v) :
    (owed = false ∧ (c = '"' ∨ c = '\\') ∧ u = v) ∨ (owed = true ∧ c = '\\' ∧ u = '\\' :: v) := by
  rcases escapeChar_cases c with ⟨hbare, hchar⟩ | ⟨hpair, hchar⟩ | ⟨hno, d, r, hd, hchar⟩
  · rw [hchar] at h
    cases owed with
    | false => exact absurd (List.cons.inj h).1 hbare.2.2.2
    | true => exact absurd (List.cons.inj h).1 hbare.2.2.2
  · rw [hchar] at h
    cases owed with
    | false => exact Or.inl ⟨rfl, hpair, (List.cons.inj (List.cons.inj h).2).2⟩
    | true =>
      obtain rfl : c = '\\' := (List.cons.inj (List.cons.inj h).2).1
      exact Or.inr ⟨rfl, rfl, (List.cons.inj (List.cons.inj h).2).2⟩
  · rw [hchar] at h
    cases owed with
    | false =>
      have hsame : d = c := (List.cons.inj (List.cons.inj h).2).1
      exact absurd (bare_of_digit (hsame ▸ hd)) hno
    | true =>
      have hsame : d = '\\' := (List.cons.inj (List.cons.inj h).2).1
      rw [hsame] at hd
      cases hd

/-- An escaped byte that is printed as it stands; after a backslash that is owed its digits remain. -/
theorem code_eq {owed : Bool} {b : UInt8} {x y z : Char} {u v : Str}
    (hd : x.isDigit = true ∧ y.isDigit = true ∧ z.isDigit = true)
    (h : escapeByte b ++ u = debt owed ++ '\\' :: x :: y :: z :: v) :
    (owed = false ∧ Coded x y z ∧ u = v) ∨ u = x :: y :: z :: v := by
  rcases escapeByte_cases b with ⟨hbare, hbyte⟩ | ⟨hpair, hbyte⟩ | ⟨hrange, hbyte⟩
  · rw [hbyte] at h
    cases owed with
    | false => exact absurd (List.cons.inj h).1 hbare.2.2.2
    | true => exact absurd (List.cons.inj h).1 hbare.2.2.2
  · rw [hbyte] at h
    cases owed with
    | false =>
      have hbare := bare_of_digit hd.1
      rw [← (List.cons.inj (List.cons.inj h).2).1] at hbare
      exact absurd hpair (not_or.2 ⟨hbare.2.2.1, hbare.2.2.2⟩)
    | true => exact Or.inr (List.cons.inj (List.cons.inj h).2).2
  · rw [hbyte] at h
    cases owed with
    | false =>
      have hsplit : byteDigits b = [x, y, z] ∧ u = v := List.append_inj (List.cons.inj h).2 rfl
      exact Or.inl ⟨rfl, ⟨b, hsplit.1.symm, hrange⟩, hsplit.2⟩
    | true =>
      have hdigit := (byteDigits_spec b).1
      have hhead := (List.cons.inj (List.cons.inj h).2).1
      rw [byteDigits, List.all_cons, hhead] at hdigit
      cases hdigit

section

variable {read : List UInt8 → List UInt8} (hread : Unescapes read)

theorem length_escapeByte (b : UInt8) : (escapeByte b).length ≤ 4 := by
  rcases escapeByte_cases b with ⟨-, heq⟩ | ⟨-, heq⟩ | ⟨-, heq⟩ <;> rw [heq] <;> simp [byteDigits]

theorem escapeChar_bare {c : Char} (h : Bare c) : escapeChar c = [c] := by
  rcases escapeChar_cases c with ⟨-, heq⟩ | ⟨rfl | rfl, -⟩ | ⟨hno, -⟩
  · exact heq
  · exact absurd rfl h.2.2.1
  · exact absurd rfl h.2.2.2
  · exact absurd h hno

theorem escapeChar_pair {c : Char} (h : c = '"' ∨ c = '\\') : escapeChar c = ['\\', c] := by
  rcases h with rfl | rfl <;> decide

theorem escapeChar_digit {c : Char} (h : c.isDigit = true) : escapeChar c = [c] := escapeChar_bare (bare_of_digit h)

theorem length_escapeChar {c : Char} (h : c = '"' ∨ c = '\\' ∨ c.isDigit = true) : (escapeChar c).length ≤ 2 := by
  rcases h with rfl | rfl | hd
  · exact (escapeChar_pair (Or.inl rfl)).symm ▸ le_refl 2
  · exact (escapeChar_pair (Or.inr rfl)).symm ▸ le_refl 2
  · rw [escapeChar_digit hd]
    exact Nat.le_succ 1

/-- A character at the front of a text in escaped form, or after the backslash that is owed. -/
theorem escaped_plain {owed : Bool} {c : Char} {v : Str} (hc : c ≠ '\\') (h : Escaped (debt owed ++ c :: v)) :
    Escaped v ∧ (escapeChar c).length ≤ (debt owed).length + 1 := by
  cases owed with
  | false =>
    obtain ⟨hbare, hv⟩ := h.tail hc
    rw [escapeChar_bare hbare]
    exact ⟨hv, le_refl 1⟩
  | true =>
    obtain ⟨hkind, hv⟩ := h.after
    exact ⟨hv, length_escapeChar hkind⟩

theorem escaped_code {owed : Bool} {x y z : Char} {v : Str} (hd : x.isDigit = true ∧ y.isDigit = true ∧ z.isDigit = true)
    (h : Escaped (debt owed ++ '\\' :: x :: y :: z :: v)) : Escaped v := by
  cases owed with
  | false => exact h.after.2.digits hd.2.1 hd.2.2
  | true =>
    have hz := h.after.2.digits hd.1 hd.2.1
    exact (hz.tail (bare_of_digit hd.2.2).2.2.2).2

/-- After a backslash that is owed and another one, a third owes again. -/
theorem escaped_escape {owed : Bool} {c : Char} {v : Str} (h : Escaped (debt owed ++ '\\' :: c :: v)) :
    (Escaped v ∧ (escapeChar c).length ≤ (debt owed).length + 2) ∨ (owed = true ∧ c = '\\' ∧ Escaped ('\\' :: v)) := by
  cases owed with
  | false =>
    obtain ⟨hkind, hv⟩ := h.after
    exact Or.inl ⟨hv, length_escapeChar hkind⟩
  | true =>
    have hs : Escaped (c :: v) := h.after.2
    by_cases hc : c = '\\'
    · exact Or.inr ⟨rfl, hc, hc ▸ hs⟩
    · obtain ⟨hbare, hv⟩ := hs.tail hc
      rw [escapeChar_bare hbare]
      exact Or.inl ⟨hv, Nat.le_add_left 1 2⟩

include hread

theorem quoted_nil : quoted read [] = [] := by
  rw [quoted, utf8, List.flatMap_nil, hread.nil, List.flatMap_nil]

/-- The pieces of a text in escaped form are not printed as more than the text. -/
theorem length_printed (owed : Bool) (ps : List Str) (h : Escaped (debt owed ++ ps.flatten)) :
    (ps.flatMap (quoted read)).length ≤ (debt owed).length + ps.flatten.length := by
  induction ps using pieces_induction generalizing owed with
  | nil => exact Nat.zero_le _
  | next ps ih =>
    rw [List.flatMap_cons, quoted_nil hread]
    exact ih owed h
  | cons c s ps ihps ih =>
    have hfront := front hread (List.cons_ne_nil c s)
    simp only [List.flatMap_cons, List.length_append, List.flatten_cons, List.length_cons] at ih ihps ⊢
    cases hfront with
    | plain hc heq =>
      rw [heq, List.length_append]
      obtain ⟨hs, hlen⟩ := escaped_plain hc h
      have hle := ih s (List.suffix_refl s) false hs
      rw [length_false] at hle
      omega
    | @code x y z t b hd heq =>
      rw [heq, List.length_append]
      have hle := ih t ⟨[x, y, z], rfl⟩ false (escaped_code hd h)
      have hfour := length_escapeByte b
      simp only [length_false, List.length_cons] at hle ⊢
      omega
    | @escape c t heq =>
      rw [heq, List.length_append]
      rcases escaped_escape h with ⟨hs, hlen⟩ | ⟨rfl, rfl, hs⟩
      · have hle := ih t ⟨[c], rfl⟩ false hs
        simp only [length_false, List.length_cons] at hle ⊢
        omega
      · have hle := ih t ⟨['\\'], rfl⟩ true hs
        have htwo := length_escapeChar (Or.inr (Or.inl (rfl : '\\' = '\\')))
        simp only [length_true, List.length_cons] at hle ⊢
        omega
    | dangling heq =>
      rw [heq]
      cases owed with
      | false =>
        have hle := ihps true h
        simp only [length_false, length_true, List.length_nil] at hle ⊢
        omega
      | true =>
        have hle := ihps false h.after.2
        simp only [length_false, length_true, List.length_nil] at hle ⊢
        omega

/-- After two more backslashes, or after three digits, a text cannot be the same as what is printed for it. -/
theorem printed_ne {ps : List Str} {u : Str} (hu : u ≠ []) (hcut : Escaped (u ++ ps.flatten) → Escaped ps.flatten) :
    ps.flatMap (quoted read) ≠ u ++ ps.flatten := by
  intro heq
  have hescaped := hcut (heq ▸ escaped_printed read ps)
  have hle := length_printed hread false ps hescaped
  have hpos := List.length_pos_iff.2 hu
  rw [heq, List.length_append, length_false] at hle
  omega

/-! ### What is kept -/

theorem quoted_pair {c : Char} (s : Str) (h : c = '"' ∨ c = '\\') : quoted read ('\\' :: c :: s) = '\\' :: c :: quoted read s := by
  have hno : isDDD (utf8 (c :: s)) = false := by
    by_contra hddd
    obtain ⟨x, y, z, r, heq, hx, -⟩ := isDDD_utf8 (Bool.not_eq_false _ ▸ hddd)
    rw [List.cons.injEq] at heq
    rw [← heq.1] at hx
    rcases h with rfl | rfl <;> cases hx
  rw [quoted_escape hread s hno, escapeChar_pair h]
  rfl

theorem quoted_coded {x y z : Char} (s : Str) (h : Coded x y z) :
    quoted read ('\\' :: x :: y :: z :: s) = '\\' :: x :: y :: z :: quoted read s := by
  obtain ⟨b, hb, hrange⟩ := h
  obtain ⟨hall, hval⟩ := byteDigits_spec b
  rw [← hb] at hall hval
  simp only [List.all_cons, List.all_nil, Bool.and_true, Bool.and_eq_true] at hall
  obtain ⟨b', heq, hb'⟩ := quoted_code hread s hall.1 hall.2.1 hall.2.2
  have hlt := b.toNat_lt
  have hsame : b' = b := UInt8.toNat_inj.1 ((hb' (by omega)).trans hval)
  have hno : ¬ (b = 34 ∨ b = 92) := by
    rintro (rfl | rfl) <;> revert hrange <;> decide
  rw [heq, hsame, escapeByte, if_neg hno, if_pos hrange, ← hb]
  rfl

/-- The pieces of a kept text are printed as the text. -/
theorem printed_of_kept {owed : Bool} {ps : List Str} (h : Kept owed ps) :
    ps.flatMap (quoted read) = debt owed ++ ps.flatten := by
  induction h with
  | done => rfl
  | next _ ih =>
    rw [List.flatMap_cons, quoted_nil hread]
    exact ih
  | bare hc _ ih =>
    rw [List.flatMap_cons] at ih ⊢
    rw [quoted_plain hread _ hc.2.2.2, escapeChar_bare hc, List.append_assoc, ih]
    rfl
  | pair hc _ ih =>
    rw [List.flatMap_cons] at ih ⊢
    rw [quoted_pair hread _ hc, List.cons_append, List.cons_append, ih]
    rfl
  | code hcode _ ih =>
    rw [List.flatMap_cons] at ih ⊢
    rw [quoted_coded hread _ hcode, List.cons_append, List.cons_append, List.cons_append, List.cons_append, ih]
    rfl
  | cut _ ih =>
    rw [List.flatMap_cons, quoted_dangling hread]
    exact ih
  | backslashes _ ih =>
    rw [List.flatMap_cons] at ih ⊢
    rw [quoted_pair hread _ (Or.inr rfl), List.cons_append, List.cons_append, ih]
    rfl
  | quote _ ih =>
    rw [List.flatMap_cons] at ih ⊢
    rw [quoted_plain hread _ (by decide), escapeChar_pair (Or.inl rfl), List.append_assoc, ih]
    rfl

/-- A text is kept when its pieces are printed as the text. -/
theorem kept_of_printed (owed : Bool) (ps : List Str) (h : ps.flatMap (quoted read) = debt owed ++ ps.flatten) :
    Kept owed ps := by
  induction ps using pieces_induction generalizing owed with
  | nil =>
    cases owed with
    | false => exact .done
    | true => cases h
  | next ps ih =>
    rw [List.flatMap_cons, quoted_nil hread] at h
    exact .next (ih owed h)
  | cons c s ps ihps ih =>
    have hfront := front hread (List.cons_ne_nil c s)
    rw [List.flatMap_cons] at h
    cases hfront with
    | plain hc heq =>
      rw [heq, List.append_assoc] at h
      obtain ⟨hrest, ⟨rfl, hbare⟩ | ⟨rfl, rfl⟩⟩ := plain_eq hc h
      · exact .bare hbare (ih s (List.suffix_refl s) false hrest)
      · exact .quote (ih s (List.suffix_refl s) false hrest)
    | @code x y z t b hd heq =>
      rw [heq, List.append_assoc] at h
      rcases code_eq hd h with ⟨rfl, hcode, hrest⟩ | hrest
      · exact .code hcode (ih t ⟨[x, y, z], rfl⟩ false hrest)
      · -- the code of a backslash, after a backslash that is owed: its digits would have to be printed again
        refine absurd hrest (@printed_ne _ hread (t :: ps) [x, y, z] (List.cons_ne_nil _ _) fun hesc => ?_)
        exact ((hesc.digits hd.1 hd.2.1).tail (bare_of_digit hd.2.2).2.2.2).2
    | @escape c t heq =>
      rw [heq, List.append_assoc] at h
      rcases escape_eq h with ⟨rfl, hpair, hrest⟩ | ⟨rfl, rfl, hrest⟩
      · exact .pair hpair (ih t ⟨[c], rfl⟩ false hrest)
      · exact .backslashes (ih t ⟨['\\'], rfl⟩ true hrest)
    | dangling heq =>
      rw [heq, List.nil_append] at h
      cases owed with
      | false => exact .cut (ihps true h)
      | true => exact absurd h (printed_ne hread (List.cons_ne_nil _ _) fun hesc => hesc.after.2)

/-- **When the printed pieces of a text are the text.** -/
theorem kept_iff {ps : List Str} : ps.flatMap (quoted read) = ps.flatten ↔ Kept false ps :=
  ⟨kept_of_printed hread false ps, printed_of_kept hread⟩

end

end Velora.Wire
