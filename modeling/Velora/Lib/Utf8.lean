import Velora.Lib.Text

/-!
# UTF-8

The bytes of a text. The first byte of a character can be told from the bytes that follow it (`runeStart`), and a byte below
128 is a character of its own.
-/

namespace Velora.Lib.Utf8

open Velora.Lib

/-- The bytes of a text. -/
def utf8 (s : Str) : List UInt8 := s.flatMap String.utf8EncodeChar

/-- `utf8.RuneStart`. -/
def runeStart (b : UInt8) : Bool := b &&& 0xc0 != 0x80

theorem utf8_cons (c : Char) (s : Str) : utf8 (c :: s) = String.utf8EncodeChar c ++ utf8 s := rfl

theorem utf8_append (s t : Str) : utf8 (s ++ t) = utf8 s ++ utf8 t := List.flatMap_append

theorem utf8_flatten (ps : List Str) : utf8 ps.flatten = ps.flatMap utf8 := by
  induction ps with
  | nil => rfl
  | cons p ps ih => rw [List.flatten_cons, utf8_append, ih, List.flatMap_cons]

/-- What holds of the numbers below 256 holds of the bytes. -/
theorem forall_byte {p : UInt8 → Prop} (h : ∀ n : Fin 256, p (UInt8.ofNat n)) : ∀ b, p b := by
  intro b
  have hb := h ⟨b.toNat, b.toNat_lt⟩
  rwa [UInt8.ofNat_toNat] at hb

theorem toNat_ofNat {n : ℕ} (h : n < 128) : (UInt8.ofNat n).toNat = n := UInt8.toNat_ofNat_of_lt' (h.trans (by decide))

/-! ### The bytes of a character -/

/-- A byte below 128 begins a character. -/
theorem runeStart_of_lt {b : UInt8} (h : b.toNat < 128) : runeStart b = true := by
  have hall : ∀ b : UInt8, b.toNat < 128 → runeStart b = true := by
    refine forall_byte ?_
    decide +kernel
  exact hall b h

theorem follow_byte : ∀ b : UInt8, runeStart (b &&& 0x3f ||| 0x80) = false ∧ 128 ≤ (b &&& 0x3f ||| 0x80).toNat := by
  refine forall_byte ?_
  decide +kernel

theorem lead_byte : ∀ b : UInt8, (runeStart (b &&& 0x1f ||| 0xc0) = true ∧ 128 ≤ (b &&& 0x1f ||| 0xc0).toNat) ∧
    (runeStart (b &&& 0x0f ||| 0xe0) = true ∧ 128 ≤ (b &&& 0x0f ||| 0xe0).toNat) ∧
    runeStart (b &&& 0x07 ||| 0xf0) = true ∧ 128 ≤ (b &&& 0x07 ||| 0xf0).toNat := by
  refine forall_byte ?_
  decide +kernel

theorem utf8Size_eq_one {c : Char} : c.utf8Size = 1 ↔ c.toNat < 128 := by
  rw [Char.utf8Size_eq_one_iff, UInt32.le_iff_toNat_le]
  exact Nat.lt_succ_iff.symm

/-- A character of ASCII is its own byte. -/
theorem encode_ascii {c : Char} (h : c.toNat < 128) : String.utf8EncodeChar c = [UInt8.ofNat c.toNat] := by
  rw [String.utf8EncodeChar_eq_singleton (utf8Size_eq_one.2 h)]
  rfl

/-- Any other character is a first byte and bytes that follow it, none of them below 128. -/
theorem encode_high {c : Char} (h : 128 ≤ c.toNat) : ∃ b bs, String.utf8EncodeChar c = b :: bs ∧ runeStart b = true ∧
    128 ≤ b.toNat ∧ ∀ x ∈ bs, runeStart x = false ∧ 128 ≤ x.toNat := by
  have hone : c.utf8Size ≠ 1 := fun h1 => by
    have hlt := utf8Size_eq_one.1 h1
    omega
  rcases c.utf8Size_eq with h1 | h2 | h3 | h4
  · exact absurd h1 hone
  · rw [String.utf8EncodeChar_eq_cons_cons h2]
    refine ⟨_, _, rfl, (lead_byte _).1.1, (lead_byte _).1.2, fun x hx => ?_⟩
    rw [List.mem_singleton.1 hx]
    exact follow_byte _
  · rw [String.utf8EncodeChar_eq_cons_cons_cons h3]
    refine ⟨_, _, rfl, (lead_byte _).2.1.1, (lead_byte _).2.1.2, fun x hx => ?_⟩
    simp only [List.mem_cons, List.not_mem_nil, or_false] at hx
    rcases hx with rfl | rfl <;> exact follow_byte _
  · rw [String.utf8EncodeChar_eq_cons_cons_cons_cons h4]
    refine ⟨_, _, rfl, (lead_byte _).2.2.1, (lead_byte _).2.2.2, fun x hx => ?_⟩
    simp only [List.mem_cons, List.not_mem_nil, or_false] at hx
    rcases hx with rfl | rfl | rfl <;> exact follow_byte _

/-- The bytes of a character: one that begins it, and others. -/
theorem encode_cons (c : Char) :
    ∃ b bs, String.utf8EncodeChar c = b :: bs ∧ runeStart b = true ∧ ∀ x ∈ bs, runeStart x = false := by
  by_cases h : c.toNat < 128
  · refine ⟨_, [], encode_ascii h, runeStart_of_lt ?_, fun x hx => absurd hx List.not_mem_nil⟩
    rw [toNat_ofNat h]
    exact h
  · obtain ⟨b, bs, heq, hb, -, hbs⟩ := encode_high (not_lt.1 h)
    exact ⟨b, bs, heq, hb, fun x hx => (hbs x hx).1⟩

/-- A byte below 128 is the byte of a character of ASCII. -/
theorem mem_encode {c : Char} {b : UInt8} (hb : b.toNat < 128) (h : b ∈ String.utf8EncodeChar c) : c.toNat = b.toNat := by
  by_cases hc : c.toNat < 128
  · rw [encode_ascii hc, List.mem_singleton] at h
    rw [h, toNat_ofNat hc]
  · obtain ⟨x, xs, heq, -, hx, hxs⟩ := encode_high (not_lt.1 hc)
    rw [heq, List.mem_cons] at h
    rcases h with rfl | h
    · omega
    · have := (hxs b h).2
      omega

/-- A character of ASCII is in a text when its byte is. -/
theorem mem_utf8 {c : Char} (hc : c.toNat < 128) {s : Str} : UInt8.ofNat c.toNat ∈ utf8 s ↔ c ∈ s := by
  rw [utf8, List.mem_flatMap]
  constructor
  · rintro ⟨d, hd, hmem⟩
    have heq := mem_encode (by rw [toNat_ofNat hc]; exact hc) hmem
    rw [toNat_ofNat hc] at heq
    rwa [← Char.toNat_inj.1 heq]
  · intro hmem
    exact ⟨c, hmem, by rw [encode_ascii hc]; exact List.mem_singleton_self _⟩

/-! ### Decoding -/

/-- `utf8.DecodeRune`, of a valid encoding. -/
def decodeRune (bs : List UInt8) : Option Char := (bs.take 4).toByteArray.utf8DecodeChar? 0

/-- The characters of bytes after some that are skipped; a byte that begins no character stands for `utf8.RuneError`. -/
def decodeFrom : ℕ → List UInt8 → Str
  | _, [] => []
  | skip + 1, _ :: bs => decodeFrom skip bs
  | 0, b :: bs =>
    match decodeRune (b :: bs) with
    | some c => c :: decodeFrom (c.utf8Size - 1) bs
    | none => '\ufffd' :: decodeFrom 0 bs

/-- The characters over which a loop over a string goes. -/
def decode (bs : List UInt8) : Str := decodeFrom 0 bs

theorem decodeRune_encode (c : Char) (bs : List UInt8) : decodeRune (String.utf8EncodeChar c ++ bs) = some c := by
  have hlen : (String.utf8EncodeChar c).length ≤ 4 := by
    rw [String.length_utf8EncodeChar]
    exact c.utf8Size_le_four
  rw [decodeRune, List.take_append, List.take_of_length_le hlen, List.toByteArray_append]
  exact ByteArray.utf8DecodeChar?_utf8EncodeChar_append

theorem decodeFrom_append (xs bs : List UInt8) : decodeFrom xs.length (xs ++ bs) = decode bs := by
  induction xs with
  | nil => rfl
  | cons x xs ih => exact ih

/-- **The bytes of a text are decoded to it.** -/
theorem decode_utf8 (s : Str) : decode (utf8 s) = s := by
  induction s with
  | nil => rfl
  | cons c s ih =>
    obtain ⟨b, bs, heq, -, -⟩ := encode_cons c
    have hlen : c.utf8Size - 1 = bs.length := by
      rw [← String.length_utf8EncodeChar, heq, List.length_cons, Nat.add_sub_cancel]
    have hrune := decodeRune_encode c (utf8 s)
    rw [heq, List.cons_append] at hrune
    rw [utf8_cons, heq, List.cons_append, decode, decodeFrom, hrune]
    dsimp only
    rw [hlen, decodeFrom_append, ih]

example : decode [0x61, 0xff, 0xe2, 0x82, 0xac, 0xe2, 0x82] = "a\ufffd€\ufffd\ufffd".toList := by decide +kernel

end Velora.Lib.Utf8
