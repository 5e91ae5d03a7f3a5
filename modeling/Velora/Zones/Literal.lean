import Velora.Zones.ZoneFile

/-!
# The text of a TXT record

`recordRR` cuts a TXT value into strings of at most 255 bytes: it goes back from byte 255 to the first byte of a character. The
model cuts between characters, and `splitLoop_eq` shows that the loop over the bytes does the same. The strings go into the
record as they are, and the library reads them as escaped when it packs them: `txt_literal_iff` says which texts are served.
-/

namespace Velora.Zones

open Velora.Lib Velora.Lib.Text Velora.Lib.Utf8 Velora.Wire Velora.Dns

/-! ### The loops of `recordRR` -/

/-- The inner loop: back from a place to the first byte of a character. -/
def backToStart (value : List UInt8) : ℕ → ℕ
  | 0 => 0
  | n + 1 => if (value[n + 1]?).any runeStart then n + 1 else backToStart value n

/-- The outer loop, with the turns that are left. -/
def splitLoop : ℕ → List UInt8 → List (List UInt8)
  | 0, value => [value]
  | turns + 1, value =>
    if 255 < value.length then
      value.take (backToStart value 255) :: splitLoop turns (value.drop (backToStart value 255))
    else [value]

theorem backToStart_eq {value : List UInt8} {k n : ℕ} (hk : k ≤ n) (hstart : (value[k]?).any runeStart = true)
    (hrest : ∀ i, k < i → i ≤ n → (value[i]?).any runeStart = false) : backToStart value n = k := by
  induction n with
  | zero => exact (Nat.le_zero.1 hk).symm
  | succ n ih =>
    rw [backToStart]
    by_cases heq : k = n + 1
    · rw [← heq, if_pos hstart]
    · rw [hrest (n + 1) (by omega) le_rfl, if_neg Bool.false_ne_true]
      exact ih (by omega) fun i hi hin => hrest i hi (by omega)

/-- Between two characters the inner loop stops. -/
theorem backToStart_utf8 {a b : Str} {c : Char} (hle : (utf8 a).length ≤ 255) (hlt : 255 < (utf8 a).length + c.utf8Size) :
    backToStart (utf8 (a ++ c :: b)) 255 = (utf8 a).length := by
  obtain ⟨x, xs, hc, hx, hxs⟩ := encode_cons c
  have hsize : xs.length + 1 = c.utf8Size := by rw [← String.length_utf8EncodeChar, hc, List.length_cons]
  have hbytes : utf8 (a ++ c :: b) = utf8 a ++ x :: (xs ++ utf8 b) := by rw [utf8_append, utf8_cons, hc, List.cons_append]
  rw [hbytes]
  refine backToStart_eq hle ?_ fun i hi hin => ?_
  · rw [List.getElem?_append_right le_rfl, Nat.sub_self, List.getElem?_cons_zero, Option.any_some, hx]
  · obtain ⟨j, rfl⟩ : ∃ j, i = (utf8 a).length + (j + 1) := ⟨i - (utf8 a).length - 1, by omega⟩
    have hj : j < xs.length := by omega
    rw [List.getElem?_append_right (by omega), Nat.add_sub_cancel_left, List.getElem?_cons_succ,
      List.getElem?_append_left hj, List.getElem?_eq_getElem hj, Option.any_some]
    exact hxs _ (List.getElem_mem hj)

/-! ### Cutting between characters -/

theorem splitText_append {room : ℕ} {cur a t : Str} (h : (utf8 a).length ≤ room) :
    splitText room cur (a ++ t) = splitText (room - (utf8 a).length) (cur ++ a) t := by
  induction a generalizing room cur with
  | nil => simp [utf8]
  | cons c a ih =>
    rw [utf8_cons, List.length_append, String.length_utf8EncodeChar] at h ⊢
    rw [List.cons_append, splitText, if_pos (by omega), ih (by omega), Nat.sub_sub, List.append_assoc]
    rfl

/-- A text that fits is one piece. -/
theorem splitText_short {s : Str} (h : (utf8 s).length ≤ 255) : splitText 255 [] s = [s] := by
  have heq := @splitText_append 255 [] s [] h
  rwa [List.append_nil, List.nil_append, splitText] at heq

/-- A text that does not fit is cut before the first character that does not. -/
theorem splitText_long {a b : Str} {c : Char} (hle : (utf8 a).length ≤ 255) (hlt : 255 < (utf8 a).length + c.utf8Size) :
    splitText 255 [] (a ++ c :: b) = a :: splitText 255 [] (c :: b) := by
  have hfour := c.utf8Size_le_four
  rw [splitText_append hle, List.nil_append, splitText, if_neg (by omega), splitText, if_pos (by omega), List.nil_append]

theorem exists_cut {room : ℕ} {s : Str} (h : room < (utf8 s).length) :
    ∃ a c b, s = a ++ c :: b ∧ (utf8 a).length ≤ room ∧ room < (utf8 a).length + c.utf8Size := by
  induction s generalizing room with
  | nil => exact absurd h (Nat.not_lt_zero _)
  | cons c s ih =>
    rw [utf8_cons, List.length_append, String.length_utf8EncodeChar] at h
    by_cases hc : c.utf8Size ≤ room
    · obtain ⟨a, d, b, rfl, hle, hlt⟩ := @ih (room - c.utf8Size) (by omega)
      refine ⟨c :: a, d, b, rfl, ?_, ?_⟩
      · rw [utf8_cons, List.length_append, String.length_utf8EncodeChar]
        omega
      · rw [utf8_cons, List.length_append, String.length_utf8EncodeChar]
        omega
    · refine ⟨[], c, s, rfl, Nat.zero_le _, ?_⟩
      rw [utf8, List.flatMap_nil, List.length_nil]
      omega

/-- **The loop over the bytes ends, and cuts between characters.** -/
theorem splitLoop_eq {turns : ℕ} {s : Str} (h : (utf8 s).length ≤ turns) :
    splitLoop turns (utf8 s) = (splitText 255 [] s).map utf8 := by
  induction turns generalizing s with
  | zero =>
    rw [splitText_short (by omega)]
    rfl
  | succ turns ih =>
    rw [splitLoop]
    by_cases hlong : 255 < (utf8 s).length
    · obtain ⟨a, c, b, rfl, hle, hlt⟩ := exists_cut hlong
      have hfour := c.utf8Size_le_four
      rw [if_pos hlong, backToStart_utf8 hle hlt, splitText_long hle hlt, List.map_cons]
      rw [utf8_append, List.length_append] at h
      rw [utf8_append, List.take_left, List.drop_left, ih (by omega)]
    · rw [if_neg hlong, splitText_short (by omega)]
      rfl

theorem length_of_mem_splitText {room : ℕ} {cur s : Str} (h : (utf8 cur).length + room ≤ 255) :
    ∀ p ∈ splitText room cur s, (utf8 p).length ≤ 255 := by
  induction s generalizing room cur with
  | nil =>
    intro p hp
    rw [List.mem_singleton.1 hp]
    omega
  | cons c s ih =>
    have hfour := c.utf8Size_le_four
    have hone : utf8 [c] = String.utf8EncodeChar c := List.append_nil _
    rw [splitText]
    split
    · refine ih ?_
      rw [utf8_append, List.length_append, hone, String.length_utf8EncodeChar]
      omega
    · intro p hp
      rcases List.mem_cons.1 hp with rfl | hp
      · omega
      · refine ih ?_ p hp
        rw [hone, String.length_utf8EncodeChar]
        omega

/-! ### What is served -/

/-- The strings of a TXT record, as the loops of `recordRR` make them. -/
def txtStrings (r : Record) : List (List UInt8) := splitLoop (utf8 r.value).length (utf8 r.value)

/-- **A text is served as it is**: in short strings of characters that are the text together, from which the record is imported
again, and which are packed as the bytes of the text. -/
structure Literal (lib : Miekg) (pack : List UInt8 → List UInt8) (r : Record) : Prop where
  short : ∀ s ∈ txtStrings r, s.length ≤ 255
  valid : ∀ s ∈ txtStrings r, ∃ p, s = utf8 p
  whole : (txtStrings r).flatten = utf8 r.value
  imported : ∃ parts, recordRR r = .ok ⟨⟨r.name, classINET, r.ttl⟩, .txt parts⟩ ∧ parts.map utf8 = txtStrings r ∧
    importRecord lib ⟨⟨r.name, classINET, r.ttl⟩, .txt parts⟩ = .ok r.content
  packed : (txtStrings r).flatMap pack = utf8 r.value

theorem txtStrings_eq (r : Record) : txtStrings r = (splitText 255 [] r.value).map utf8 := splitLoop_eq le_rfl

theorem flatten_txtStrings (r : Record) : (txtStrings r).flatten = utf8 r.value := by
  rw [txtStrings_eq, ← List.flatMap_def, ← utf8_flatten, flatten_splitText, List.nil_append]

theorem recordRR_txt {r : Record} {rr : RR} (htxt : r.type = "TXT".toList) (h : recordRR r = .ok rr) :
    rr = ⟨⟨r.name, classINET, r.ttl⟩, .txt (splitText 255 [] r.value)⟩ := by
  obtain ⟨id, name, type, ttl, value, priority⟩ := r
  obtain rfl : type = _ := htxt
  unfold recordRR at h
  dsimp only at h
  rw [if_neg (by decide), if_neg (by decide), if_neg (by decide), if_neg (by decide), if_neg (by decide), if_neg (by decide),
    if_pos rfl] at h
  split_ifs at h
  exact (Except.ok.inj h).symm

/-- **When a text is served as it is**: when there is no backslash in it. -/
theorem txt_literal_iff {lib : Miekg} {pack : List UInt8 → List UInt8} {zone : Str} {r₀ r : Record} (hpack : Unescapes pack)
    (h : normalizeRecord zone r₀ = .ok r) (htxt : r.type = "TXT".toList) : Literal lib pack r ↔ '\\' ∉ r.value := by
  have hwhole := flatten_txtStrings r
  have hbyte : 92 ∉ (txtStrings r).flatten ↔ '\\' ∉ r.value := by
    rw [hwhole]
    exact not_congr (@mem_utf8 '\\' (by decide) r.value)
  have hpacked : (txtStrings r).flatMap pack = utf8 r.value ↔ 92 ∉ (txtStrings r).flatten := by
    rw [← hwhole]
    exact hpack.flatMap_eq_iff
  rw [← hbyte, ← hpacked]
  refine ⟨Literal.packed, fun hpacked => ⟨?_, ?_, hwhole, ?_, hpacked⟩⟩
  · intro s hs
    rw [txtStrings_eq] at hs
    obtain ⟨p, hp, rfl⟩ := List.mem_map.1 hs
    exact length_of_mem_splitText (by decide) p hp
  · intro s hs
    rw [txtStrings_eq] at hs
    obtain ⟨p, -, rfl⟩ := List.mem_map.1 hs
    exact ⟨p, rfl⟩
  · obtain ⟨rr, hrr⟩ : ∃ rr, recordRR r = .ok rr := by
      obtain ⟨_, -, -, -, -, _, -, -, -, hrr, heq⟩ := normalizeRecord_eq_ok.1 h
      rwa [heq] at hrr
    have hzero : r.priority = 0 := (normal_parts (normalizeRecord_normal h)).2 (by rw [htxt]; decide)
    have himport : importRecord lib ⟨⟨r.name, classINET, r.ttl⟩, .txt (splitText 255 [] r.value)⟩ =
        .ok ⟨0, r.name, "TXT".toList, r.ttl, (splitText 255 [] r.value).flatten, 0⟩ := rfl
    refine ⟨splitText 255 [] r.value, recordRR_txt htxt hrr ▸ hrr, (txtStrings_eq r).symm, ?_⟩
    rw [himport, flatten_splitText, List.nil_append, ← htxt, ← hzero]
    rfl

namespace File

/-- A TXT record of the zone `home.` -/
def text (value : String) : Record := ⟨2, "home.".toList, "TXT".toList, 60, value.toList, 0⟩

end File

theorem txt_literal_accent : Literal File.lib unescape (File.text "café \"1\"") :=
  (txt_literal_iff unescape_unescapes (show normalizeRecord "home.".toList (File.text "café \"1\"") = .ok _ by decide +kernel)
    rfl).2 (by decide)

/-- The text `a\b` is packed as `ab`. -/
theorem txt_not_literal : Unescapes unescape ∧
    normalizeRecord "home.".toList (File.text "a\\b") = .ok (File.text "a\\b") ∧ ¬ Literal File.lib unescape (File.text "a\\b") := by
  refine ⟨unescape_unescapes, by decide +kernel, fun h => ?_⟩
  have hpacked : (txtStrings (File.text "a\\b")).flatMap unescape = [97, 98] := by decide +kernel
  exact absurd (hpacked.symm.trans h.packed) (by decide +kernel)

end Velora.Zones
