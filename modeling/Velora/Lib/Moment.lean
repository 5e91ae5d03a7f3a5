import Velora.Lib.Stamp

/-!
# Instants as text of fixed width

`fixed` is the text of an instant in which every field, also the fraction of the second, has a fixed width: texts come in the
order of the instants (`fixed_lt`). The readers give the days, hours, minutes and nanoseconds since the start of the year 1 that
a text starts with, and each reads what was written in front of any rest; so the first characters of a text tell the day, the
hour or the minute of the instant and nothing else (`take_fixed`, `text_inj`).
-/

namespace Velora.Lib.Stamp

open Text

/-! ### Texts -/

/-- `2006-01-02`. -/
def dayText (t : ℕ) : Str := pad 4 (year t) ++ '-' :: (pad 2 (monthAndDay t).1 ++ '-' :: pad 2 (monthAndDay t).2)

/-- `2006-01-02T15`. -/
def hourText (t : ℕ) : Str := dayText t ++ 'T' :: pad 2 (seconds t / 3600 % 24)

/-- `2006-01-02T15:04`. -/
def minuteText (t : ℕ) : Str := hourText t ++ ':' :: pad 2 (seconds t / 60 % 60)

/-- `2006-01-02T15:04:05.000000000Z`. -/
def fixed (t : ℕ) : Str := civil t ++ '.' :: (pad 9 (nanos t) ++ ['Z'])

theorem civil_eq (t : ℕ) : civil t = minuteText t ++ ':' :: pad 2 (seconds t % 60) := by
  simp only [civil, minuteText, hourText, dayText, List.append_assoc, List.cons_append]

/-- **The order of the texts** is that of the instants. -/
theorem fixed_lt {a b : ℕ} (ha : year a < 10 ^ 4) (hb : year b < 10 ^ 4) : fixed a < fixed b ↔ a < b := by
  rw [fixed, fixed, append_lt_append (by rw [civil_length ha, civil_length hb]), civil_lt ha hb, civil_inj ha hb,
    cons_lt_cons, append_lt_append (nanos_length a b), pad_lt (nanos_lt a) (nanos_lt b), instant_lt a b]
  simp

/-! ### Readers -/

/-- A number of `w` digits. -/
def field (w : ℕ) (s : Str) : Option (ℕ × Str) :=
  if (s.take w).length = w ∧ (s.take w).all Char.isDigit = true then some (Nat.ofDigitChars 10 (s.take w) 0, s.drop w) else none

def sep (c : Char) : Str → Option Str
  | [] => none
  | d :: s => if d = c then some s else none

/-- The number of days before a date, if it is one. -/
def dayNumber (y m d : ℕ) : Option ℕ :=
  if 1 ≤ y ∧ 1 ≤ m ∧ m ≤ 12 ∧ 1 ≤ d ∧ d ≤ (monthDays (isLeap y)).getD (m - 1) 0 then
    some (daysBefore (y - 1) + ((monthDays (isLeap y)).take (m - 1)).sum + (d - 1))
  else none

def readDay (s : Str) : Option (ℕ × Str) := do
  let (y, s) ← field 4 s
  let s ← sep '-' s
  let (m, s) ← field 2 s
  let s ← sep '-' s
  let (d, s) ← field 2 s
  (dayNumber y m d).map (fun n => (n, s))

/-- One digit is enough for an hour. -/
def readHour (s : Str) : Option (ℕ × Str) := do
  let (days, s) ← readDay s
  let s ← sep 'T' s
  let (h, s) ← (field 2 s).or (field 1 s)
  if h < 24 then some (24 * days + h, s) else none

def readMinute (s : Str) : Option (ℕ × Str) := do
  let (hours, s) ← readHour s
  let s ← sep ':' s
  let (m, s) ← field 2 s
  if m < 60 then some (60 * hours + m, s) else none

/-- A comma may be in the place of the point. -/
def readNano (s : Str) : Option (ℕ × Str) := do
  let (minutes, s) ← readMinute s
  let s ← sep ':' s
  let (sec, s) ← field 2 s
  let s ← (sep '.' s).or (sep ',' s)
  let (n, s) ← field 9 s
  let s ← sep 'Z' s
  if sec < 60 then some ((60 * minutes + sec) * 1000000000 + n, s) else none

/-- A text that is read to its end. -/
def parse (read : Str → Option (ℕ × Str)) (s : Str) : Option ℕ :=
  match read s with
  | some (n, []) => some n
  | _ => none

/-! ### What is read -/

@[simp] theorem sep_cons (c : Char) (s : Str) : sep c (c :: s) = some s := if_pos rfl

theorem value_pad {w n : ℕ} (h : n < 10 ^ w) : Nat.ofDigitChars 10 (pad w n) 0 = n := by
  induction w generalizing n with
  | zero =>
    obtain rfl : n = 0 := by simpa using h
    rfl
  | succ w ih =>
    have hdigit : ∀ d < 10, (Nat.digitChar d).toNat - '0'.toNat = d := by decide
    rw [pad, Nat.ofDigitChars, List.foldl_append]
    have hinit := ih (n := n / 10) (by rw [Nat.div_lt_iff_lt_mul (by omega), ← pow_succ]; exact h)
    rw [Nat.ofDigitChars] at hinit
    rw [hinit, List.foldl_cons, List.foldl_nil, hdigit (n % 10) (by omega)]
    omega

/-- A field is read in front of any rest. -/
theorem field_pad {w n : ℕ} (h : n < 10 ^ w) (rest : Str) : field w (pad w n ++ rest) = some (n, rest) := by
  have hlen := pad_length h
  have hdigits : (pad w n).all Char.isDigit = true := List.all_eq_true.2 (digit_of_mem_pad h)
  rw [field, List.take_left' hlen, List.drop_left' hlen, if_pos ⟨hlen, hdigits⟩, value_pad h]

/-- The month a day of the year is in, by the months before it. -/
theorem monthDay_spec {ls : List ℕ} {m d : ℕ} (h : d < ls.sum) : ∃ k, ∃ hk : k < ls.length, (ls.take k).sum ≤ d ∧
    d - (ls.take k).sum < ls[k] ∧ monthDay m ls d = (m + k, d - (ls.take k).sum + 1) := by
  induction ls generalizing m d with
  | nil => simp at h
  | cons l ls ih =>
    rw [monthDay]
    split
    · rename_i hl
      exact ⟨0, Nat.zero_lt_succ _, Nat.zero_le d, hl, rfl⟩
    · rename_i hl
      rw [List.sum_cons] at h
      obtain ⟨k, hk, hle, hlt, heq⟩ := ih (m := m + 1) (d := d - l) (by omega)
      refine ⟨k + 1, Nat.succ_lt_succ hk, ?_, ?_, ?_⟩
      · rw [List.take_succ_cons, List.sum_cons]
        omega
      · rw [List.take_succ_cons, List.sum_cons, List.getElem_cons_succ]
        omega
      · rw [heq, List.take_succ_cons, List.sum_cons, Prod.mk.injEq]
        omega

theorem dayNumber_date (t : ℕ) : dayNumber (year t) (monthAndDay t).1 (monthAndDay t).2 = some (seconds t / 86400) := by
  obtain ⟨hday, hlt⟩ := yearDay_spec (seconds t / 86400)
  have hyear : year t = (yearDay (seconds t / 86400)).1 + 1 := rfl
  have hsum : (monthDays (isLeap (year t))).sum = yearLength (yearDay (seconds t / 86400)).1 := by
    rw [yearLength, ← hyear]
    cases isLeap (year t) <;> rfl
  rw [← hsum] at hlt
  obtain ⟨k, hk, hle, hmonth, heq⟩ := monthDay_spec (m := 1) hlt
  have hmd : monthAndDay t = (1 + k, (yearDay (seconds t / 86400)).2 - ((monthDays (isLeap (year t))).take k).sum + 1) := heq
  have hlen : (monthDays (isLeap (year t))).length = 12 := rfl
  have hk' : 1 + k - 1 = k := by omega
  rw [hmd]
  dsimp only
  rw [dayNumber, hk', List.getD_eq_getElem _ _ hk, if_pos ⟨by omega, by omega, by omega, by omega, by omega⟩, hyear,
    Nat.add_sub_cancel, Option.some.injEq, ← hyear]
  omega

section

variable {t : ℕ} (ht : year t < 10 ^ 4) (rest : Str)

include ht

theorem readDay_text : readDay (dayText t ++ rest) = some (seconds t / 86400, rest) := by
  have hmd := monthAndDay_bounds t
  rw [readDay, dayText, List.append_assoc, field_pad ht]
  simp only [Option.bind_eq_bind, Option.bind_some, List.cons_append, List.append_assoc, sep_cons, field_pad hmd.1, field_pad hmd.2,
    dayNumber_date, Option.map_some]

theorem readHour_text : readHour (hourText t ++ rest) = some (seconds t / 3600, rest) := by
  have hour : seconds t / 3600 % 24 < 10 ^ 2 := by omega
  rw [readHour, hourText, List.append_assoc, readDay_text ht]
  simp only [Option.bind_eq_bind, Option.bind_some, List.cons_append, sep_cons, field_pad hour, Option.some_or]
  rw [if_pos (by omega)]
  congr 2
  omega

theorem readMinute_text : readMinute (minuteText t ++ rest) = some (seconds t / 60, rest) := by
  have hminute : seconds t / 60 % 60 < 10 ^ 2 := by omega
  rw [readMinute, minuteText, List.append_assoc, readHour_text ht]
  simp only [Option.bind_eq_bind, Option.bind_some, List.cons_append, sep_cons, field_pad hminute]
  rw [if_pos (by omega)]
  congr 2
  omega

theorem readNano_text : readNano (fixed t ++ rest) = some (t, rest) := by
  have hsecond : seconds t % 60 < 10 ^ 2 := by omega
  rw [readNano, fixed, civil_eq, List.append_assoc, List.append_assoc, readMinute_text ht]
  simp only [Option.bind_eq_bind, Option.bind_some, List.cons_append, List.append_assoc, sep_cons, field_pad hsecond,
    Option.some_or, field_pad (nanos_lt t), List.nil_append]
  rw [if_pos (by omega)]
  congr 2
  rw [seconds, nanos]
  omega

end

/-- **A text is read back.** -/
theorem parse_fixed {t : ℕ} (ht : year t < 10 ^ 4) : parse readNano (fixed t) = some t := by
  have hread := readNano_text ht []
  rw [List.append_nil] at hread
  rw [parse, hread]

/-- How much of a text tells the day, the hour or the minute. -/
inductive Grain where
  | minute | hour | day
  deriving DecidableEq

namespace Grain

def width : Grain → ℕ
  | .minute => 16 | .hour => 13 | .day => 10

def nanos : Grain → ℕ
  | .minute => 60 * 1000000000 | .hour => 3600 * 1000000000 | .day => 86400 * 1000000000

def read : Grain → Str → Option (ℕ × Str)
  | .minute => readMinute | .hour => readHour | .day => readDay

def text : Grain → ℕ → Str
  | .minute => minuteText | .hour => hourText | .day => dayText

theorem nanos_pos (g : Grain) : 0 < g.nanos := by cases g <;> decide

end Grain

theorem dayText_length {t : ℕ} (ht : year t < 10 ^ 4) : (dayText t).length = 10 := by
  have hmd := monthAndDay_bounds t
  simp only [dayText, List.length_append, List.length_cons, pad_length ht, pad_length hmd.1, pad_length hmd.2]

theorem hourText_length {t : ℕ} (ht : year t < 10 ^ 4) : (hourText t).length = 13 := by
  have hour : seconds t / 3600 % 24 < 10 ^ 2 := by omega
  simp only [hourText, List.length_append, List.length_cons, dayText_length ht, pad_length hour]

theorem minuteText_length {t : ℕ} (ht : year t < 10 ^ 4) : (minuteText t).length = 16 := by
  have hminute : seconds t / 60 % 60 < 10 ^ 2 := by omega
  simp only [minuteText, List.length_append, List.length_cons, hourText_length ht, pad_length hminute]

/-- **The first characters of a text** are the text of the unit. -/
theorem take_fixed {t : ℕ} (ht : year t < 10 ^ 4) (g : Grain) : (fixed t).take g.width = g.text t := by
  rw [fixed, civil_eq, List.append_assoc]
  cases g with
  | minute => exact List.take_left' (minuteText_length ht)
  | hour =>
    rw [minuteText, List.append_assoc]
    exact List.take_left' (hourText_length ht)
  | day =>
    rw [minuteText, hourText, List.append_assoc, List.append_assoc]
    exact List.take_left' (dayText_length ht)

/-- They are read as the units before the instant. -/
theorem parse_text {t : ℕ} (ht : year t < 10 ^ 4) (g : Grain) : parse g.read (g.text t) = some (t / g.nanos) := by
  have hread : g.read (g.text t) = some (t / g.nanos, []) := by
    rw [← List.append_nil (g.text t)]
    cases g with
    | minute => rw [Grain.text, Grain.read, readMinute_text ht, Grain.nanos, seconds, Nat.div_div_eq_div_mul]
    | hour => rw [Grain.text, Grain.read, readHour_text ht, Grain.nanos, seconds, Nat.div_div_eq_div_mul]
    | day => rw [Grain.text, Grain.read, readDay_text ht, Grain.nanos, seconds, Nat.div_div_eq_div_mul]
  rw [parse, hread]

theorem dayText_congr {a b : ℕ} (h : seconds a / 86400 = seconds b / 86400) : dayText a = dayText b := by
  simp only [dayText, year, monthAndDay, h]

theorem hourText_congr {a b : ℕ} (h : seconds a / 3600 = seconds b / 3600) : hourText a = hourText b := by
  have hday : seconds a / 86400 = seconds b / 86400 := by omega
  rw [hourText, hourText, dayText_congr hday, h]

theorem minuteText_congr {a b : ℕ} (h : seconds a / 60 = seconds b / 60) : minuteText a = minuteText b := by
  have hour : seconds a / 3600 = seconds b / 3600 := by omega
  rw [minuteText, minuteText, hourText_congr hour, h]

/-- **They tell the unit** and nothing else. -/
theorem text_inj {a b : ℕ} (ha : year a < 10 ^ 4) (hb : year b < 10 ^ 4) (g : Grain) :
    g.text a = g.text b ↔ a / g.nanos = b / g.nanos := by
  constructor
  · intro h
    have hparse := parse_text ha g
    rw [h, parse_text hb g] at hparse
    exact (Option.some.inj hparse).symm
  · intro h
    cases g with
    | minute => exact minuteText_congr (by rw [seconds, seconds, Nat.div_div_eq_div_mul, Nat.div_div_eq_div_mul]; exact h)
    | hour => exact hourText_congr (by rw [seconds, seconds, Nat.div_div_eq_div_mul, Nat.div_div_eq_div_mul]; exact h)
    | day => exact dayText_congr (by rw [seconds, seconds, Nat.div_div_eq_div_mul, Nat.div_div_eq_div_mul]; exact h)

theorem year_mono {a b : ℕ} (h : a ≤ b) : year a ≤ year b := by
  by_contra hlt
  have hday : seconds b / 86400 < seconds a / 86400 := (yearDay_lt _ _).2 (Or.inl (by unfold year at hlt; omega))
  have hle : seconds a / 86400 ≤ seconds b / 86400 := Nat.div_le_div_right (Nat.div_le_div_right h)
  omega

end Velora.Lib.Stamp
