import Velora.Lib.Text

/-!
# Instants as text

An instant is a number of nanoseconds since the start of the year 1, and `rfc3339Nano` is its text: date and time of day in
fields of fixed width, then the digits of the fraction of the second without its trailing zeros.

* `civil_lt`: the fields of fixed width order instants as their seconds do, up to the year 9999.
* `rfc3339Nano_lt`: so does the whole text, but for two instants of one second of which the fraction of one starts the
  fraction of the other (`Shorter`). The text of such an instant comes after that of the other although it is earlier.
-/

namespace Velora.Lib.Stamp

open Text

/-! ### Texts of one length -/

theorem append_lt_append {x y u v : Str} (h : x.length = y.length) : x ++ u < y ++ v ↔ x < y ∨ x = y ∧ u < v := by
  induction x generalizing y with
  | nil =>
    cases y with
    | nil => simp
    | cons d ds => simp at h
  | cons c cs ih =>
    cases y with
    | nil => simp at h
    | cons d ds =>
      have hlen : cs.length = ds.length := by simpa using h
      rw [List.cons_append, List.cons_append, List.cons_lt_cons_iff, List.cons_lt_cons_iff, ih hlen]
      constructor
      · rintro (hlt | ⟨rfl, hlt | ⟨rfl, huv⟩⟩)
        · exact .inl (.inl hlt)
        · exact .inl (.inr ⟨rfl, hlt⟩)
        · exact .inr ⟨rfl, huv⟩
      · rintro ((hlt | ⟨rfl, hlt⟩) | ⟨heq, huv⟩)
        · exact .inl hlt
        · exact .inr ⟨rfl, .inl hlt⟩
        · cases heq
          exact .inr ⟨rfl, .inr ⟨rfl, huv⟩⟩

theorem cons_lt_cons (c : Char) (u v : Str) : c :: u < c :: v ↔ u < v := by
  rw [List.cons_lt_cons_iff]
  simp

/-! ### Numbers of fixed width -/

/-- The decimal digits of a number, at least `w` of them. -/
def pad : ℕ → ℕ → Str
  | 0, n => if n = 0 then [] else decimal n
  | w + 1, n => pad w (n / 10) ++ [Nat.digitChar (n % 10)]

theorem digitChar_lt {a b : ℕ} (ha : a < 10) (hb : b < 10) : Nat.digitChar a < Nat.digitChar b ↔ a < b := by
  have h : ∀ a < 10, ∀ b < 10, Nat.digitChar a < Nat.digitChar b ↔ a < b := by decide
  exact h a ha b hb

theorem digitChar_inj {a b : ℕ} (ha : a < 10) (hb : b < 10) : Nat.digitChar a = Nat.digitChar b ↔ a = b := by
  have h : ∀ a < 10, ∀ b < 10, Nat.digitChar a = Nat.digitChar b ↔ a = b := by decide
  exact h a ha b hb

theorem pad_length {w n : ℕ} (h : n < 10 ^ w) : (pad w n).length = w := by
  induction w generalizing n with
  | zero =>
    have h0 : n = 0 := by simpa using h
    simp [pad, h0]
  | succ w ih =>
    have hn : n / 10 < 10 ^ w := by
      rw [pow_succ] at h
      omega
    simp [pad, ih hn]

theorem pad_inj {w a b : ℕ} (ha : a < 10 ^ w) (hb : b < 10 ^ w) : pad w a = pad w b ↔ a = b := by
  refine ⟨fun h => ?_, fun h => h ▸ rfl⟩
  induction w generalizing a b with
  | zero =>
    have ha0 : a = 0 := by simpa using ha
    have hb0 : b = 0 := by simpa using hb
    omega
  | succ w ih =>
    rw [pow_succ] at ha hb
    have hparts := List.append_inj' h rfl
    have hhigh : a / 10 = b / 10 := ih (by omega) (by omega) hparts.1
    have hlow : a % 10 = b % 10 := by
      have hd := hparts.2
      rw [List.cons.injEq] at hd
      exact (digitChar_inj (by omega) (by omega)).1 hd.1
    omega

theorem pad_lt {w a b : ℕ} (ha : a < 10 ^ w) (hb : b < 10 ^ w) : pad w a < pad w b ↔ a < b := by
  induction w generalizing a b with
  | zero =>
    have ha0 : a = 0 := by simpa using ha
    have hb0 : b = 0 := by simpa using hb
    simp [pad, ha0, hb0]
  | succ w ih =>
    rw [pow_succ] at ha hb
    have hah : a / 10 < 10 ^ w := by omega
    have hbh : b / 10 < 10 ^ w := by omega
    have hlast : [Nat.digitChar (a % 10)] < [Nat.digitChar (b % 10)] ↔ a % 10 < b % 10 := by
      rw [List.cons_lt_cons_iff, digitChar_lt (by omega) (by omega)]
      simp
    rw [pad, pad, append_lt_append (by rw [pad_length hah, pad_length hbh]), ih hah hbh, pad_inj hah hbh, hlast]
    omega

theorem digit_of_mem_pad {w n : ℕ} (h : n < 10 ^ w) : ∀ c ∈ pad w n, c.isDigit = true := by
  induction w generalizing n with
  | zero =>
    have h0 : n = 0 := by simpa using h
    simp [pad, h0]
  | succ w ih =>
    rw [pow_succ] at h
    intro c hc
    rw [pad, List.mem_append, List.mem_singleton] at hc
    rcases hc with hc | rfl
    · exact ih (by omega) c hc
    · have h10 : ∀ d < 10, (Nat.digitChar d).isDigit = true := by decide
      exact h10 _ (by omega)

/-! ### Dates -/

/-- The years since the year 1 and the day of the year, both from 0, of a day since the start of the year 1: the cycles of
400, 100, 4 years and single years are cut off one after the other, and the last day of a cycle that has one more leap year
stays in it. -/
def yearDay (day : ℕ) : ℕ × ℕ :=
  let d₄ := day % 146097
  let c := d₄ / 36524 - d₄ / 36524 / 4
  let d₁ := d₄ - 36524 * c
  let d := d₁ % 1461
  let y := d / 365 - d / 365 / 4
  (400 * (day / 146097) + 100 * c + 4 * (d₁ / 1461) + y, d - 365 * y)

/-- The days before the year `y`, counted as `yearDay` does. -/
def daysBefore (y : ℕ) : ℕ := 365 * y + y / 4 - y / 100 + y / 400

def isLeap (year : ℕ) : Bool := year % 4 == 0 && (year % 100 != 0 || year % 400 == 0)

def monthDays (leap : Bool) : List ℕ := [31, if leap then 29 else 28, 31, 30, 31, 30, 31, 31, 30, 31, 30, 31]

/-- The month and the day of the month, when the months from `m` on have these lengths. -/
def monthDay (m : ℕ) : List ℕ → ℕ → ℕ × ℕ
  | [], d => (m, d + 1)
  | l :: ls, d => if d < l then (m, d + 1) else monthDay (m + 1) ls (d - l)

/-- The days before a year, by the cycles its number is made of. -/
theorem daysBefore_cycles {a c q y : ℕ} (hc : c ≤ 3) (hq : q ≤ 24) (hy : y ≤ 3) :
    daysBefore (400 * a + 100 * c + 4 * q + y) = 146097 * a + 36524 * c + 1461 * q + 365 * y := by
  have h4 : (400 * a + 100 * c + 4 * q + y) / 4 = 100 * a + 25 * c + q := by omega
  have h100 : (400 * a + 100 * c + 4 * q + y) / 100 = 4 * a + c := by omega
  have h400 : (400 * a + 100 * c + 4 * q + y) / 400 = a := by omega
  rw [daysBefore, h4, h100, h400]
  omega

theorem isLeap_iff {year : ℕ} : isLeap year = true ↔ year % 4 = 0 ∧ (year % 100 ≠ 0 ∨ year % 400 = 0) := by
  simp [isLeap]

def yearLength (y : ℕ) : ℕ := if isLeap (y + 1) then 366 else 365

theorem daysBefore_succ (y : ℕ) : daysBefore (y + 1) = daysBefore y + yearLength y := by
  have h4 : (y + 1) / 4 = y / 4 + if (y + 1) % 4 = 0 then 1 else 0 := by
    split <;> omega
  have h100 : (y + 1) / 100 = y / 100 + if (y + 1) % 100 = 0 then 1 else 0 := by
    split <;> omega
  have h400 : (y + 1) / 400 = y / 400 + if (y + 1) % 400 = 0 then 1 else 0 := by
    split <;> omega
  have hle : y / 100 ≤ y := Nat.div_le_self y 100
  rw [daysBefore, daysBefore, yearLength, h4, h100, h400]
  by_cases hleap : isLeap (y + 1) = true
  · rw [if_pos hleap]
    rw [isLeap_iff] at hleap
    rw [if_pos hleap.1]
    split <;> split <;> omega
  · rw [if_neg hleap]
    rw [isLeap_iff] at hleap
    split <;> split <;> split <;> omega

theorem daysBefore_mono {a b : ℕ} (h : a ≤ b) : daysBefore a ≤ daysBefore b := by
  refine monotone_nat_of_le_succ (fun y => ?_) h
  rw [daysBefore_succ]
  omega

/-- A cycle of four parts of `n` units, of which the last has one unit more: the part a unit is in. -/
theorem cut_bounds {n d : ℕ} (hn : 4 ≤ n) (hd : d ≤ 4 * n) :
    d / n - d / n / 4 ≤ 3 ∧ n * (d / n - d / n / 4) ≤ d ∧ d - n * (d / n - d / n / 4) ≤ n ∧
      (d - n * (d / n - d / n / 4) = n → d = 4 * n) := by
  rcases Nat.lt_or_eq_of_le hd with hlt | rfl
  · have hq : d / n < 4 := Nat.div_lt_of_lt_mul (by omega)
    have h0 : d / n / 4 = 0 := Nat.div_eq_of_lt hq
    have hmod : d - n * (d / n) = d % n := by
      have := Nat.div_add_mod d n
      omega
    have hr : d % n < n := Nat.mod_lt d (by omega)
    rw [h0, Nat.sub_zero, hmod]
    exact ⟨by omega, Nat.mul_div_le d n, by omega, by omega⟩
  · have hq : 4 * n / n = 4 := Nat.mul_div_cancel 4 (by omega)
    rw [hq]
    refine ⟨by omega, by omega, by omega, fun _ => rfl⟩

/-- A day of the year is in its year. -/
theorem yearDay_spec (day : ℕ) :
    daysBefore (yearDay day).1 + (yearDay day).2 = day ∧ (yearDay day).2 < yearLength (yearDay day).1 := by
  have hday := Nat.div_add_mod day 146097
  have hd₄ : day % 146097 < 146097 := Nat.mod_lt day (by omega)
  simp only [yearDay]
  generalize day / 146097 = a at *
  generalize day % 146097 = d₄ at *
  -- the centuries of the cycle, the last with one day more
  obtain ⟨hc, hcd, hd₁, hlast⟩ := cut_bounds (n := 36524) (d := d₄) (by omega) (by omega)
  generalize d₄ / 36524 - d₄ / 36524 / 4 = c at *
  generalize hd₁' : d₄ - 36524 * c = d₁ at *
  -- the four-year cycles of the century and the years of such a cycle
  have hq : d₁ / 1461 ≤ 24 := by omega
  have hdiv := Nat.div_add_mod d₁ 1461
  have hd : d₁ % 1461 < 1461 := Nat.mod_lt d₁ (by omega)
  generalize d₁ / 1461 = q at *
  generalize d₁ % 1461 = d at *
  obtain ⟨hy, hyd, hyear, hleap⟩ := cut_bounds (n := 365) (d := d) (by omega) (by omega)
  generalize d / 365 - d / 365 / 4 = y at *
  refine ⟨by rw [daysBefore_cycles hc hq hy]; omega, ?_⟩
  rw [yearLength]
  split
  · omega
  · rename_i hnot
    refine Nat.lt_of_le_of_ne hyear fun h => hnot ?_
    -- the last day of a cycle of four years: its year is a leap year, but at the end of a century that is not the last
    have hd' : d = 1460 := hleap h
    have hy' : y = 3 := by omega
    rw [isLeap_iff]
    by_cases hq' : q = 24
    · have hc' : c = 3 := by omega
      omega
    · omega

/-- Days come in the order of their years and of their days of the year. -/
theorem yearDay_lt (a b : ℕ) :
    a < b ↔ (yearDay a).1 < (yearDay b).1 ∨ (yearDay a).1 = (yearDay b).1 ∧ (yearDay a).2 < (yearDay b).2 := by
  obtain ⟨ha, hal⟩ := yearDay_spec a
  obtain ⟨hb, hbl⟩ := yearDay_spec b
  generalize (yearDay a).1 = ya, (yearDay a).2 = da at *
  generalize (yearDay b).1 = yb, (yearDay b).2 = db at *
  rcases lt_trichotomy ya yb with hlt | rfl | hgt
  · have hmono := daysBefore_mono (show ya + 1 ≤ yb by omega)
    rw [daysBefore_succ] at hmono
    omega
  · omega
  · have hmono := daysBefore_mono (show yb + 1 ≤ ya by omega)
    rw [daysBefore_succ] at hmono
    omega

theorem le_monthDay (m : ℕ) (ls : List ℕ) (d : ℕ) : m ≤ (monthDay m ls d).1 := by
  induction ls generalizing m d with
  | nil => exact le_refl m
  | cons l ls ih =>
    rw [monthDay]
    split
    · exact le_refl m
    · exact (Nat.le_succ m).trans (ih (m + 1) (d - l))

theorem monthDay_mono {ls : List ℕ} {m a b : ℕ} (h : a < b) :
    (monthDay m ls a).1 < (monthDay m ls b).1 ∨
      (monthDay m ls a).1 = (monthDay m ls b).1 ∧ (monthDay m ls a).2 < (monthDay m ls b).2 := by
  induction ls generalizing m a b with
  | nil => exact .inr ⟨rfl, Nat.succ_lt_succ h⟩
  | cons l ls ih =>
    rw [monthDay, monthDay]
    by_cases ha : a < l
    · rw [if_pos ha]
      by_cases hb : b < l
      · rw [if_pos hb]
        exact .inr ⟨rfl, Nat.succ_lt_succ h⟩
      · rw [if_neg hb]
        exact .inl (le_monthDay (m + 1) ls (b - l))
    · rw [if_neg ha, if_neg (by omega)]
      exact ih (by omega)

theorem monthDay_bounds {ls : List ℕ} {m d n : ℕ} (hls : ∀ l ∈ ls, l ≤ n) (hd : d < ls.sum + n) :
    (monthDay m ls d).1 ≤ m + ls.length ∧ (monthDay m ls d).2 ≤ n := by
  induction ls generalizing m d with
  | nil => exact ⟨le_refl m, by simpa [monthDay] using hd⟩
  | cons l ls ih =>
    rw [List.sum_cons] at hd
    rw [monthDay, List.length_cons]
    split
    · rename_i hl
      exact ⟨Nat.le_add_right m _, hl.trans_le (hls l List.mem_cons_self)⟩
    · obtain ⟨hmonth, hday⟩ := ih (m := m + 1) (fun x hx => hls x (List.mem_cons_of_mem l hx)) (show d - l < _ by omega)
      exact ⟨by omega, hday⟩

/-- The days of a year come in the order of their months and of their days of the month. -/
theorem monthDay_lt {ls : List ℕ} {m a b : ℕ} :
    a < b ↔ (monthDay m ls a).1 < (monthDay m ls b).1 ∨
      (monthDay m ls a).1 = (monthDay m ls b).1 ∧ (monthDay m ls a).2 < (monthDay m ls b).2 := by
  rcases lt_trichotomy a b with hlt | rfl | hgt
  · have hmono := @monthDay_mono ls m a b hlt
    omega
  · omega
  · have hmono := @monthDay_mono ls m b a hgt
    omega

/-! ### Instants -/

def seconds (t : ℕ) : ℕ := t / 1000000000
def nanos (t : ℕ) : ℕ := t % 1000000000

def year (t : ℕ) : ℕ := (yearDay (seconds t / 86400)).1 + 1

/-- The month and the day of the month. -/
def monthAndDay (t : ℕ) : ℕ × ℕ :=
  monthDay 1 (monthDays (isLeap (year t))) (yearDay (seconds t / 86400)).2

/-- `2006-01-02T15:04:05`. -/
def civil (t : ℕ) : Str :=
  pad 4 (year t) ++ '-' :: (pad 2 (monthAndDay t).1 ++ '-' :: (pad 2 (monthAndDay t).2 ++ 'T' ::
    (pad 2 (seconds t / 3600 % 24) ++ ':' :: (pad 2 (seconds t / 60 % 60) ++ ':' :: pad 2 (seconds t % 60)))))

theorem dayOfYear_lt (t : ℕ) : (yearDay (seconds t / 86400)).2 < 366 := by
  have h := (yearDay_spec (seconds t / 86400)).2
  rw [yearLength] at h
  split at h <;> omega

theorem monthDays_le (leap : Bool) : ∀ l ∈ monthDays leap, l ≤ 31 := by
  cases leap <;> decide

theorem monthAndDay_bounds (t : ℕ) : (monthAndDay t).1 < 10 ^ 2 ∧ (monthAndDay t).2 < 10 ^ 2 := by
  have hsum : 366 ≤ (monthDays (isLeap (year t))).sum + 31 := by
    cases isLeap (year t) <;> decide
  obtain ⟨hmonth, hday⟩ := monthDay_bounds (m := 1) (monthDays_le _) ((dayOfYear_lt t).trans_le hsum)
  have hlength : (monthDays (isLeap (year t))).length = 12 := rfl
  rw [hlength] at hmonth
  exact ⟨hmonth.trans_lt (by decide), hday.trans_lt (by decide)⟩

theorem civil_length {t : ℕ} (h : year t < 10 ^ 4) : (civil t).length = 19 := by
  simp only [civil, List.length_append, List.length_cons, pad_length h, pad_length (monthAndDay_bounds t).1,
    pad_length (monthAndDay_bounds t).2, pad_length (show seconds t / 3600 % 24 < 10 ^ 2 by omega),
    pad_length (show seconds t / 60 % 60 < 10 ^ 2 by omega), pad_length (show seconds t % 60 < 10 ^ 2 by omega)]

/-- A field of fixed width in front of two texts. -/
theorem field_lt {w m n : ℕ} {c : Char} {u v : Str} (hm : m < 10 ^ w) (hn : n < 10 ^ w) :
    pad w m ++ c :: u < pad w n ++ c :: v ↔ m < n ∨ m = n ∧ u < v := by
  rw [append_lt_append (by rw [pad_length hm, pad_length hn]), pad_lt hm hn, pad_inj hm hn, cons_lt_cons]

/-- Within a year the order of the days is that of the month and the day. -/
theorem monthAndDay_lt {a b : ℕ} (h : year a = year b) :
    (yearDay (seconds a / 86400)).2 < (yearDay (seconds b / 86400)).2 ↔
      (monthAndDay a).1 < (monthAndDay b).1 ∨
        (monthAndDay a).1 = (monthAndDay b).1 ∧ (monthAndDay a).2 < (monthAndDay b).2 := by
  rw [monthAndDay, monthAndDay, h]
  exact monthDay_lt

/-- **The order of the fields.** -/
theorem civil_lt {a b : ℕ} (ha : year a < 10 ^ 4) (hb : year b < 10 ^ 4) :
    civil a < civil b ↔ seconds a < seconds b := by
  have hdays := yearDay_lt (seconds a / 86400) (seconds b / 86400)
  have hmonth : year a = year b → _ := monthAndDay_lt
  have hmonth' : year b = year a → _ := monthAndDay_lt
  have hdays' := yearDay_lt (seconds b / 86400) (seconds a / 86400)
  have hya : year a = (yearDay (seconds a / 86400)).1 + 1 := rfl
  have hyb : year b = (yearDay (seconds b / 86400)).1 + 1 := rfl
  rw [civil, civil, field_lt ha hb, field_lt (monthAndDay_bounds a).1 (monthAndDay_bounds b).1,
    field_lt (monthAndDay_bounds a).2 (monthAndDay_bounds b).2, field_lt (by omega) (by omega),
    field_lt (by omega) (by omega), pad_lt (by omega) (by omega)]
  omega

theorem civil_inj {a b : ℕ} (ha : year a < 10 ^ 4) (hb : year b < 10 ^ 4) :
    civil a = civil b ↔ seconds a = seconds b := by
  constructor
  · intro h
    have hab : ¬ civil a < civil b := by
      rw [h]
      exact lt_irrefl _
    have hba : ¬ civil b < civil a := by
      rw [h]
      exact lt_irrefl _
    rw [civil_lt ha hb] at hab
    rw [civil_lt hb ha] at hba
    omega
  · intro h
    simp only [civil, monthAndDay, year, h]

/-! ### Fractions -/

/-- A text without the zeros at its end. -/
def dropZeros : Str → Str
  | [] => []
  | c :: cs => if (c :: cs).all (· == '0') then [] else c :: dropZeros cs

/-- The fraction of the second. -/
def fraction (t : ℕ) : Str := dropZeros (pad 9 (nanos t))

/-- `t.Format(time.RFC3339Nano)`, of an instant in UTC. -/
def rfc3339Nano (t : ℕ) : Str :=
  civil t ++ ((if fraction t = [] then [] else '.' :: fraction t) ++ ['Z'])

example : rfc3339Nano 126230400500000000 = "0005-01-01T00:00:00.5Z".toList := by decide +kernel

/-- The first text, and not all of it, starts the second. -/
def Starts (x y : Str) : Prop := x <+: y ∧ x ≠ y

instance (x y : Str) : Decidable (Starts x y) := inferInstanceAs (Decidable (_ ∧ _))

/-- Two instants of one second of which the fraction of the first, and not all of it, starts that of the second. -/
def Shorter (a b : ℕ) : Prop := seconds a = seconds b ∧ Starts (fraction a) (fraction b)

instance (a b : ℕ) : Decidable (Shorter a b) := inferInstanceAs (Decidable (_ ∧ _))

theorem mem_dropZeros {c : Char} {cs : Str} (h : c ∈ dropZeros cs) : c ∈ cs := by
  induction cs with
  | nil => exact h
  | cons d ds ih =>
    rw [dropZeros] at h
    split at h
    · simp at h
    · rcases List.mem_cons.1 h with rfl | h
      · exact List.mem_cons_self
      · exact List.mem_cons_of_mem d (ih h)

theorem dropZeros_zeros {cs : Str} (h : cs.all (· == '0') = true) : dropZeros cs = [] := by
  cases cs with
  | nil => rfl
  | cons c cs => rw [dropZeros, if_pos h]

theorem dropZeros_cons {c : Char} {cs : Str} (h : ¬ (c :: cs).all (· == '0') = true) :
    dropZeros (c :: cs) = c :: dropZeros cs := by
  rw [dropZeros, if_neg h]

theorem zeros_eq {x y : Str} (hlen : x.length = y.length) (hx : x.all (· == '0') = true)
    (hy : y.all (· == '0') = true) : x = y := by
  rw [List.all_eq_true] at hx hy
  rw [List.eq_replicate_of_mem fun c hc => beq_iff_eq.1 (hx c hc),
    List.eq_replicate_of_mem fun c hc => beq_iff_eq.1 (hy c hc), hlen]

theorem starts_cons {c d : Char} {x y : Str} : Starts (c :: x) (d :: y) ↔ c = d ∧ Starts x y := by
  rw [Starts, Starts, List.cons_prefix_cons, Ne, List.cons.injEq]
  tauto

theorem lt_Z {c : Char} (h : c.isDigit = true) : c < 'Z' := by
  rw [Char.isDigit, Bool.and_eq_true, decide_eq_true_eq, decide_eq_true_eq] at h
  exact lt_of_le_of_lt h.2 (by decide)

/-- **The order of fractions.** Digits of one length, without their last zeros and with the `Z` after them, are ordered as
before, but for two of which one starts the other: of these the longer comes first. -/
theorem dropZeros_lt {x y : Str} (hlen : x.length = y.length) (hx : ∀ c ∈ x, c.isDigit = true)
    (hy : ∀ c ∈ y, c.isDigit = true) :
    dropZeros x ++ ['Z'] < dropZeros y ++ ['Z'] ↔
      (x < y ∧ ¬ Starts (dropZeros x) (dropZeros y)) ∨ Starts (dropZeros y) (dropZeros x) := by
  induction x generalizing y with
  | nil =>
    cases y with
    | nil => simp [dropZeros, Starts]
    | cons d ds => simp at hlen
  | cons c cs ih =>
    cases y with
    | nil => simp at hlen
    | cons d ds =>
      have ih := ih (y := ds) (by simpa using hlen) (fun e he => hx e (List.mem_cons_of_mem c he))
        (fun e he => hy e (List.mem_cons_of_mem d he))
      by_cases hzx : (c :: cs).all (· == '0') = true
      · rw [dropZeros_zeros hzx]
        by_cases hzy : (d :: ds).all (· == '0') = true
        · rw [dropZeros_zeros hzy, zeros_eq hlen hzx hzy]
          simp [Starts]
        · -- nothing is left of the first, which then starts the second
          have hdZ := lt_Z (hy d List.mem_cons_self)
          rw [dropZeros_cons hzy]
          simp [Starts, List.cons_lt_cons_iff, hdZ.not_gt, hdZ.ne']
      · rw [dropZeros_cons hzx]
        by_cases hzy : (d :: ds).all (· == '0') = true
        · rw [dropZeros_zeros hzy]
          simp [Starts, List.cons_lt_cons_iff, lt_Z (hx c List.mem_cons_self)]
        · rw [dropZeros_cons hzy, List.cons_append, List.cons_append, List.cons_lt_cons_iff, List.cons_lt_cons_iff, ih,
            starts_cons, starts_cons]
          rcases lt_trichotomy c d with hlt | rfl | hgt
          · simp [hlt, hlt.ne, hlt.ne']
          · simp
          · simp [hgt.not_gt, hgt.ne, hgt.ne']

theorem nanos_lt (t : ℕ) : nanos t < 10 ^ 9 := Nat.mod_lt t (by omega)

theorem nanos_length (a b : ℕ) : (pad 9 (nanos a)).length = (pad 9 (nanos b)).length := by
  rw [pad_length (nanos_lt a), pad_length (nanos_lt b)]

theorem instant_lt (a b : ℕ) : a < b ↔ seconds a < seconds b ∨ seconds a = seconds b ∧ nanos a < nanos b := by
  rw [seconds, seconds, nanos, nanos]
  omega

theorem fraction_isDigit {t : ℕ} {c : Char} (h : c ∈ fraction t) : c.isDigit = true :=
  digit_of_mem_pad (nanos_lt t) c (mem_dropZeros h)

/-- The point in front of a fraction that is not empty does not change the order. -/
theorem point_lt (a b : ℕ) :
    (if fraction a = [] then [] else '.' :: fraction a) ++ ['Z'] <
        (if fraction b = [] then [] else '.' :: fraction b) ++ ['Z'] ↔
      fraction a ++ ['Z'] < fraction b ++ ['Z'] := by
  have hdot : '.' < 'Z' := by decide
  have ha : ∀ c ∈ fraction a, c < 'Z' := fun c hc => lt_Z (fraction_isDigit hc)
  have hb : ∀ c ∈ fraction b, c < 'Z' := fun c hc => lt_Z (fraction_isDigit hc)
  generalize fraction a = x at *
  generalize fraction b = y at *
  cases x with
  | nil =>
    cases y with
    | nil => simp
    | cons d ds =>
      have hd := hb d List.mem_cons_self
      simp [List.cons_lt_cons_iff, hdot.not_gt, hd.not_gt, hd.ne']
  | cons c cs =>
    cases y with
    | nil => simp [List.cons_lt_cons_iff, hdot, ha c List.mem_cons_self]
    | cons d ds => simp

/-- **The order of the texts.** -/
theorem rfc3339Nano_lt {a b : ℕ} (ha : year a < 10 ^ 4) (hb : year b < 10 ^ 4) :
    rfc3339Nano a < rfc3339Nano b ↔ (a < b ∧ ¬ Shorter a b) ∨ Shorter b a := by
  have hfraction := dropZeros_lt (nanos_length a b) (digit_of_mem_pad (nanos_lt a)) (digit_of_mem_pad (nanos_lt b))
  rw [pad_lt (nanos_lt a) (nanos_lt b)] at hfraction
  rw [rfc3339Nano, rfc3339Nano, append_lt_append (by rw [civil_length ha, civil_length hb]), civil_lt ha hb,
    civil_inj ha hb, point_lt, fraction, fraction, hfraction, Shorter, Shorter]
  have hne : seconds a < seconds b → seconds a ≠ seconds b := fun h => h.ne
  have hcomm : seconds b = seconds a ↔ seconds a = seconds b := eq_comm
  rw [instant_lt a b, hcomm]
  clear ha hb hfraction hcomm
  simp only [fraction]
  generalize Starts (dropZeros (pad 9 (nanos a))) (dropZeros (pad 9 (nanos b))) = P at *
  generalize Starts (dropZeros (pad 9 (nanos b))) (dropZeros (pad 9 (nanos a))) = Q at *
  constructor
  · rintro (hlt | ⟨heq, ⟨hn, hP⟩ | hQ⟩)
    · exact .inl ⟨.inl hlt, fun h => hne hlt h.1⟩
    · exact .inl ⟨.inr ⟨heq, hn⟩, fun h => hP h.2⟩
    · exact .inr ⟨heq, hQ⟩
  · rintro (⟨hlt | ⟨heq, hn⟩, hP⟩ | ⟨heq, hQ⟩)
    · exact .inl hlt
    · exact .inr ⟨heq, .inl ⟨hn, fun h => hP ⟨heq, h⟩⟩⟩
    · exact .inr ⟨heq, .inr hQ⟩

end Velora.Lib.Stamp
