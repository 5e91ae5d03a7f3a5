import Mathlib

/-!
# Token buckets

A bucket fills at a constant rate up to its capacity, and each call that finds a token takes one. Filling in two steps is
filling in one (`level_later`), so a bucket may be written down anew at any time without loss. What is taken is paid for by
what the bucket held and by the time that went by (`take_charge`), and what one bucket holds more than another is lost only
where the other one has no place for it (`level_owed`).
-/

namespace Velora.Lib

/-- A bucket as it was written down at the time `updated`. -/
structure Bucket (K : Type) where
  tokens : K
  updated : K

namespace Bucket

variable {K : Type} [Field K] [LinearOrder K] {rate cap t t' : K} {b b' : Bucket K}

/-- What is in the bucket at the time `t`. -/
def level (rate cap : K) (b : Bucket K) (t : K) : K := min cap (b.tokens + (t - b.updated) * rate)

/-- A call at the time `t` takes a token, if there is one. -/
def take (rate cap : K) (b : Bucket K) (t : K) : Bool × Bucket K :=
  if level rate cap b t < 1 then (false, ⟨level rate cap b t, t⟩) else (true, ⟨level rate cap b t - 1, t⟩)

theorem level_le_cap : level rate cap b t ≤ cap := min_le_left _ _

theorem take_of_lt (h : level rate cap b t < 1) : take rate cap b t = (false, ⟨level rate cap b t, t⟩) := if_pos h

theorem take_of_le (h : 1 ≤ level rate cap b t) : take rate cap b t = (true, ⟨level rate cap b t - 1, t⟩) :=
  if_neg (not_lt.2 h)

/-- **What a call takes is paid for** by what the bucket held and what has run into it since. -/
theorem take_charge : (if (take rate cap b t).1 then 1 else 0) + (take rate cap b t).2.tokens ≤
    b.tokens + (t - b.updated) * rate := by
  have hle : level rate cap b t ≤ b.tokens + (t - b.updated) * rate := min_le_right _ _
  rcases lt_or_ge (level rate cap b t) 1 with h | h
  · rw [take_of_lt h]
    simpa using hle
  · rw [take_of_le h]
    simpa using hle

variable [IsStrictOrderedRing K]

theorem take_tokens_le : (take rate cap b t).2.tokens ≤ level rate cap b t := by
  unfold take
  split
  · exact le_refl _
  · exact sub_le_self _ zero_le_one

theorem level_nonneg (hrate : 0 ≤ rate) (hcap : 0 ≤ cap) (hb : 0 ≤ b.tokens) (ht : b.updated ≤ t) : 0 ≤ level rate cap b t :=
  le_min hcap (add_nonneg hb (mul_nonneg (sub_nonneg.2 ht) hrate))

theorem take_nonneg (h : 0 ≤ level rate cap b t) : 0 ≤ (take rate cap b t).2.tokens := by
  rcases lt_or_ge (level rate cap b t) 1 with h1 | h1
  · rw [take_of_lt h1]
    exact h
  · rw [take_of_le h1]
    exact sub_nonneg.2 h1

/-- What is in a bucket now says what will be in it. -/
theorem level_later (hrate : 0 ≤ rate) (ht : t ≤ t') :
    level rate cap b t' = min cap (level rate cap b t + (t' - t) * rate) := by
  have hinto : 0 ≤ (t' - t) * rate := mul_nonneg (sub_nonneg.2 ht) hrate
  have hsum : b.tokens + (t' - b.updated) * rate = b.tokens + (t - b.updated) * rate + (t' - t) * rate := by ring
  unfold level
  rw [hsum]
  rcases le_total cap (b.tokens + (t - b.updated) * rate) with h | h
  · -- it was full and is full
    rw [min_eq_left h, min_eq_left (le_add_of_nonneg_right hinto), min_eq_left (h.trans (le_add_of_nonneg_right hinto))]
  · rw [min_eq_right h]

/-- Of what one bucket holds more than another, as much is left as the other one has place for. -/
theorem level_owed (hrate : 0 ≤ rate) (ht : t ≤ t') {owed : K} (howed : 0 ≤ owed)
    (h : level rate cap b' t = level rate cap b t + owed) :
    level rate cap b' t' = level rate cap b t' + min owed (cap - level rate cap b t') := by
  have hinto : 0 ≤ (t' - t) * rate := mul_nonneg (sub_nonneg.2 ht) hrate
  have hb' : level rate cap b' t' = min cap (level rate cap b t + owed + (t' - t) * rate) := by
    rw [level_later hrate ht, h]
  have hb : level rate cap b t' = min cap (level rate cap b t + (t' - t) * rate) := level_later hrate ht
  rw [hb', hb]
  rcases le_total cap (level rate cap b t + (t' - t) * rate) with hfull | hfull
  · -- both are full
    rw [min_eq_left hfull, sub_self, min_eq_right howed, min_eq_left (by linarith), add_zero]
  · rw [min_eq_right hfull, ← min_add_add_left, add_sub_cancel, min_comm]
    ring_nf

end Bucket

end Velora.Lib
