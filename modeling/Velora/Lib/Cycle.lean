import Mathlib

/-!
# Intervals of a cyclic order

A sorted list closed to a cycle: each entry is followed by the next one, and the last by the first. What lies between an
entry and the one that follows it is not in the list (`notMem_of_between`). Whether something lies between two others is the
parity of three comparisons (`between_eq`), so that two orders agree on it exactly when they differ on an even number of them.
-/

namespace Velora.Lib.Cycle

variable {α : Type} [LinearOrder α]

/-- `t` lies strictly between `o` and `n`, where an `n` that is not greater than `o` is reached around the end. -/
def between (o n t : α) : Bool :=
  if o < n then decide (o < t) && decide (t < n) else decide (o < t) || decide (t < n)

theorem between_eq (o n t : α) : between o n t = (decide (o < n) ^^ decide (o < t) ^^ decide (t < n)) := by
  rw [between]
  by_cases hon : o < n
  · -- one of the two sides of the interval is met
    rw [if_pos hon]
    by_cases hot : o < t
    · simp [hon, hot]
    · have htn : t < n := lt_of_le_of_lt (not_lt.1 hot) hon
      simp [hon, hot, htn]
  · -- and here not both of them
    rw [if_neg hon]
    by_cases hot : o < t
    · have htn : ¬ t < n := fun h => hon (hot.trans h)
      simp [hon, hot, htn]
    · simp [hon, hot]

/-- In the cycle of the list `n` follows `o`. -/
def Follows (l : List α) (o n : α) : Prop :=
  ∃ i, l[i]? = some o ∧ l[(i + 1) % l.length]? = some n

theorem notMem_of_between {l : List α} (hs : l.Pairwise (· < ·)) {o n t : α} (hf : Follows l o n)
    (hb : between o n t = true) : t ∉ l := by
  obtain ⟨i, ho, hn⟩ := hf
  obtain ⟨hi, rfl⟩ := List.getElem?_eq_some_iff.1 ho
  obtain ⟨hi', rfl⟩ := List.getElem?_eq_some_iff.1 hn
  intro ht
  obtain ⟨j, hj, rfl⟩ := List.getElem_of_mem ht
  have hlt : ∀ {a b : ℕ} (ha : a < l.length) (hb : b < l.length), l[a] < l[b] → a < b := by
    intro a b ha hb h
    by_contra hba
    rcases Nat.lt_or_eq_of_le (not_lt.1 hba) with hlt | rfl
    · exact absurd (List.pairwise_iff_getElem.1 hs b a hb ha hlt) h.not_gt
    · exact lt_irrefl _ h
  rw [between] at hb
  split at hb
  · rename_i hon
    rw [Bool.and_eq_true, decide_eq_true_eq, decide_eq_true_eq] at hb
    have h1 := hlt hi hi' hon
    have h2 := hlt hi hj hb.1
    have h3 := hlt hj hi' hb.2
    have hmod := Nat.mod_le (i + 1) l.length
    omega
  · rename_i hon
    rw [Bool.or_eq_true, decide_eq_true_eq, decide_eq_true_eq] at hb
    -- only the last entry is followed by one that is not greater
    have hlast : i + 1 = l.length := by
      by_contra hne
      have hmod : (i + 1) % l.length = i + 1 := Nat.mod_eq_of_lt (by omega)
      have hstep := List.pairwise_iff_getElem.1 hs i (i + 1) hi (by omega) (by omega)
      simp only [hmod] at hon
      exact hon hstep
    have hzero : (i + 1) % l.length = 0 := by
      rw [hlast]
      exact Nat.mod_self _
    rcases hb with hb | hb
    · have h2 := hlt hi hj hb
      omega
    · have h3 := hlt hj hi' hb
      omega

end Velora.Lib.Cycle
