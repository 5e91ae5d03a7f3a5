import Velora.Wire.Labels

/-!
# Selecting by the longest suffix

A table of domains is asked for a name: the entry of the longest domain that ends the labels of the name is meant (`Selected`).
A loop that cuts the text of the name at its dots, and takes the first cut that the table has, gives that entry unless a cut
inside a label comes first (`findSome?_cuts_iff`).
-/

namespace Velora.Wire

open Velora.Lib Velora.Lib.Text

section

variable {α : Type} {table : List (List UInt8) → Option α} {n : List (List UInt8)}

/-- What is meant by the entry for a name: that of the longest of its suffixes that has one. -/
def Selected (table : List (List UInt8) → Option α) (n : List (List UInt8)) : Option α → Prop
  | some e => ∃ t, t <:+ n ∧ table t = some e ∧ ∀ t', t' <:+ n → t.length < t'.length → table t' = none
  | none => ∀ t, t <:+ n → table t = none

/-- Where the table has an entry for what is left of the name behind a dot inside a label, it has one for a suffix with that
label too. -/
def Straight (table : List (List UInt8) → Option α) (n : List (List UInt8)) : Prop :=
  ∀ us u v ws, n = us ++ (u ++ 46 :: v) :: ws → (table (v :: ws)).isSome →
    ∃ t, t <:+ n ∧ ws.length < t.length ∧ (table t).isSome

/-- A name without a dot in a label is cut at its labels only. -/
theorem straight_of_no_dot (h : ∀ l ∈ n, 46 ∉ l) : Straight table n := by
  rintro us u v ws rfl
  exact absurd (by simp) (h (u ++ 46 :: v) (by simp))

theorem selected_cons {l : List UInt8} {ls : List (List UInt8)} (h : table (l :: ls) = none) {r : Option α} :
    Selected table (l :: ls) r ↔ Selected table ls r := by
  have hsuf : ∀ t, t <:+ l :: ls → t = l :: ls ∨ t <:+ ls := fun t ht => List.suffix_cons_iff.1 ht
  cases r with
  | none =>
    constructor
    · exact fun hsel t ht => hsel t (ht.trans (List.suffix_cons l ls))
    · intro hsel t ht
      rcases hsuf t ht with rfl | ht
      · exact h
      · exact hsel t ht
  | some e =>
    constructor
    · rintro ⟨t, ht, he, hlongest⟩
      rcases hsuf t ht with rfl | ht
      · rw [h] at he
        cases he
      · exact ⟨t, ht, he, fun t' ht' => hlongest t' (ht'.trans (List.suffix_cons l ls))⟩
    · rintro ⟨t, ht, he, hlongest⟩
      refine ⟨t, ht.trans (List.suffix_cons l ls), he, fun t' ht' hlen => ?_⟩
      rcases hsuf t' ht' with rfl | ht'
      · exact h
      · exact hlongest t' ht' hlen

/-- The suffixes from the longest to the shortest: the first with an entry is the one that is meant. -/
theorem selected_iff {r : Option α} : Selected table n r ↔ n.tails.findSome? table = r := by
  induction n with
  | nil =>
    have hnil : ∀ t : List (List UInt8), t <:+ [] ↔ t = [] := fun t => List.suffix_nil
    cases r with
    | none => simp [Selected, hnil]
    | some e => simp [Selected, hnil]
  | cons l ls ih =>
    rw [List.tails_cons, List.findSome?_cons]
    cases hl : table (l :: ls) with
    | none =>
      rw [selected_cons hl]
      exact ih
    | some e =>
      constructor
      · intro hsel
        cases r with
        | none =>
          rw [hsel _ List.suffix_rfl] at hl
          cases hl
        | some e' =>
          obtain ⟨t, ht, he', hlongest⟩ := hsel
          rcases List.suffix_cons_iff.1 ht with rfl | ht
          · exact hl.symm.trans he'
          · have hlen := ht.length_le
            rw [hlongest (l :: ls) List.suffix_rfl (by simp only [List.length_cons]; omega)] at hl
            cases hl
      · rintro rfl
        refine ⟨l :: ls, List.suffix_rfl, hl, fun t' ht' hlen => ?_⟩
        have := ht'.length_le
        omega

theorem straight_cons {l : List UInt8} {ls : List (List UInt8)} (h : table (l :: ls) = none)
    (hcuts : ∀ v ∈ byteTails l, table (v :: ls) = none) : Straight table (l :: ls) ↔ Straight table ls := by
  constructor
  · rintro hst us u v ws rfl hsome
    obtain ⟨t, ht, hlen, htable⟩ := hst (l :: us) u v ws rfl hsome
    rcases List.suffix_cons_iff.1 ht with rfl | ht
    · rw [h] at htable
      cases htable
    · exact ⟨t, ht, hlen, htable⟩
  · intro hst us u v ws hn hsome
    rcases List.cons_eq_append_iff.1 hn with ⟨-, hn⟩ | ⟨us', -, hn⟩
    · injection hn with hl hls
      subst hls
      rw [hcuts v (mem_byteTails.2 ⟨u, hl.symm⟩)] at hsome
      cases hsome
    · obtain ⟨t, ht, hlen, htable⟩ := hst us' u v ws hn hsome
      exact ⟨t, ht.trans (List.suffix_cons l ls), hlen, htable⟩

/-- **When cutting at every dot selects the entry that is meant.** -/
theorem findSome?_cuts_iff (hinj : ∀ t t' e, table t = some e → table t' = some e → t = t') :
    Selected table n ((n :: textTails n).findSome? table) ↔ Straight table n := by
  rw [selected_iff]
  induction n with
  | nil =>
    refine iff_of_true rfl ?_
    intro us u v ws h
    simp at h
  | cons l ls ih =>
    rw [List.tails_cons, List.findSome?_cons, List.findSome?_cons]
    cases hl : table (l :: ls) with
    | some e =>
      refine iff_of_true rfl ?_
      intro us u v ws h _
      have hlen := congrArg List.length h
      simp only [List.length_append, List.length_cons] at hlen
      exact ⟨l :: ls, List.suffix_rfl, by simp only [List.length_cons]; omega, by rw [hl]; rfl⟩
    | none =>
      dsimp only
      rw [textTails, List.findSome?_append]
      cases hcut : ((byteTails l).map (· :: ls)).findSome? table with
      | none =>
        have hno : ∀ v ∈ byteTails l, table (v :: ls) = none := fun v hv =>
          List.findSome?_eq_none_iff.1 hcut _ (List.mem_map_of_mem hv)
        rw [straight_cons hl hno, ← ih]
        rfl
      | some e =>
        obtain ⟨_, hmem, he⟩ := List.exists_of_findSome?_eq_some hcut
        obtain ⟨v, hv, rfl⟩ := List.mem_map.1 hmem
        obtain ⟨u, rfl⟩ := mem_byteTails.1 hv
        refine iff_of_false ?_ ?_
        · -- an entry of a shorter suffix is another entry
          intro hsame
          obtain ⟨t, ht, he'⟩ := List.exists_of_findSome?_eq_some hsame
          have hlen := ((List.mem_tails _ _).1 ht).length_le
          rw [hinj _ _ _ he' he] at hlen
          simp at hlen
        · intro hst
          obtain ⟨t, ht, hlen, hsome⟩ := hst [] u v ls rfl (by rw [he]; rfl)
          rcases List.suffix_cons_iff.1 ht with rfl | ht
          · rw [hl] at hsome
            cases hsome
          · have := ht.length_le
            omega

end

/-! ### Loops over texts -/

theorem findSome?_congr {α β : Type} {f g : α → Option β} {l : List α} (h : ∀ a ∈ l, f a = g a) :
    l.findSome? f = l.findSome? g := by
  induction l with
  | nil => rfl
  | cons a l ih =>
    rw [List.findSome?_cons, List.findSome?_cons, h a List.mem_cons_self, ih fun b hb => h b (List.mem_cons_of_mem _ hb)]

theorem dotTails_cases (s : Str) : dotTails s = [] ∨ ∃ d, dotTails s = d :: dotTails d ∧ d.length < s.length := by
  induction s with
  | nil => exact Or.inl rfl
  | cons c s ih =>
    rw [dotTails]
    by_cases hc : c = '.'
    · exact Or.inr ⟨s, by rw [if_pos hc], by simp⟩
    · rw [if_neg hc]
      refine ih.imp_right ?_
      rintro ⟨d, hd, hlen⟩
      exact ⟨d, hd, by simp only [List.length_cons]; omega⟩

/-- A loop may end at the empty text when there is nothing for it. -/
theorem findSome?_suffixes {α : Type} {f : Str → Option α} (hf : f [] = none) (s : Str) :
    (suffixes s).findSome? f = (s :: dotTails s).findSome? f := by
  induction hlen : s.length using Nat.strong_induction_on generalizing s with
  | _ k ih =>
    by_cases hs : s = []
    · subst hs
      simp [suffixes, dotTails, hf]
    rw [suffixes, List.takeWhile_cons_of_pos (by simpa using hs), List.findSome?_cons, List.findSome?_cons]
    cases f s with
    | some e => rfl
    | none =>
      dsimp only
      rcases dotTails_cases s with hnil | ⟨d, hd, hlt⟩
      · rw [hnil]
        rfl
      · rw [hd]
        exact ih d.length (by omega) d rfl

/-- The labels with dots between them. -/
def bare (labels : List (List UInt8)) : Str := (dotted labels).dropLast

theorem dotted_eq_bare {labels : List (List UInt8)} (h : labels ≠ []) : dotted labels = bare labels ++ ['.'] := by
  have hlast : (dotted labels).getLast? = some '.' := by
    obtain ⟨init, l, rfl⟩ := List.eq_nil_or_concat labels |>.resolve_left h
    simp [dotted]
  obtain ⟨s, hs⟩ := List.getLast?_eq_some_iff.1 hlast
  rw [bare, hs, List.dropLast_concat]

theorem trimDot_dotted {labels : List (List UInt8)} (h : labels ≠ []) : trimDot (dotted labels) = bare labels := by
  rw [dotted_eq_bare h, trimDot, if_pos (by simp), List.dropLast_concat]

theorem dotTails_snoc (s : Str) : dotTails (s ++ ['.']) = (dotTails s).map (· ++ ['.']) ++ [[]] := by
  induction s with
  | nil => rfl
  | cons c s ih =>
    rw [List.cons_append, dotTails, dotTails, ih]
    by_cases hc : c = '.' <;> simp [hc]

theorem textTails_snoc {labels : List (List UInt8)} (h : labels ≠ []) :
    ∃ ts, textTails labels = ts ++ [[]] ∧ ∀ t ∈ ts, t ≠ [] := by
  induction labels with
  | nil => exact absurd rfl h
  | cons l ls ih =>
    have hcuts : ∀ t ∈ (byteTails l).map (· :: ls), t ≠ [] := by
      rintro _ ht rfl
      simp at ht
    by_cases hls : ls = []
    · subst hls
      exact ⟨_, rfl, hcuts⟩
    · obtain ⟨ts, hts, hne⟩ := ih hls
      refine ⟨(byteTails l).map (· :: ls) ++ ls :: ts, by rw [textTails, hts]; simp, fun t ht => ?_⟩
      rcases List.mem_append.1 ht with ht | ht
      · exact hcuts t ht
      · rcases List.mem_cons.1 ht with rfl | ht
        · exact hls
        · exact hne t ht

/-- The cuts of a name without its last dot. -/
theorem dotTails_bare {labels : List (List UInt8)} (h : labels ≠ []) :
    ∃ ts, textTails labels = ts ++ [[]] ∧ (∀ t ∈ ts, t ≠ []) ∧ dotTails (bare labels) = ts.map bare := by
  obtain ⟨ts, hts, hne⟩ := textTails_snoc h
  refine ⟨ts, hts, hne, ?_⟩
  have hcut := dotTails_dotted labels
  rw [dotted_eq_bare h, dotTails_snoc, hts, List.map_append] at hcut
  have hmap := List.append_inj_left' hcut rfl
  have hdots : ts.map dotted = (ts.map bare).map (· ++ ['.']) := by
    rw [List.map_map]
    exact List.map_congr_left fun t ht => dotted_eq_bare (hne t ht)
  rw [hdots] at hmap
  exact List.map_injective_iff.2 (List.append_left_injective ['.']) hmap

end Velora.Wire
