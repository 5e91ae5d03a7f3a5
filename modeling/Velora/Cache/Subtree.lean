import Velora.Cache.Refine
import Velora.Wire.Labels

/-!
# Invalidating a part of the name tree

`Invalidate` finds the names below a name by a suffix of their text. `Exact` says what it is for: the entries at the name, and
below it when subdomains are asked for, go, and all others stay as they are. The text ends like a name below also when the name
stands behind a dot that belongs to a label, and nothing ends in a dot before the root (`invalidate_exact_iff`).
-/

namespace Velora.Cache

open Velora.Lib Velora.Lib.Text Velora.Wire Velora.Dns

/-! ### The name tree -/

/-- The entries hold questions for names of the wire. -/
structure Owned (owner : Entry → WireName) (c : Cache) : Prop where
  inv : Inv c
  names : ∀ e ∈ values c, e.message.question0.name = present (owner e).labels

/-- What an invalidation is for: the entries of a type for a name, and for the names below it when `sub` is set. -/
def Meant (owner : Entry → WireName) (n : WireName) (qtype : UInt16) (sub : Bool) (e : Entry) : Prop :=
  (qtype = 0 ∨ e.message.question0.qtype = qtype) ∧
    (folded (owner e).labels = folded n.labels ∨ sub = true ∧ folded n.labels <:+ folded (owner e).labels)

instance (owner : Entry → WireName) (n : WireName) (qtype : UInt16) (sub : Bool) :
    DecidablePred (Meant owner n qtype sub) := by
  intro e
  unfold Meant
  infer_instance

/-- **An exact invalidation**: what is meant is gone, the rest is as it was, and the number is that of what is gone. -/
structure Exact (owner : Entry → WireName) (n : WireName) (qtype : UInt16) (sub : Bool) (c : Cache) (r : Cache × ℕ) :
    Prop where
  kept : values r.1 = (values c).filter (fun e => ¬ Meant owner n qtype sub e)
  removed : r.2 = (values c).countP (fun e => Meant owner n qtype sub e)

/-- The name `n` stands in the name `w` right behind a dot of a label. -/
def MidLabel (n w : List (List UInt8)) : Prop := ∃ us u x xs, n = x :: xs ∧ w = us ++ (u ++ 46 :: x) :: xs

/-- The last label ends in a dot. -/
def EndsInDot (w : List (List UInt8)) : Prop := ∃ us u, w = us ++ [u ++ [46]]

/-- The text of `w` tells whether `w` is at or below `n`. -/
def Telling (n w : List (List UInt8)) : Prop := if n = [] then w = [] ∨ EndsInDot w else ¬ MidLabel n w

/-! ### The test on texts -/

section

variable {n w : List (List UInt8)}

theorem isSuffixOf_present : ('.' :: present n).isSuffixOf (present w) = true ↔ present n ∈ dotTails (present w) := by
  rw [List.isSuffixOf_iff_suffix, mem_dotTails]
  exact ⟨fun ⟨l, h⟩ => ⟨l, h.symm⟩, fun ⟨l, h⟩ => ⟨l, h.symm⟩⟩

theorem root_mem_dotTails (hw : [] ∉ w) : present [] ∈ dotTails (present w) ↔ EndsInDot w := by
  by_cases hroot : w = []
  · subst hroot
    have hno : ¬ EndsInDot [] := by
      rintro ⟨us, u, h⟩
      simp at h
    exact iff_of_false (by decide) hno
  rw [present_nil, present_eq_dotted hroot, dotTails_dotted, List.mem_map_of_injective fun _ _ => dotted_inj, mem_textTails]
  constructor
  · rintro (⟨us, -, rfl⟩ | ⟨us, u, v, ws, rfl, h⟩)
    · exact absurd (List.mem_append_right us (List.mem_singleton_self _)) hw
    · injection h with h1 h2
      subst h1 h2
      exact ⟨us, u, rfl⟩
  · rintro ⟨us, u, rfl⟩
    exact Or.inr ⟨us, u, [], [], rfl, rfl⟩

theorem present_mem_dotTails (hn : n ≠ []) :
    present n ∈ dotTails (present w) ↔ (∃ us, us ≠ [] ∧ w = us ++ n) ∨ MidLabel n w := by
  by_cases hroot : w = []
  · subst hroot
    have htails : dotTails (present []) = [[]] := by decide
    have hnil : dotted n ≠ [] := by
      obtain ⟨x, xs, rfl⟩ := List.exists_cons_of_ne_nil hn
      simp [dotted_cons]
    rw [htails, present_eq_dotted hn, List.mem_singleton]
    refine iff_of_false hnil ?_
    rintro (⟨us, hus, h⟩ | ⟨us, u, x, xs, -, h⟩)
    · exact hus (List.append_eq_nil_iff.1 h.symm).1
    · simp at h
  rw [present_eq_dotted hn, present_eq_dotted hroot, dotTails_dotted, List.mem_map_of_injective fun _ _ => dotted_inj,
    mem_textTails]
  refine or_congr_right ⟨?_, ?_⟩
  · rintro ⟨us, u, v, ws, hw, hn⟩
    exact ⟨us, u, v, ws, hn, hw⟩
  · rintro ⟨us, u, x, xs, hn, hw⟩
    exact ⟨us, u, x, xs, hw, hn⟩

/-- A name behind a dot of a label is not one of the names above. -/
theorem not_suffix_of_midLabel (h : MidLabel n w) : ¬ n <:+ w := by
  obtain ⟨us, u, x, xs, rfl, rfl⟩ := h
  intro hsuf
  have hlast : (u ++ 46 :: x) :: xs <:+ us ++ (u ++ 46 :: x) :: xs := List.suffix_append _ _
  have heq := (List.suffix_of_suffix_length_le hsuf hlast (by simp)).eq_of_length (by simp)
  have hlen := congrArg List.length (List.cons.inj heq).1
  simp at hlen
  omega

/-- **When the test on texts is the one on the tree.** -/
theorem text_test_iff (hw : [] ∉ w) :
    ((w = n ∨ ('.' :: present n).isSuffixOf (present w) = true) ↔ (w = n ∨ n <:+ w)) ↔ Telling n w := by
  rw [isSuffixOf_present, Telling]
  by_cases hn : n = []
  · subst hn
    rw [if_pos rfl, root_mem_dotTails hw]
    simp
  rw [if_neg hn, present_mem_dotTails hn]
  have habove : n <:+ w ↔ w = n ∨ ∃ us, us ≠ [] ∧ w = us ++ n := by
    constructor
    · rintro ⟨us, rfl⟩
      by_cases hus : us = []
      · subst hus
        exact Or.inl rfl
      · exact Or.inr ⟨us, hus, rfl⟩
    · rintro (rfl | ⟨us, -, rfl⟩)
      · exact List.suffix_rfl
      · exact List.suffix_append _ _
  constructor
  · intro h hmid
    refine not_suffix_of_midLabel hmid ?_
    rcases h.1 (Or.inr (Or.inr hmid)) with rfl | hsuf
    · exact List.suffix_rfl
    · exact hsuf
  · intro h
    rw [habove, or_iff_left h, or_self_left]

/-- A name without a dot in a label tells which names it is below, the root apart. -/
theorem telling_of_no_dot (hn : n ≠ []) (h : ∀ l ∈ w, 46 ∉ l) : Telling n w := by
  rw [Telling, if_neg hn]
  rintro ⟨us, u, x, xs, -, rfl⟩
  exact h (u ++ 46 :: x) (by simp) (by simp)

end

/-! ### What is removed -/

/-- The test of the loop on one entry. -/
def Tested (name : Str) (qtype : UInt16) (sub : Bool) (e : Entry) : Bool :=
  (qtype == 0 || e.message.question0.qtype == qtype) &&
    (lower e.message.question0.name == name || sub && ('.' :: name).isSuffixOf (lower e.message.question0.name))

theorem filter_eq_filter_iff {α : Type} {p q : α → Bool} {l : List α} :
    l.filter p = l.filter q ↔ ∀ x ∈ l, p x = q x := by
  constructor
  · intro h x hx
    have hmem := congrArg (x ∈ ·) h
    simp only [List.mem_filter, hx, true_and, eq_iff_iff] at hmem
    exact Bool.eq_iff_iff.2 hmem
  · exact List.filter_congr

section

variable {owner : Entry → WireName} {c : Cache} {n : WireName} {name : Str}

/-- An entry is treated as it should be, unless its name is not told by its text. -/
theorem tested_iff (hc : Owned owner c) {qtype : UInt16} {sub : Bool} {e : Entry} (he : e ∈ values c) :
    (Tested (lower (present n.labels)) qtype sub e = true ↔ Meant owner n qtype sub e) ↔
      (sub = true → qtype = 0 ∨ e.message.question0.qtype = qtype → Telling (folded n.labels) (folded (owner e).labels)) := by
  have hw := nil_notMem_folded (owner e).nil_notMem
  have hn := nil_notMem_folded n.nil_notMem
  have heq : present (folded (owner e).labels) = present (folded n.labels) ↔ folded (owner e).labels = folded n.labels :=
    ⟨present_inj hw hn, fun h => by rw [h]⟩
  simp only [Tested, Meant, hc.names e he, lower_present, Bool.and_eq_true, Bool.or_eq_true, beq_iff_eq, heq]
  by_cases htype : qtype = 0 ∨ e.message.question0.qtype = qtype
  · cases sub with
    | false => simp [htype]
    | true => simpa [htype] using text_test_iff hw
  · simp [htype]

/-- **`Invalidate` is exact** when subdomains are not asked for, and otherwise when the text of every name it looks at tells
whether the name is at or below the one that is given. -/
theorem invalidate_exact_iff {qtype : UInt16} {sub : Bool} (hc : Owned owner c)
    (hname : lower (fqdn (trimSpace name)) = lower (present n.labels)) :
    Exact owner n qtype sub c (c.invalidate name qtype sub) ↔
      (sub = true → ∀ e ∈ values c, qtype = 0 ∨ e.message.question0.qtype = qtype →
        Telling (folded n.labels) (folded (owner e).labels)) := by
  have hrun : c.invalidate name qtype sub = c.removeWhere (Tested (lower (present n.labels)) qtype sub) := by
    rw [← hname]
    rfl
  have hkept := (removeWhere_spec hc.inv (Tested (lower (present n.labels)) qtype sub)).2.2
  have hcount := removeWhere_count hc.inv (Tested (lower (present n.labels)) qtype sub)
  rw [← hrun] at hkept hcount
  have hsame : (∀ e ∈ values c, (Tested (lower (present n.labels)) qtype sub e = true ↔ Meant owner n qtype sub e)) ↔
      (sub = true → ∀ e ∈ values c, qtype = 0 ∨ e.message.question0.qtype = qtype →
        Telling (folded n.labels) (folded (owner e).labels)) := by
    constructor
    · exact fun h hsub e he => (tested_iff hc he).1 (h e he) hsub
    · exact fun h e he => (tested_iff hc he).2 fun hsub => h hsub e he
  rw [← hsame]
  constructor
  · rintro ⟨h, -⟩ e he
    rw [hkept, filter_eq_filter_iff] at h
    have hnot := Bool.eq_iff_iff.1 (h e he)
    simp only [Bool.not_eq_true', decide_eq_true_eq] at hnot
    rw [← not_iff_not, ← hnot, Bool.not_eq_true]
  · intro h
    constructor
    · rw [hkept, filter_eq_filter_iff]
      intro e he
      rw [decide_not, Bool.not_inj_iff, Bool.eq_iff_iff, decide_eq_true_eq]
      exact h e he
    · rw [hcount]
      refine List.countP_congr fun e he => ?_
      rw [decide_eq_true_eq]
      exact h e he

end

/-! ### A cached name below the domain, and one that only looks so -/

namespace Sample

/-- A cache with one answer, for the name with these labels. -/
def holding (labels : List (List UInt8)) : Cache :=
  let q := setQuestion 7 (present labels) typeA
  run lib (new 2) [(0, .put q { setReply q with answer := [⟨⟨present labels, classINET, 10⟩, .a [192, 0, 2, 1]⟩] })]

/-- The domain `example.com`. -/
def domain : WireName := ⟨[[101, 120, 97, 109, 112, 108, 101], [99, 111, 109]], by decide, by decide⟩

/-- The name `www.example.com`. -/
def below : WireName := ⟨[[119, 119, 119], [101, 120, 97, 109, 112, 108, 101], [99, 111, 109]], by decide, by decide⟩

/-- The domain `a.example` of `com`, which is written with an escaped dot. -/
def beside : WireName := ⟨[[97, 46, 101, 120, 97, 109, 112, 108, 101], [99, 111, 109]], by decide, by decide⟩

theorem owned_holding (w : WireName)
    (h : (values (holding w.labels)).map (fun e => e.message.question0.name) = [present w.labels]) :
    Owned (fun _ => w) (holding w.labels) where
  inv := (refines_new lib 2 _).inv
  names e he := by
    have hmem : e.message.question0.name ∈ (values (holding w.labels)).map (fun e => e.message.question0.name) :=
      List.mem_map_of_mem he
    rw [h] at hmem
    exact List.mem_singleton.1 hmem

end Sample

theorem invalidate_below :
    Exact (fun _ => Sample.below) Sample.domain 0 true (Sample.holding Sample.below.labels)
      ((Sample.holding Sample.below.labels).invalidate "Example.com".toList 0 true) := by
  refine (invalidate_exact_iff (Sample.owned_holding _ (by decide)) (by decide)).2 ?_
  exact fun _ _ _ _ => telling_of_no_dot (by decide) (by decide)

/-- Invalidating `example.com` and below takes the answer for a name of `com` that is not below it. -/
theorem invalidate_beside :
    Owned (fun _ => Sample.beside) (Sample.holding Sample.beside.labels) ∧
      ¬ Exact (fun _ => Sample.beside) Sample.domain 0 true (Sample.holding Sample.beside.labels)
        ((Sample.holding Sample.beside.labels).invalidate "example.com".toList 0 true) := by
  refine ⟨Sample.owned_holding _ (by decide), ?_⟩
  rintro ⟨-, hcount⟩
  revert hcount
  decide

end Velora.Cache
