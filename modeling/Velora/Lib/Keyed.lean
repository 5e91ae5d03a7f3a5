import Mathlib

/-!
# Lists with a key

A list whose entries have different keys, kept twice: once as a list that is changed at an index, once as a table that
is changed by its keys. Replacing and removing are the same on both (`map_replace_eq_set`, `filter_ne_eq_eraseIdx`), and
so is finding an entry, in whatever order the entries stand (`find?_perm`).
-/

namespace Velora.Lib.Keyed

variable {α κ : Type} {key : α → κ}

/-- The entry whose key has been found is the one at the index. -/
theorem map_replace_eq_set [DecidableEq κ] {l : List α} (h : (l.map key).Nodup) {i : ℕ} {old a : α} (hi : l[i]? = some old)
    (ha : key a = key old) : l.map (fun x => if key x = key a then a else x) = l.set i a := by
  induction l generalizing i with
  | nil => cases hi
  | cons x l ih =>
    rw [List.map_cons, List.nodup_cons] at h
    cases i with
    | zero =>
      obtain rfl : x = old := by simpa using hi
      have hrest : l.map (fun y => if key y = key a then a else y) = l := by
        conv_rhs => rw [← List.map_id l]
        refine List.map_congr_left fun y hy => ?_
        rw [if_neg]
        · rfl
        · intro hk
          exact h.1 (List.mem_map.2 ⟨y, hy, hk.trans ha⟩)
      rw [List.map_cons, if_pos ha.symm, hrest, List.set_cons_zero]
    | succ i =>
      have hi' : l[i]? = some old := by simpa using hi
      have hne : key x ≠ key a := by
        intro hk
        exact h.1 (List.mem_map.2 ⟨old, List.mem_of_getElem? hi', (hk.trans ha).symm⟩)
      rw [List.map_cons, if_neg hne, ih h.2 hi', List.set_cons_succ]

theorem filter_ne_eq_eraseIdx [DecidableEq κ] {l : List α} (h : (l.map key).Nodup) {i : ℕ} {old : α} (hi : l[i]? = some old) :
    l.filter (fun x => key x ≠ key old) = l.eraseIdx i := by
  induction l generalizing i with
  | nil => cases hi
  | cons x l ih =>
    rw [List.map_cons, List.nodup_cons] at h
    cases i with
    | zero =>
      obtain rfl : x = old := by simpa using hi
      rw [List.filter_cons_of_neg (by simp), List.eraseIdx_cons_zero, List.filter_eq_self]
      intro y hy
      have hne : key y ≠ key x := fun hk => h.1 (List.mem_map.2 ⟨y, hy, hk⟩)
      simpa using hne
    | succ i =>
      have hi' : l[i]? = some old := by simpa using hi
      have hne : key x ≠ key old := fun hk => h.1 (List.mem_map.2 ⟨old, List.mem_of_getElem? hi', hk.symm⟩)
      rw [List.filter_cons_of_pos (by simpa using hne), ih h.2 hi', List.eraseIdx_cons_succ]

/-- Replacing an entry by one with its key changes no key. -/
theorem map_set {β : Type} {f : α → β} {l : List α} {i : ℕ} {old a : α} (hi : l[i]? = some old) (ha : f a = f old) :
    (l.set i a).map f = l.map f := by
  induction l generalizing i with
  | nil => cases hi
  | cons x l ih =>
    cases i with
    | zero =>
      obtain rfl : x = old := by simpa using hi
      rw [List.set_cons_zero, List.map_cons, List.map_cons, ha]
    | succ i =>
      have hi' : l[i]? = some old := by simpa using hi
      rw [List.set_cons_succ, List.map_cons, List.map_cons, ih hi']

theorem nodup_eraseIdx {l : List α} (h : (l.map key).Nodup) (i : ℕ) : ((l.eraseIdx i).map key).Nodup :=
  (List.Sublist.map key (List.eraseIdx_sublist l i)).nodup h

theorem nodup_concat {l : List α} (h : (l.map key).Nodup) {a : α} (ha : ∀ x ∈ l, key x ≠ key a) :
    ((l ++ [a]).map key).Nodup := by
  rw [List.map_append, List.nodup_append]
  refine ⟨h, List.nodup_singleton _, ?_⟩
  intro k hk k' hk'
  obtain ⟨x, hx, rfl⟩ := List.mem_map.1 hk
  rw [List.mem_singleton.1 hk']
  exact ha x hx

/-- The entry with a key is the one that is found. -/
theorem find?_eq_some [DecidableEq κ] {l : List α} (h : (l.map key).Nodup) {k : κ} {a : α} :
    l.find? (fun x => key x = k) = some a ↔ a ∈ l ∧ key a = k := by
  constructor
  · intro hf
    have hk := List.find?_some hf
    exact ⟨List.mem_of_find?_eq_some hf, by simpa using hk⟩
  · rintro ⟨ha, rfl⟩
    have hsome : (l.find? (fun x => key x = key a)).isSome := by
      rw [List.find?_isSome]
      exact ⟨a, ha, by simp⟩
    obtain ⟨b, hb⟩ := Option.isSome_iff_exists.1 hsome
    have hk := List.find?_some hb
    have heq : b = a := List.inj_on_of_nodup_map h (List.mem_of_find?_eq_some hb) ha (by simpa using hk)
    rw [hb, heq]

/-- Where only some entries have a key, two that have the same one are equal. -/
theorem eq_of_nodup_filterMap {f : α → Option κ} {l : List α} (h : (l.filterMap f).Nodup) {a b : α} (ha : a ∈ l) (hb : b ∈ l)
    {k : κ} (hka : f a = some k) (hkb : f b = some k) : a = b := by
  by_contra hne
  have hsymm : Std.Symm (fun x y : α => ∀ k, f x = some k → f y ≠ some k) := ⟨fun x y hxy k hy hx => hxy k hx hy⟩
  have hdistinct : l.Pairwise (fun x y => ∀ k, f x = some k → f y ≠ some k) :=
    (List.pairwise_filterMap.1 h).imp fun {x y} hxy k hx hy => hxy k hx k hy rfl
  exact hdistinct.forall ha hb hne k hka hkb

/-- The order of the list is of no importance. -/
theorem find?_perm [DecidableEq κ] {l l' : List α} (h : (l.map key).Nodup) (hp : l.Perm l') (k : κ) :
    l.find? (fun x => key x = k) = l'.find? (fun x => key x = k) := by
  have h' : (l'.map key).Nodup := (hp.map key).nodup_iff.1 h
  refine Option.ext fun a => ?_
  rw [find?_eq_some h, find?_eq_some h', hp.mem_iff]

end Velora.Lib.Keyed
