import Mathlib

/-!
# Groups of rows

Rows that have the same key are a group. `top` gives the largest groups, and those of the same size in the order of their keys; no
group that is left out comes before one that is there (`top_spec`). When each row belongs in one of `n` places, `place` puts the
groups there, in any order of theirs (`place_spec`), and what the places add up to is what all rows do (`sum_places`).
-/

namespace Velora.Lib.Grouping

open Finset

variable {α β κ M : Type}

/-! ### The largest groups -/

section

variable [LinearOrder κ] (key : α → κ) {limit : ℕ} {rows : List α}

/-- The rows with a key. -/
def group (rows : List α) (k : κ) : List α := rows.filter (fun r => key r = k)

def groups (rows : List α) : List (κ × List α) := (rows.map key).dedup.map (fun k => (k, group key rows k))

/-- The group is larger, or as large and with a key before the other. -/
def Before (a b : κ × List α) : Prop := b.2.length < a.2.length ∨ a.2.length = b.2.length ∧ a.1 < b.1

/-- The order of the groups; two of the same key are not apart. -/
def notAfter (a b : κ × List α) : Bool := b.2.length < a.2.length ∨ a.2.length = b.2.length ∧ a.1 ≤ b.1

def top (limit : ℕ) (rows : List α) : List (κ × List α) := ((groups key rows).mergeSort notAfter).take limit

theorem notAfter_trans (a b c : κ × List α) (hab : notAfter a b = true) (hbc : notAfter b c = true) : notAfter a c = true := by
  simp only [notAfter, decide_eq_true_eq] at *
  rcases hab with hab | ⟨hab, hk⟩ <;> rcases hbc with hbc | ⟨hbc, hk'⟩
  · exact Or.inl (hbc.trans hab)
  · exact Or.inl (hbc ▸ hab)
  · exact Or.inl (hab ▸ hbc)
  · exact Or.inr ⟨hab.trans hbc, hk.trans hk'⟩

theorem notAfter_total (a b : κ × List α) : (notAfter a b || notAfter b a) = true := by
  simp only [notAfter, Bool.or_eq_true, decide_eq_true_eq]
  rcases lt_trichotomy a.2.length b.2.length with h | h | h
  · exact Or.inr (Or.inl h)
  · rcases le_total a.1 b.1 with hk | hk
    · exact Or.inl (Or.inr ⟨h, hk⟩)
    · exact Or.inr (Or.inr ⟨h.symm, hk⟩)
  · exact Or.inl (Or.inl h)

theorem before_of_notAfter {a b : κ × List α} (h : notAfter a b = true) (hne : a.1 ≠ b.1) : Before a b := by
  rw [notAfter, decide_eq_true_eq] at h
  exact h.imp_right fun h => ⟨h.1, lt_of_le_of_ne h.2 hne⟩

/-- No two groups have one key. -/
theorem groups_nodup (rows : List α) : ((groups key rows).map Prod.fst).Nodup := by
  have hfst : (groups key rows).map Prod.fst = (rows.map key).dedup := by
    rw [groups, List.map_map]
    exact List.map_id _
  rw [hfst]
  exact List.nodup_dedup _

theorem sorted_groups (rows : List α) : ((groups key rows).mergeSort notAfter).Pairwise Before := by
  have hnodup : (((groups key rows).mergeSort notAfter).map Prod.fst).Nodup :=
    ((List.mergeSort_perm _ _).map Prod.fst).nodup_iff.2 (groups_nodup key rows)
  exact (List.pairwise_mergeSort notAfter_trans notAfter_total _).imp₂ (fun a b => before_of_notAfter) (List.pairwise_map.1 hnodup)

theorem mem_groups {p : κ × List α} : p ∈ groups key rows ↔ p.1 ∈ rows.map key ∧ p.2 = group key rows p.1 := by
  rw [groups, List.mem_map]
  constructor
  · rintro ⟨k, hk, rfl⟩
    exact ⟨List.mem_dedup.1 hk, rfl⟩
  · rintro ⟨hk, hp⟩
    exact ⟨p.1, List.mem_dedup.2 hk, by rw [← hp]⟩

/-- What `top` promises. -/
structure IsTop (limit : ℕ) (rows : List α) (found : List (κ × List α)) : Prop where
  sorted : found.Pairwise Before
  length_le : found.length ≤ limit
  exact : ∀ p ∈ found, p.1 ∈ rows.map key ∧ p.2 = group key rows p.1
  complete : ∀ k ∈ rows.map key, (k, group key rows k) ∈ found ∨
    found.length = limit ∧ ∀ p ∈ found, Before p (k, group key rows k)

/-- **The largest groups**: sorted, whole, and none that is left out comes before one of them. -/
theorem top_spec (limit : ℕ) (rows : List α) : IsTop key limit rows (top key limit rows) := by
  have hsorted := sorted_groups key rows
  refine ⟨hsorted.sublist (List.take_sublist _ _), List.length_take_le _ _, fun p hp => ?_, fun k hk => ?_⟩
  · exact (mem_groups key).1 (List.mem_mergeSort.1 (List.mem_of_mem_take hp))
  · have hmem : (k, group key rows k) ∈ (groups key rows).mergeSort notAfter :=
      List.mem_mergeSort.2 ((mem_groups key).2 ⟨hk, rfl⟩)
    rw [← List.take_append_drop limit ((groups key rows).mergeSort notAfter)] at hmem hsorted
    rcases List.mem_append.1 hmem with hmem | hmem
    · exact Or.inl hmem
    · refine Or.inr ⟨?_, fun p hp => (List.pairwise_append.1 hsorted).2.2 p hp _ hmem⟩
      have hpos := List.length_pos_of_mem hmem
      rw [List.length_drop] at hpos
      rw [top, List.length_take]
      omega

end

/-! ### Places -/

/-- Each key has its value put where it belongs, if that is one of the places. -/
def place (index : κ → Option ℕ) (value : κ → β) (places : List β) (keys : List κ) : List β :=
  keys.foldl (fun places k => (index k).elim places (fun i => places.set i (value k))) places

theorem place_length (index : κ → Option ℕ) (value : κ → β) (places : List β) (keys : List κ) :
    (place index value places keys).length = places.length := by
  induction keys generalizing places with
  | nil => rfl
  | cons k keys ih =>
    rw [place, List.foldl_cons, ← place, ih]
    cases index k with
    | none => rfl
    | some i => exact List.length_set

/-- **A place holds what belongs there**: the value of any key that is put there, and what it held before if there is none. -/
theorem place_spec {index : κ → Option ℕ} {value : κ → β} {target : ℕ → β} {keys : List κ} {places : List β} {i : ℕ}
    (hi : i < places.length) (htarget : ∀ k ∈ keys, index k = some i → value k = target i)
    (hrest : (∀ k ∈ keys, index k ≠ some i) → places[i]? = some (target i)) :
    (place index value places keys)[i]? = some (target i) := by
  induction keys generalizing places with
  | nil => exact hrest fun k hk => by cases hk
  | cons k keys ih =>
    rw [place, List.foldl_cons, ← place]
    have htail : ∀ k ∈ keys, index k = some i → value k = target i := fun k' hk' => htarget k' (List.mem_cons_of_mem _ hk')
    cases hindex : index k with
    | none =>
      refine ih hi htail fun hnone => hrest fun k' hk' => ?_
      rcases List.mem_cons.1 hk' with rfl | hk'
      · rw [hindex]
        exact (Option.some_ne_none i).symm
      · exact hnone k' hk'
    | some j =>
      refine ih (by rwa [Option.elim_some, List.length_set]) htail fun hnone => ?_
      rw [Option.elim_some]
      rcases eq_or_ne j i with rfl | hji
      · rw [List.getElem?_set_self hi, htarget k List.mem_cons_self hindex]
      · rw [List.getElem?_set_ne hji]
        refine hrest fun k' hk' => ?_
        rcases List.mem_cons.1 hk' with rfl | hk'
        · rw [hindex]
          exact fun h => hji (Option.some.inj h)
        · exact hnone k' hk'

/-- **The places together**: rows that each belong in one of them are counted once. -/
theorem sum_places [AddCommMonoid M] (amount : α → M) (index : α → ℕ) {n : ℕ} {rows : List α} (h : ∀ r ∈ rows, index r < n) :
    ∑ i ∈ range n, ((rows.filter (fun r => index r = i)).map amount).sum = (rows.map amount).sum := by
  induction rows with
  | nil => simp
  | cons r rows ih =>
    have hone : ∀ i, (((r :: rows).filter (fun r => index r = i)).map amount).sum =
        (if i = index r then amount r else 0) + ((rows.filter (fun r => index r = i)).map amount).sum := by
      intro i
      rw [List.filter_cons]
      rcases eq_or_ne (index r) i with rfl | hne
      · rw [if_pos (decide_eq_true rfl), if_pos rfl, List.map_cons, List.sum_cons]
      · rw [if_neg (by simpa using hne), if_neg hne.symm, zero_add]
    rw [Finset.sum_congr rfl fun i _ => hone i, Finset.sum_add_distrib, ih fun r hr => h r (List.mem_cons_of_mem _ hr),
      Finset.sum_ite_eq', if_pos (mem_range.2 (h r List.mem_cons_self)), List.map_cons, List.sum_cons]

end Velora.Lib.Grouping
