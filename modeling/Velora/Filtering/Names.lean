import Velora.Wire.Name
import Velora.Zones.Snapshot

/-!
# Host names

`name` of `internal/filtering/matcher.go`, which the rules of all services pass through: a name without a trailing dot, in
lower case, of letters, digits, hyphens, underscores and dots. It leaves a name it has returned as it is (`name_name`).
-/

namespace Velora.Filtering

open Velora.Lib Velora.Lib.Text Velora.Lib.Ip Velora.Wire
open Velora.Zones (byteLen labelChar)

/-- The check of one label. -/
def goodLabel (label : Str) : Bool :=
  label ≠ [] && byteLen label ≤ 63 && label.head? ≠ some '-' && label.getLast? ≠ some '-' && label.all labelChar

/-- `strings.TrimPrefix(v, "*.")`. -/
def trimStar (v : Str) : Str := (cutPrefix "*.".toList v).getD v

/-- `name`, also `NormalizeDomain`; the error is always the same. -/
def name (v : Str) : Option Str :=
  let v := trimStar (trimDot (lower (trimSpaces v)))
  if v = [] ∨ byteLen v > 253 then none
  else if (splitDots v).all goodLabel then some v
  else none

/-! ### The characters of a name -/

/-- The characters of a host name. -/
def hostChar (c : Char) : Bool := labelChar c || c == '.'

theorem hostChar_toNat {c : Char} (h : hostChar c = true) :
    (97 ≤ c.toNat ∧ c.toNat ≤ 122) ∨ (48 ≤ c.toNat ∧ c.toNat ≤ 57) ∨ c.toNat = 45 ∨ c.toNat = 95 ∨ c.toNat = 46 := by
  simp only [hostChar, labelChar, Bool.or_eq_true, Bool.and_eq_true, decide_eq_true_eq, beq_iff_eq, Char.isDigit] at h
  rcases h with ((((⟨h1, h2⟩ | ⟨h1, h2⟩) | rfl) | rfl) | rfl)
  · exact Or.inl ⟨h1, h2⟩
  · exact Or.inr (Or.inl ⟨UInt32.le_iff_toNat_le.1 h1, UInt32.le_iff_toNat_le.1 h2⟩)
  · exact Or.inr (Or.inr (Or.inl rfl))
  · exact Or.inr (Or.inr (Or.inr (Or.inl rfl)))
  · exact Or.inr (Or.inr (Or.inr (Or.inr rfl)))

theorem lowerChar_host {c : Char} (h : hostChar c = true) : lowerChar c = c := by
  have hn := hostChar_toNat h
  exact lowerChar_of_toNat (by omega) (by omega)

theorem isSpaceRune_host {c : Char} (h : hostChar c = true) : isSpaceRune c = false := by
  have hn := hostChar_toNat h
  simp only [isSpaceRune, isSpace, Bool.or_eq_false_iff, Bool.and_eq_false_iff, decide_eq_false_iff_not, beq_eq_false_iff_ne,
    List.mem_cons, List.not_mem_nil, not_or, not_false_eq_true, and_true]
  omega

section

variable {d : Str} (hd : ∀ c ∈ d, hostChar c = true)

include hd

theorem lower_host : lower d = d := by
  unfold lower
  conv_rhs => rw [← List.map_id d]
  exact List.map_congr_left fun c hc => lowerChar_host (hd c hc)

theorem dropWhile_host {p : Char → Bool} (hp : ∀ c, hostChar c = true → p c = false) : d.dropWhile p = d := by
  cases d with
  | nil => rfl
  | cons c cs => rw [List.dropWhile_cons_of_neg (by simp [hp c (hd c List.mem_cons_self)])]

theorem trimSpaces_host : trimSpaces d = d := by
  have hrev : ∀ c ∈ d.reverse, hostChar c = true := fun c hc => hd c (List.mem_reverse.1 hc)
  unfold trimSpaces
  rw [dropWhile_host hd fun c => isSpaceRune_host, dropWhile_host hrev fun c => isSpaceRune_host, List.reverse_reverse]

theorem trimSpace_host : trimSpace d = d := by
  have hspace : ∀ c, hostChar c = true → isSpace c = false := by
    intro c hc
    have h := isSpaceRune_host hc
    simp only [isSpaceRune, Bool.or_eq_false_iff] at h
    exact h.1.1
  have hrev : ∀ c ∈ d.reverse, hostChar c = true := fun c hc => hd c (List.mem_reverse.1 hc)
  unfold trimSpace
  rw [dropWhile_host hd hspace, dropWhile_host hrev hspace, List.reverse_reverse]

end

/-! ### Names that are left as they are -/

/-- What `name` has checked. -/
theorem name_eq_some {v d : Str} : name v = some d ↔ trimStar (trimDot (lower (trimSpaces v))) = d ∧ d ≠ [] ∧
    byteLen d ≤ 253 ∧ (splitDots d).all goodLabel = true := by
  unfold name
  dsimp only
  constructor
  · intro h
    split at h
    · cases h
    · rename_i hlen
      split at h
      · rename_i hlabels
        cases h
        push Not at hlen
        exact ⟨rfl, hlen.1, hlen.2, hlabels⟩
      · cases h
  · rintro ⟨rfl, hne, hlen, hlabels⟩
    rw [if_neg (by push Not; exact ⟨hne, hlen⟩), if_pos hlabels]

theorem mem_intercalate {x c : Char} {ls : List Str} (h : c ∈ [x].intercalate ls) : c = x ∨ ∃ l ∈ ls, c ∈ l := by
  induction ls with
  | nil => cases h
  | cons l ls ih =>
    cases ls with
    | nil => exact Or.inr ⟨l, List.mem_cons_self, by simpa using h⟩
    | cons l' ls =>
      rw [List.intercalate_cons_cons, List.mem_append, List.mem_append, List.mem_singleton] at h
      rcases h with (h | h) | h
      · exact Or.inr ⟨l, List.mem_cons_self, h⟩
      · exact Or.inl h
      · exact (ih h).imp_right fun ⟨k, hk, hc⟩ => ⟨k, List.mem_cons_of_mem _ hk, hc⟩

theorem name_host {v d : Str} (h : name v = some d) : ∀ c ∈ d, hostChar c = true := by
  intro c hc
  obtain ⟨-, -, -, hlabels⟩ := name_eq_some.1 h
  rw [← @List.intercalate_splitOn _ d _ _ '.'] at hc
  rcases mem_intercalate hc with rfl | ⟨l, hl, hcl⟩
  · rfl
  · have hgood := List.all_eq_true.1 hlabels l hl
    simp only [goodLabel, Bool.and_eq_true, List.all_eq_true] at hgood
    simp [hostChar, hgood.2 c hcl]

/-- The last label is not empty. -/
theorem name_last {v d : Str} (h : name v = some d) : d.getLast? ≠ some '.' := by
  intro hlast
  obtain ⟨-, -, -, hlabels⟩ := name_eq_some.1 h
  obtain ⟨u, rfl⟩ := List.getLast?_eq_some_iff.1 hlast
  have hmem : [] ∈ splitDots (u ++ ['.']) := by
    rw [splitDots, List.splitOn_append_cons_self]
    exact List.mem_append_right _ (by simp)
  have hgood := List.all_eq_true.1 hlabels [] hmem
  simp [goodLabel] at hgood

theorem trimStar_host {d : Str} (hd : ∀ c ∈ d, hostChar c = true) : trimStar d = d := by
  unfold trimStar cutPrefix
  split
  · rename_i hstar
    cases d with
    | nil => simp at hstar
    | cons c cs =>
      obtain ⟨rfl, -⟩ : '*' = c ∧ _ := by simpa [List.isPrefixOf] using hstar
      exact absurd (hd '*' List.mem_cons_self) (by decide)
  · rfl

/-- **`name` leaves a name it has returned as it is.** -/
theorem name_name {v d : Str} (h : name v = some d) : name d = some d := by
  have hhost := name_host h
  obtain ⟨-, hne, hlen, hlabels⟩ := name_eq_some.1 h
  refine name_eq_some.2 ⟨?_, hne, hlen, hlabels⟩
  rw [trimSpaces_host hhost, lower_host hhost, trimDot, if_neg (name_last h), trimStar_host hhost]

/-- A name that has been normalized, fully qualified as the cache does it. -/
theorem fqdn_name {v d : Str} (h : name v = some d) : lower (fqdn (trimSpace d)) = d ++ ['.'] := by
  have hhost := name_host h
  have hnot : isFqdn d = false := by
    unfold isFqdn
    split
    · rename_i r hr
      refine absurd ?_ (name_last h)
      rw [List.getLast?_eq_head?_reverse, hr]
      rfl
    · rfl
  rw [trimSpace_host hhost, fqdn, hnot, if_neg Bool.false_ne_true, lower_append, lower_host hhost]
  rfl

end Velora.Filtering
