import Velora.Filtering.Matcher
import Velora.Wire.Present
import Velora.Dns.Levels

/-!
# Queries for unusual names

The name of a query reaches the matcher through the check that rules have to pass, and a name that fails it is not blocked,
whatever the rules say about the domains above it. `blocked_present_iff` states the names of the wire for which a blocking
rule does what it says: those that are host names, and those that are one below the label `*`, as long as no rule allows the
rest of the name. A name that is blocked is never sent upstream.
-/

namespace Velora.Filtering

open Velora.Lib Velora.Lib.Text Velora.Lib.Ip Velora.Wire Velora.Dns
open Velora.Zones (byteLen labelChar)

/-- The text of a label, in lower case. -/
def labelText (l : List UInt8) : Str := lower (l.map byteChar)

/-- All labels are those of a host name. -/
def Plain (labels : List (List UInt8)) : Prop := ∀ l ∈ labels, goodLabel (labelText l) = true

instance (labels : List (List UInt8)) : Decidable (Plain labels) := by unfold Plain; infer_instance

/-- The rule covers a name of the wire: the labels of its domain are those of the name, or, for a wildcard rule, the last
of them. -/
def Rule.CoversName (r : Rule) (labels : List (List UInt8)) : Prop :=
  ∃ d, name r.domain = some d ∧
    ∃ back, back <:+ labels ∧ (back = labels ∨ r.wild = true) ∧ back.map labelText = splitDots d

/-! ### The text of a name -/

/-- The presentation form in lower case, without the last dot. -/
def shown (labels : List (List UInt8)) : Str := ['.'].intercalate (labels.map (fun l => lower (presentLabel l)))

theorem isSpaceRune_byte {b : UInt8} (h : plainByte b = true) : isSpaceRune (byteChar b) = false := by
  have hn := byteChar_toNat b
  simp only [plainByte, special, Bool.and_eq_true, Bool.not_eq_true', decide_eq_true_eq, List.mem_cons, List.not_mem_nil,
    or_false, decide_eq_false_iff_not, not_or] at h
  simp only [isSpaceRune, isSpace, hn, Bool.or_eq_false_iff, Bool.and_eq_false_iff, decide_eq_false_iff_not,
    beq_eq_false_iff_ne, List.mem_cons, List.not_mem_nil, not_or, not_false_eq_true, and_true]
  omega

theorem dropWhile_head {p : Char → Bool} {s : Str} (h : ∀ c, s.head? = some c → p c = false) : s.dropWhile p = s := by
  cases s with
  | nil => rfl
  | cons c cs => rw [List.dropWhile_cons_of_neg (by simp [h c rfl])]

theorem head_intercalate {x : Char} {l : Str} {ls : List Str} (hl : l ≠ []) :
    ([x].intercalate (l :: ls)).head? = l.head? := by
  cases ls with
  | nil => simp
  | cons l' ls =>
    obtain ⟨c, cs, rfl⟩ := List.exists_cons_of_ne_nil hl
    rw [List.intercalate_cons_cons]
    rfl

theorem presentLabel_ne_nil {l : List UInt8} (h : l ≠ []) : presentLabel l ≠ [] := by
  obtain ⟨b, bs, rfl⟩ := List.exists_cons_of_ne_nil h
  cases hb : plainByte b with
  | true => simp [presentLabel, presentByte_plain hb]
  | false =>
    obtain ⟨r, hr⟩ := presentByte_escape hb
    simp [presentLabel, hr]

section

variable {labels : List (List UInt8)} (hbounds : ∀ l ∈ labels, l ≠ []) (hne : labels ≠ [])

include hbounds hne

/-- What `name` makes of a name of the wire before it checks it. -/
theorem trimmed_present : trimDot (lower (trimSpaces (present labels))) = shown labels := by
  have hpres : present labels = ['.'].intercalate (labels.map presentLabel) ++ ['.'] := by
    rw [present, if_neg hne, joinLabels]
  have hspaces : trimSpaces (present labels) = present labels := by
    have hhead : ∀ c, (present labels).head? = some c → isSpaceRune c = false := by
      intro c hc
      obtain ⟨l, ls, rfl⟩ := List.exists_cons_of_ne_nil hne
      have hl : presentLabel l ≠ [] := presentLabel_ne_nil (hbounds l List.mem_cons_self)
      obtain ⟨y, ys, hy⟩ := List.exists_cons_of_ne_nil hl
      have hfirst : (present (l :: ls)).head? = (presentLabel l).head? := by
        have hi := @head_intercalate '.' (presentLabel l) (ls.map presentLabel) hl
        rw [hy] at hi ⊢
        rw [hpres, List.map_cons, List.head?_append, hy, hi]
        rfl
      rw [hfirst] at hc
      rcases head_presentLabel hc with rfl | ⟨b, hb, rfl⟩
      · decide
      · exact isSpaceRune_byte hb
    have hlast : ∀ c, (present labels).reverse.head? = some c → isSpaceRune c = false := by
      intro c hc
      rw [hpres, List.reverse_append] at hc
      cases hc
      decide
    unfold trimSpaces
    rw [dropWhile_head hhead, dropWhile_head hlast, List.reverse_reverse]
  rw [hspaces, hpres, lower_append, lower_intercalate '.' _ (by decide), List.map_map]
  have hdot : lower ['.'] = ['.'] := by decide
  rw [hdot, trimDot, if_pos (by simp), List.dropLast_concat]
  rfl

end

/-! ### Names that are accepted -/

/-- The bytes of a host name stand for themselves. -/
theorem plainByte_host {b : UInt8} (h : hostChar (lowerChar (byteChar b)) = true) (hdot : byteChar b ≠ '.') :
    plainByte b = true := by
  have hb := byteChar_toNat b
  have hn : ∀ c : Char, hostChar c = true → c ≠ '.' →
      (97 ≤ c.toNat ∧ c.toNat ≤ 122) ∨ (48 ≤ c.toNat ∧ c.toNat ≤ 57) ∨ c.toNat = 45 ∨ c.toNat = 95 := by
    intro c hc hne
    have h46 : c.toNat ≠ 46 := fun h46 => hne (Char.toNat_inj.1 h46)
    have hrange := hostChar_toNat hc
    omega
  have hlower : ∀ c : Char, c.toNat < 256 → c ≠ '.' → hostChar (lowerChar c) = true →
      (97 ≤ c.toNat ∧ c.toNat ≤ 122) ∨ (48 ≤ c.toNat ∧ c.toNat ≤ 57) ∨ c.toNat = 45 ∨ c.toNat = 95 ∨
        (65 ≤ c.toNat ∧ c.toNat ≤ 90) := by
    intro c hc hne hhost
    unfold lowerChar at hhost
    rw [if_neg (by omega), if_neg (by omega)] at hhost
    by_cases hu : c.isUpper = true
    · simp only [Char.isUpper, ge_iff_le, decide_eq_true_eq] at hu
      exact Or.inr (Or.inr (Or.inr (Or.inr ⟨UInt32.le_iff_toNat_le.1 hu.1, UInt32.le_iff_toNat_le.1 hu.2⟩)))
    · rw [Char.toLower_eq_of_not_isUpper hu] at hhost
      have hrange := hn c hhost hne
      omega
  have hlt := b.toNat_lt
  have hrange := hlower _ (by omega) hdot h
  rw [hb] at hrange
  simp only [plainByte, special, Bool.and_eq_true, Bool.not_eq_true', decide_eq_true_eq, List.mem_cons, List.not_mem_nil,
    or_false, decide_eq_false_iff_not, not_or]
  omega

theorem dot_notMem_labelText {l : List UInt8} (h : ∀ b ∈ l, plainByte b = true) : '.' ∉ labelText l := by
  intro hdot
  obtain ⟨c, hc, hlow⟩ := List.mem_map.1 hdot
  obtain ⟨b, hb, rfl⟩ := List.mem_map.1 hc
  have heq := lowerChar_eq hlow (by decide)
  have hb46 := byteChar_toNat b
  rw [heq] at hb46
  have hplain := h b hb
  simp only [plainByte, special, ← hb46] at hplain
  revert hplain
  decide

/-- A name of bytes that stand for themselves is the text of its labels. -/
theorem shown_plain {labels : List (List UInt8)} (h : ∀ l ∈ labels, ∀ b ∈ l, plainByte b = true) :
    shown labels = ['.'].intercalate (labels.map labelText) := by
  unfold shown
  rw [List.map_congr_left fun l hl => by rw [presentLabel_plain (h l hl)]]
  rfl

theorem splitDots_shown {labels : List (List UInt8)} (hne : labels ≠ []) (h : ∀ l ∈ labels, ∀ b ∈ l, plainByte b = true) :
    splitDots (shown labels) = labels.map labelText := by
  rw [shown_plain h]
  refine List.splitOn_intercalate '.' ?_ (by simpa using hne)
  intro t ht
  obtain ⟨l, hl, rfl⟩ := List.mem_map.1 ht
  exact dot_notMem_labelText (h l hl)

/-- A name without a backslash has only bytes that stand for themselves. -/
theorem plain_of_shown {labels : List (List UInt8)} (h : '\\' ∉ shown labels) : ∀ l ∈ labels, ∀ b ∈ l, plainByte b = true := by
  intro l hl b hb
  by_contra hno
  obtain ⟨r, hr⟩ := presentByte_escape (Bool.eq_false_iff.2 hno)
  have hmem : '\\' ∈ lower (presentLabel l) := by
    refine List.mem_map.2 ⟨'\\', ?_, by decide⟩
    exact List.mem_flatMap.2 ⟨b, hb, hr ▸ List.mem_cons_self⟩
  refine h ?_
  obtain ⟨front, back, rfl⟩ := List.append_of_mem hl
  have hback : '\\' ∈ ['.'].intercalate ((l :: back).map fun l => lower (presentLabel l)) := by
    cases back with
    | nil => simpa using hmem
    | cons l' back =>
      rw [List.map_cons, List.map_cons, List.intercalate_cons_cons]
      simp [hmem]
  by_cases hfront : front = []
  · subst hfront
    exact hback
  · unfold shown
    rw [List.map_append, intercalate_append (by simpa using hfront) (by simp)]
    exact List.mem_append_right _ (List.mem_cons_of_mem _ hback)

theorem plain_bytes {labels : List (List UInt8)} (h : Plain labels) : ∀ l ∈ labels, ∀ b ∈ l, plainByte b = true := by
  intro l hl b hb
  have hgood := h l hl
  simp only [goodLabel, Bool.and_eq_true, List.all_eq_true] at hgood
  have hc : labelChar (lowerChar (byteChar b)) = true := hgood.2 _ (List.mem_map_of_mem (List.mem_map_of_mem hb))
  refine plainByte_host (by simp [hostChar, hc]) fun hdot => ?_
  rw [hdot] at hc
  revert hc
  decide

theorem shown_host {labels : List (List UInt8)} (h : Plain labels) : ∀ c ∈ shown labels, hostChar c = true := by
  intro c hc
  rw [shown_plain (plain_bytes h)] at hc
  rcases mem_intercalate hc with rfl | ⟨t, ht, hct⟩
  · rfl
  · obtain ⟨l, hl, rfl⟩ := List.mem_map.1 ht
    have hgood := h l hl
    simp only [goodLabel, Bool.and_eq_true, List.all_eq_true] at hgood
    simp [hostChar, hgood.2 c hct]

theorem byteLen_host {s : Str} (h : ∀ c ∈ s, hostChar c = true) : byteLen s = s.length := by
  have hone : ∀ c ∈ s, c.utf8Size = 1 := by
    intro c hc
    have hn := hostChar_toNat (h c hc)
    rw [Char.utf8Size_eq_one_iff, UInt32.le_iff_toNat_le]
    show c.toNat ≤ 127
    omega
  unfold byteLen
  rw [List.map_congr_left hone]
  simp

theorem length_shown {labels : List (List UInt8)} (h : ∀ l ∈ labels, ∀ b ∈ l, plainByte b = true) (hne : labels ≠ []) :
    (shown labels).length + 1 = (labels.map (fun l => l.length + 1)).sum := by
  rw [shown_plain h]
  clear h
  induction labels with
  | nil => exact absurd rfl hne
  | cons l ls ih =>
    cases ls with
    | nil => simp [labelText, lower]
    | cons l' ls =>
      have hrest := ih (by simp)
      rw [List.map_cons, List.map_cons, List.intercalate_cons_cons, List.map_cons, List.sum_cons, ← List.map_cons, ← hrest]
      simp only [List.length_append, labelText, lower, List.length_map, List.length_singleton]
      omega

/-- The label `*`. -/
def star : List UInt8 := [42]

theorem star_of_labelText {l : List UInt8} (h : labelText l = ['*']) : l = star := by
  cases l with
  | nil => cases h
  | cons b bs =>
    injection h with h1 h2
    have hb : byteChar b = byteChar 42 := (lowerChar_eq h1 (by decide)).trans (by decide)
    have hbs : bs = [] := by simpa [lower] using h2
    rw [hbs, byteChar_inj hb]
    rfl

/-- The check of `name` on a text that has been trimmed. -/
theorem check_shown {labels : List (List UInt8)} (hne : labels ≠ []) (h : Plain labels)
    (hshort : (labels.map (fun l => l.length + 1)).sum ≤ 254) :
    shown labels ≠ [] ∧ byteLen (shown labels) ≤ 253 ∧ (splitDots (shown labels)).all goodLabel = true := by
  have hsplit := splitDots_shown hne (plain_bytes h)
  have hlen := length_shown (plain_bytes h) hne
  refine ⟨?_, ?_, ?_⟩
  · intro hnil
    rw [hnil] at hsplit
    obtain ⟨l, ls, rfl⟩ := List.exists_cons_of_ne_nil hne
    have hl : labelText l = [] := by
      injection hsplit with h1 h2
      exact h1.symm
    have hgood := h l List.mem_cons_self
    rw [hl] at hgood
    cases hgood
  · rw [byteLen_host (shown_host h)]
    omega
  · rw [hsplit, List.all_eq_true]
    intro t ht
    obtain ⟨l, hl, rfl⟩ := List.mem_map.1 ht
    exact h l hl

/-- **The names of the wire that `NormalizeDomain` accepts**: host names, and those below the label `*`, which it drops. -/
theorem name_present {w : WireName} {n : Str} : name (present w.labels) = some n ↔
    (w.labels ≠ [] ∧ Plain w.labels ∧ n = shown w.labels) ∨
      ∃ rest, w.labels = star :: rest ∧ rest ≠ [] ∧ Plain rest ∧ n = shown rest := by
  obtain ⟨labels, hbounds, hshort⟩ := w
  dsimp only
  by_cases hne : labels = []
  · subst hne
    have hroot : name (present []) = none := by decide
    simp [hroot]
  have hnil : ∀ l ∈ labels, l ≠ [] := by
    rintro l hl rfl
    have hlen := (hbounds [] hl).1
    simp at hlen
  rw [name_eq_some, trimmed_present hnil hne]
  constructor
  · rintro ⟨htrim, hn, hlen, hgood⟩
    have hhost : ∀ c ∈ n, hostChar c = true := by
      have hself : name n = some n := by
        refine name_name (v := present labels) (name_eq_some.2 ⟨?_, hn, hlen, hgood⟩)
        rw [trimmed_present hnil hne, htrim]
      exact name_host hself
    -- what the prefix leaves has no backslash, so neither has the whole text
    have hshown : shown labels = n ∨ shown labels = '*' :: '.' :: n := by
      unfold trimStar cutPrefix at htrim
      split at htrim
      · rename_i hpre
        obtain ⟨t, ht⟩ := List.isPrefixOf_iff_prefix.1 hpre
        right
        rw [← ht] at htrim ⊢
        rw [← htrim]
        rfl
      · exact Or.inl htrim
    have hslash : '\\' ∉ shown labels := by
      intro hmem
      rcases hshown with h | h
      · rw [h] at hmem
        exact absurd (hhost _ hmem) (by decide)
      · rw [h] at hmem
        have hmem' : '\\' ∈ n := by simpa using hmem
        exact absurd (hhost _ hmem') (by decide)
    have hplain := plain_of_shown hslash
    have hsplit := splitDots_shown hne hplain
    have hall : ∀ t ∈ splitDots n, goodLabel t = true := List.all_eq_true.1 hgood
    rcases hshown with h | h
    · refine Or.inl ⟨hne, fun l hl => hall _ ?_, h.symm⟩
      rw [← h, hsplit]
      exact List.mem_map_of_mem hl
    · have hcut : splitDots (shown labels) = ['*'] :: splitDots n := by
        rw [h]
        exact List.splitOn_append_cons_self ['*'] n
      rw [hsplit] at hcut
      obtain ⟨l, rest, rfl⟩ := List.exists_cons_of_ne_nil hne
      rw [List.map_cons] at hcut
      injection hcut with h1 h2
      have hrest : rest ≠ [] := by
        rintro rfl
        exact List.splitOn_ne_nil '.' n h2.symm
      have hpr : Plain rest := by
        intro x hx
        refine hall _ ?_
        rw [← h2]
        exact List.mem_map_of_mem hx
      refine Or.inr ⟨rest, by rw [star_of_labelText h1], hrest, hpr, ?_⟩
      rw [shown_plain (plain_bytes hpr), h2]
      exact (List.intercalate_splitOn '.').symm
  · rintro (⟨-, hplain, rfl⟩ | ⟨rest, rfl, hrest, hplain, rfl⟩)
    · exact ⟨trimStar_host (shown_host hplain), check_shown hne hplain (by omega)⟩
    · rw [List.map_cons, List.sum_cons] at hshort
      refine ⟨?_, check_shown hrest hplain (by omega)⟩
      obtain ⟨l, ls, rfl⟩ := List.exists_cons_of_ne_nil hrest
      have hshow : shown (star :: l :: ls) = '*' :: '.' :: shown (l :: ls) := by
        have hlabel : lower (presentLabel star) = ['*'] := by decide
        unfold shown
        rw [List.map_cons, List.map_cons, List.intercalate_cons_cons, hlabel]
        rfl
      rw [hshow, trimStar, cutPrefix, if_pos (by simp [List.isPrefixOf])]
      rfl

/-! ### What the rules cover -/

theorem splitDots_below {n d : Str} : Below n d ↔ splitDots d <:+ splitDots n := by
  constructor
  · rintro (rfl | ⟨l, rfl⟩)
    · exact List.suffix_rfl
    · exact ⟨splitDots l, (List.splitOn_append_cons_self l d).symm⟩
  · rintro ⟨front, hfront⟩
    have hjoin : n = ['.'].intercalate (front ++ splitDots d) := by
      rw [hfront]
      exact (List.intercalate_splitOn '.').symm
    have hd : ['.'].intercalate (splitDots d) = d := List.intercalate_splitOn '.'
    have hnil : splitDots d ≠ [] := List.splitOn_ne_nil '.' d
    by_cases hf : front = []
    · subst hf
      rw [List.nil_append, hd] at hjoin
      exact Or.inl hjoin
    · rw [intercalate_append hf hnil, hd] at hjoin
      exact Or.inr ⟨_, hjoin⟩

/-- A rule covers the text of a name exactly when it covers the name. -/
theorem covers_shown {labels : List (List UInt8)} (hne : labels ≠ []) (h : Plain labels) (r : Rule) :
    r.Covers (shown labels) ↔ r.CoversName labels := by
  have hsplit := splitDots_shown hne (plain_bytes h)
  have hsame : ∀ d, shown labels = d ↔ labels.map labelText = splitDots d := by
    intro d
    rw [← hsplit]
    refine ⟨congrArg splitDots, fun heq => ?_⟩
    have hjoin := congrArg (['.'].intercalate) heq
    rwa [splitDots, splitDots, List.intercalate_splitOn, List.intercalate_splitOn] at hjoin
  unfold Rule.Covers Rule.CoversName
  refine exists_congr fun d => and_congr_right fun _ => ?_
  rw [hsame, splitDots_below, hsplit]
  constructor
  · rintro (heq | ⟨hwild, front, hfront⟩)
    · exact ⟨labels, List.suffix_rfl, Or.inl rfl, heq⟩
    · refine ⟨labels.drop front.length, List.drop_suffix _ _, Or.inr hwild, ?_⟩
      rw [List.map_drop, ← hfront, List.drop_left]
  · rintro ⟨back, hback, rfl | hwild, heq⟩
    · exact Or.inl heq
    · refine Or.inr ⟨hwild, ?_⟩
      rw [← heq]
      exact List.IsSuffix.map labelText hback

/-- A rule says nothing about the label `*`: its domain lies in the labels below. -/
theorem covers_star {rest : List (List UInt8)} {r : Rule} (h : r.CoversName (star :: rest)) :
    r.wild = true ∧ r.CoversName rest := by
  obtain ⟨d, hd, back, hback, hkind, heq⟩ := h
  have hno : back ≠ star :: rest := by
    rintro rfl
    have hmem : ['*'] ∈ splitDots d := by
      rw [← heq]
      exact List.mem_cons_self
    obtain ⟨-, -, -, hgood⟩ := name_eq_some.1 hd
    have hstar := List.all_eq_true.1 hgood _ hmem
    revert hstar
    decide
  have hwild : r.wild = true := hkind.resolve_left hno
  refine ⟨hwild, d, hd, back, ?_, Or.inr hwild, heq⟩
  exact (List.suffix_cons_iff.1 hback).resolve_left hno

/-- **The names a blocking rule reaches**: all labels are those of a host name, or the first one is `*`, the others are those
of a host name and no allowing rule covers them. -/
def Reached (rules : List Rule) (labels : List (List UInt8)) : Prop :=
  Plain labels ∨ ∃ rest, labels = star :: rest ∧ Plain rest ∧ ¬ ∃ r ∈ rules, r.action = .allow ∧ r.CoversName rest

/-- What is blocked of the names that a blocking wildcard rule covers and no allowing rule does. -/
theorem blocked_present_iff {rules : List Rule} {m : Matcher} (h : new rules = some m) {w : WireName}
    (hblock : ∃ r ∈ rules, r.action = .block ∧ r.CoversName w.labels)
    (hallow : ¬ ∃ r ∈ rules, r.action = .allow ∧ r.CoversName w.labels) :
    m.blocked (present w.labels) = true ↔ Reached rules w.labels := by
  obtain ⟨b, hb, hbb, hbc⟩ := hblock
  have hne : ∀ labels : List (List UInt8), b.CoversName labels → labels ≠ [] := by
    rintro labels ⟨d, -, back, hback, -, heq⟩ rfl
    rw [List.suffix_nil.1 hback] at heq
    exact List.splitOn_ne_nil '.' d heq.symm
  constructor
  · intro hblocked
    cases hn : name (present w.labels) with
    | none =>
      rw [blocked_none hn] at hblocked
      cases hblocked
    | some n =>
      obtain ⟨-, hno⟩ := (blocked_iff h hn).1 hblocked
      rcases name_present.1 hn with ⟨-, hplain, -⟩ | ⟨rest, heq, hrest, hplain, rfl⟩
      · exact Or.inl hplain
      · refine Or.inr ⟨rest, heq, hplain, ?_⟩
        rintro ⟨r, hr, ha, hc⟩
        exact hno ⟨r, hr, ha, (covers_shown hrest hplain r).2 hc⟩
  · rintro (hplain | ⟨rest, heq, hplain, hno⟩)
    · have hnil := hne _ hbc
      have hn : name (present w.labels) = some (shown w.labels) := name_present.2 (Or.inl ⟨hnil, hplain, rfl⟩)
      refine (blocked_iff h hn).2 ⟨⟨b, hb, hbb, (covers_shown hnil hplain b).2 hbc⟩, ?_⟩
      rintro ⟨r, hr, ha, hc⟩
      exact hallow ⟨r, hr, ha, (covers_shown hnil hplain r).1 hc⟩
    · rw [heq] at hbc
      obtain ⟨-, hbr⟩ := covers_star hbc
      have hnil := hne _ hbr
      have hn : name (present w.labels) = some (shown rest) := name_present.2 (Or.inr ⟨rest, heq, hnil, hplain, rfl⟩)
      refine (blocked_iff h hn).2 ⟨⟨b, hb, hbb, (covers_shown hnil hplain b).2 hbr⟩, ?_⟩
      rintro ⟨r, hr, ha, hc⟩
      exact hno ⟨r, hr, ha, (covers_shown hnil hplain r).1 hc⟩

/-! ### What goes upstream -/

/-- The resolver sends no query for a blocked name upstream. -/
theorem resolve_blocked {σ : Type} (lib : Miekg) (env : Env σ) {r : Resolver σ} {ctx : Ctx σ} {q : Msg} (st : State σ)
    (h : r.asksBlocked ctx q = true) : (r.resolve lib env ctx q st).2.world = st.world := by
  rw [Resolver.resolve, Resolver.resolveAt_real rfl, h]
  split
  · rfl
  · rfl

/-- **No filter bypass.** Of a name that a blocking wildcard rule covers and no allowing rule does, the queries are blocked,
and so never sent upstream, exactly when the name is one the rules reach. -/
theorem no_bypass {rules : List Rule} {m : Matcher} (h : new rules = some m) (w : WireName)
    (hblock : ∃ r ∈ rules, r.action = .block ∧ r.wild = true ∧ r.CoversName w.labels)
    (hallow : ¬ ∃ r ∈ rules, r.action = .allow ∧ r.CoversName w.labels) :
    (m.blocked (present w.labels) = true ∧
      ∀ (σ : Type) (lib : Miekg) (env : Env σ) (r : Resolver σ) (ctx : Ctx σ) (q : Msg) (st : State σ),
        (∀ n, r.blockedName ctx n = m.blocked n) → q.question.length = 1 → q.question0.name = present w.labels →
        (r.resolve lib env ctx q st).2.world = st.world) ↔ Reached rules w.labels := by
  obtain ⟨b, hb, hbb, -, hbc⟩ := hblock
  rw [← blocked_present_iff h ⟨b, hb, hbb, hbc⟩ hallow]
  refine ⟨fun hboth => hboth.1, fun hblocked => ⟨hblocked, ?_⟩⟩
  intro σ lib env r ctx q st hfilter hone hname
  refine resolve_blocked lib env st ?_
  rw [Resolver.asksBlocked, hone, hfilter, hname, hblocked]
  rfl

/-- One blocking rule. -/
def blockAds : List Rule := [⟨"ads.example".toList, true, .block⟩]

/-- The bytes of a label that is given as text. -/
def label (s : String) : List UInt8 := s.toList.map (fun c => UInt8.ofNat c.toNat)

/-- `-a.ads.example.` -/
def hyphenName : WireName where
  labels := [label "-a", label "ads", label "example"]
  bounds := by decide
  short := by decide

/-- A resolver with the filter, and a query for a name. -/
def filtered (m : Matcher) : Resolver Unit where
  blockMode := "NXDOMAIN"
  local' := none
  filter := some { blocked := m.blocked }
  forwarder := ⟨none, { upstreams := ["192.0.2.53:53".toList], retries := 0 }⟩

def queryFor (w : WireName) : Msg := setQuestion 7 (present w.labels) typeA

/-- A name with a hyphen at the edge of a label goes upstream, whatever the rules say about the domain above it. -/
theorem hyphen_bypass : ∃ m, new blockAds = some m ∧
    (∃ r ∈ blockAds, r.action = .block ∧ r.wild = true ∧ r.CoversName hyphenName.labels) ∧
    (¬ ∃ r ∈ blockAds, r.action = .allow ∧ r.CoversName hyphenName.labels) ∧
    m.blocked (present hyphenName.labels) = false ∧
    ((filtered m).resolve Home.lib Home.env Home.ctx (queryFor hyphenName) Home.start).2.world.asked =
      [queryFor hyphenName] := by
  obtain ⟨m, hm⟩ := Option.isSome_iff_exists.1 (show (new blockAds).isSome from by decide +kernel)
  have hrun : (new blockAds).all (fun m => !m.blocked (present hyphenName.labels) &&
      ((filtered m).resolve Home.lib Home.env Home.ctx (queryFor hyphenName) Home.start).2.world.asked =
        [queryFor hyphenName]) = true := by
    decide +kernel
  rw [hm, Option.all_some, Bool.and_eq_true] at hrun
  obtain ⟨hno, hasked⟩ := hrun
  refine ⟨m, hm, ⟨_, List.mem_cons_self, rfl, by decide +kernel, ?_⟩, by simp [blockAds], by simpa using hno,
    by simpa using hasked⟩
  exact ⟨"ads.example".toList, by decide +kernel, [label "ads", label "example"], ⟨[label "-a"], rfl⟩,
    Or.inr (by decide +kernel), by decide +kernel⟩

/-- `a.ads.example.` -/
def plainName : WireName where
  labels := [label "a", label "ads", label "example"]
  bounds := by decide
  short := by decide

theorem no_bypass_ads : ∃ m, new blockAds = some m ∧ m.blocked (present plainName.labels) = true ∧
    ((filtered m).resolve Home.lib Home.env Home.ctx (queryFor plainName) Home.start).2.world = Home.start.world := by
  obtain ⟨m, hm⟩ := Option.isSome_iff_exists.1 (show (new blockAds).isSome from by decide +kernel)
  have hblock : ∃ r ∈ blockAds, r.action = .block ∧ r.wild = true ∧ r.CoversName plainName.labels :=
    ⟨_, List.mem_cons_self, rfl, by decide +kernel, "ads.example".toList, by decide +kernel,
      [label "ads", label "example"], ⟨[label "a"], rfl⟩, Or.inr (by decide +kernel), by decide +kernel⟩
  have hboth := (no_bypass hm plainName hblock (by simp [blockAds])).2 (Or.inl (by decide +kernel))
  exact ⟨m, hm, hboth.1, hboth.2 Unit Home.lib Home.env (filtered m) Home.ctx (queryFor plainName) Home.start
    (fun _ => rfl) rfl rfl⟩

end Velora.Filtering
