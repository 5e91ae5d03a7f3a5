import Velora.Filtering.Names
import Velora.Wire.Suffix
import Velora.Zones.Accept

/-!
# The labels of host names

The names that `domain` returns are the texts of labels that need no escapes (`domain_host`). On them the text and the labels
agree: `IsSubDomain` is the order of the name tree (`isSubDomain_dotted`), and the names from an owner up to its zone are those
between the two (`mem_above`).
-/

namespace Velora.Zones

open Velora.Lib Velora.Lib.Text Velora.Lib.Loops Velora.Wire Velora.Dns
open Velora.Lib.Ip (splitDots)

/-- The labels of a host name. -/
structure Host (ls : List (List UInt8)) : Prop where
  ne_nil : ls ≠ []
  filled : [] ∉ ls
  plain : ∀ l ∈ ls, ∀ b ∈ l, plainByte b = true ∧ lowerByte b = b

theorem Host.folded {ls : List (List UInt8)} (h : Host ls) : folded ls = ls := by
  have hbytes : ∀ l ∈ ls, l.map lowerByte = l := by
    intro l hl
    conv_rhs => rw [← List.map_id l]
    exact List.map_congr_left fun b hb => (h.plain l hl b hb).2
  unfold Wire.folded
  conv_rhs => rw [← List.map_id ls]
  exact List.map_congr_left hbytes

theorem Host.suffix {ls t : List (List UInt8)} (h : Host ls) (ht : t <:+ ls) (hne : t ≠ []) : Host t where
  ne_nil := hne
  filled := fun hmem => h.filled (ht.subset hmem)
  plain := fun l hl => h.plain l (ht.subset hl)

theorem Host.no_dot {ls : List (List UInt8)} (h : Host ls) : ∀ l ∈ ls, 46 ∉ l := by
  intro l hl hdot
  have hplain := (h.plain l hl 46 hdot).1
  revert hplain
  decide

/-! ### The names that are accepted -/

/-- The bytes of a text of ASCII. -/
def labelBytes (p : Str) : List UInt8 := p.map (fun c => UInt8.ofNat c.toNat)

theorem byte_of_labelChar {c : Char} (h : labelChar c = true) :
    byteChar (UInt8.ofNat c.toNat) = c ∧ plainByte (UInt8.ofNat c.toNat) = true ∧
      lowerByte (UInt8.ofNat c.toNat) = UInt8.ofNat c.toNat := by
  have hdot : c ≠ '.' := by
    rintro rfl
    revert h
    decide
  have hn := Filtering.hostChar_toNat (c := c) (by simp [Filtering.hostChar, h])
  have h46 : c.toNat ≠ 46 := fun h46 => hdot (Char.toNat_inj.1 h46)
  have hb : (UInt8.ofNat c.toNat).toNat = c.toNat := by
    rw [UInt8.toNat_ofNat']
    omega
  refine ⟨?_, ?_, ?_⟩
  · exact Char.toNat_inj.1 ((byteChar_toNat _).trans hb)
  · simp only [plainByte, special, hb, Bool.and_eq_true, Bool.not_eq_true', decide_eq_true_eq, List.mem_cons,
      List.not_mem_nil, or_false, decide_eq_false_iff_not, not_or]
    omega
  · rw [lowerByte, if_neg (by rw [hb]; omega)]

theorem presentLabel_labelBytes {p : Str} (h : ∀ c ∈ p, labelChar c = true) : presentLabel (labelBytes p) = p := by
  have hplain : ∀ b ∈ labelBytes p, plainByte b = true := by
    intro b hb
    obtain ⟨c, hc, rfl⟩ := List.mem_map.1 hb
    exact (byte_of_labelChar (h c hc)).2.1
  rw [presentLabel_plain hplain, labelBytes, List.map_map]
  conv_rhs => rw [← List.map_id p]
  exact List.map_congr_left fun c hc => (byte_of_labelChar (h c hc)).1

theorem checkLabel_ok {p : Str} (h : checkLabel p = .ok ()) : p ≠ [] ∧ ∀ c ∈ p, labelChar c = true := by
  unfold checkLabel at h
  split at h
  · cases h
  · rename_i hshape
    split at h
    · rename_i hall
      exact ⟨fun hnil => hshape (Or.inl hnil), List.all_eq_true.1 hall⟩
    · cases h

theorem forM_checkLabel {ps : List Str} (h : ps.forM checkLabel = .ok ()) : ∀ p ∈ ps, checkLabel p = .ok () := by
  induction ps with
  | nil => simp
  | cons p ps ih =>
    obtain ⟨⟨⟩, hp, hps⟩ := bind_eq_ok.1 h
    intro x hx
    rcases List.mem_cons.1 hx with rfl | hx
    · exact hp
    · exact ih hps x hx

/-- **A name that is accepted is the text of some labels.** -/
theorem domain_host {value name : Str} (h : domain value = .ok name) : ∃ ls, Host ls ∧ name = dotted ls := by
  obtain ⟨hlen, hlabels, rfl⟩ := domain_eq_ok.1 h
  generalize lower (trimDot value) = v at *
  have hchecked : ∀ p ∈ splitDots v, p ≠ [] ∧ ∀ c ∈ p, labelChar c = true := fun p hp =>
    checkLabel_ok (forM_checkLabel hlabels p hp)
  have hne : (splitDots v).map labelBytes ≠ [] := fun h => List.splitOn_ne_nil '.' v (List.map_eq_nil_iff.1 h)
  refine ⟨(splitDots v).map labelBytes, ⟨hne, ?_, ?_⟩, ?_⟩
  · intro hmem
    obtain ⟨p, hp, hnil⟩ := List.mem_map.1 hmem
    exact (hchecked p hp).1 (List.map_eq_nil_iff.1 hnil)
  · intro l hl b hb
    obtain ⟨p, hp, rfl⟩ := List.mem_map.1 hl
    obtain ⟨c, hc, rfl⟩ := List.mem_map.1 hb
    exact (byte_of_labelChar ((hchecked p hp).2 c hc)).2
  · rw [← present_eq_dotted hne, present, if_neg hne, joinLabels, List.map_map]
    have hid : (splitDots v).map (presentLabel ∘ labelBytes) = splitDots v := by
      conv_rhs => rw [← List.map_id (splitDots v)]
      exact List.map_congr_left fun p hp => presentLabel_labelBytes (hchecked p hp).2
    rw [hid, splitDots, List.intercalate_splitOn]

/-! ### The name tree -/

theorem notMem_presentLabel {l : List UInt8} (h : ∀ b ∈ l, plainByte b = true) :
    '.' ∉ presentLabel l ∧ '\\' ∉ presentLabel l := by
  have hall : ∀ b, plainByte b = true → byteChar b ≠ '.' ∧ byteChar b ≠ '\\' := by
    refine Utf8.forall_byte ?_
    decide +kernel
  rw [presentLabel_plain h]
  constructor
  · intro hmem
    obtain ⟨b, hb, heq⟩ := List.mem_map.1 hmem
    exact (hall b (h b hb)).1 heq
  · intro hmem
    obtain ⟨b, hb, heq⟩ := List.mem_map.1 hmem
    exact (hall b (h b hb)).2 heq

/-- The first label of a text without escapes. -/
theorem labelsOf_append {p : Str} (h : '.' ∉ p ∧ '\\' ∉ p) (r : Str) :
    labelsOf false (p ++ '.' :: r) = p :: labelsOf false r ∧ labelsOf false p = [p] := by
  induction p with
  | nil => exact ⟨rfl, rfl⟩
  | cons c p ih =>
    simp only [List.mem_cons, not_or] at h
    obtain ⟨h1, h2⟩ := ih ⟨h.1.2, h.2.2⟩
    have hc : ¬ (c = '.' ∧ false = false) := fun hc => h.1.1 hc.1.symm
    have hslash : (c == '\\' && !false) = false := by
      have := Ne.symm h.2.1
      simpa using this
    rw [List.cons_append, labelsOf, if_neg hc, hslash, h1, labelsOf, if_neg hc, hslash, h2]
    exact ⟨rfl, rfl⟩

theorem bare_cons (l : List UInt8) {ls : List (List UInt8)} (h : ls ≠ []) :
    bare (l :: ls) = presentLabel l ++ '.' :: bare ls := by
  rw [bare, dotted_cons, dotted_eq_bare h, ← List.cons_append, ← List.append_assoc, List.dropLast_concat]

theorem labelsOf_bare {ls : List (List UInt8)} (h : Host ls) :
    labelsOf false (bare ls) = ls.map presentLabel ∧ '\\' ∉ bare ls := by
  obtain ⟨hne, hfilled, hplain⟩ := h
  clear hfilled
  induction ls with
  | nil => exact absurd rfl hne
  | cons l ls ih =>
    have hl := notMem_presentLabel fun b hb => (hplain l List.mem_cons_self b hb).1
    by_cases hls : ls = []
    · subst hls
      have hbare : bare [l] = presentLabel l := by simp [bare, dotted]
      rw [hbare, (labelsOf_append hl []).2]
      exact ⟨rfl, hl.2⟩
    · obtain ⟨hlabels, hslash⟩ := ih hls fun m hm => hplain m (List.mem_cons_of_mem _ hm)
      rw [bare_cons l hls, (labelsOf_append hl _).1, hlabels]
      refine ⟨rfl, ?_⟩
      simp [hl.2, hslash]

/-- `SplitDomainName` of a host name. -/
theorem splitDomainName_dotted {ls : List (List UInt8)} (h : Host ls) : splitDomainName (dotted ls) = ls.map presentLabel := by
  obtain ⟨hlabels, hslash⟩ := labelsOf_bare h
  have hnil : dotted ls ≠ [] := by
    rw [dotted_eq_bare h.ne_nil]
    simp
  have hroot : dotted ls ≠ root := by
    intro heq
    have hone : ls = [[]] := dotted_inj (heq.trans present_nil)
    exact h.filled (by rw [hone]; exact List.mem_singleton_self _)
  have hfqdn : isFqdn (dotted ls) = true := by
    rw [dotted_eq_bare h.ne_nil, isFqdn, List.reverse_append]
    have htake : (bare ls).reverse.takeWhile (· == '\\') = [] := by
      cases hr : (bare ls).reverse with
      | nil => rfl
      | cons c cs =>
        have hc : c ∈ bare ls := List.mem_reverse.1 (by rw [hr]; exact List.mem_cons_self)
        have hne : c ≠ '\\' := fun heq => hslash (heq ▸ hc)
        rw [List.takeWhile_cons_of_neg (by simpa using hne)]
    show ((bare ls).reverse.takeWhile (· == '\\')).length % 2 == 0
    rw [htake]
    rfl
  rw [splitDomainName, if_neg (by simp [hnil, hroot]), withoutRoot, if_pos hfqdn]
  exact hlabels

theorem presentLabel_injective : Function.Injective presentLabel := by
  intro l m h
  exact (presentLabel_append_inj (r := []) (s := []) (by rw [h])).1

/-- **The order of the name tree, on host names.** -/
theorem isSubDomain_dotted {a b : List (List UInt8)} (ha : Host a) (hb : Host b) :
    isSubDomain (dotted a) (dotted b) = true ↔ a <:+ b := by
  have hlower : ∀ {ls : List (List UInt8)}, Host ls → (ls.map presentLabel).map lower = ls.map presentLabel := by
    intro ls h
    rw [List.map_map]
    refine List.map_congr_left fun l hl => ?_
    have hfold : l.map lowerByte = l := by
      conv_rhs => rw [← List.map_id l]
      exact List.map_congr_left fun c hc => (h.plain l hl c hc).2
    rw [Function.comp_apply, lower_presentLabel, hfold]
  rw [isSubDomain, splitDomainName_dotted ha, splitDomainName_dotted hb, hlower ha, hlower hb, List.isSuffixOf_iff_suffix]
  constructor
  · rintro ⟨us, hus⟩
    obtain ⟨us', a', rfl, -, ha'⟩ := List.map_eq_append_iff.1 hus.symm
    rw [List.map_injective_iff.2 presentLabel_injective ha']
    exact List.suffix_append us' a
  · exact fun h => h.map presentLabel

theorem tails_of_no_dot {n : List (List UInt8)} (h : ∀ l ∈ n, 46 ∉ l) : n :: textTails n = n.tails := by
  induction n with
  | nil => rfl
  | cons l ls ih =>
    have hcuts : byteTails l = [] := by
      refine List.eq_nil_iff_forall_not_mem.2 fun v hv => ?_
      obtain ⟨u, rfl⟩ := mem_byteTails.1 hv
      exact h _ List.mem_cons_self (by simp)
    rw [textTails, hcuts, List.tails_cons, ← ih fun m hm => h m (List.mem_cons_of_mem _ hm)]
    rfl

/-- **The names from an owner up to its zone.** -/
theorem mem_above {zone owner n : List (List UInt8)} (hz : Host zone) (ho : Host owner) :
    dotted n ∈ above (dotted zone) (dotted owner) ↔ n <:+ owner ∧ zone <:+ n := by
  have hsuf : ∀ t, t <:+ owner → t ≠ [] → Host t := fun t ht hne => ho.suffix ht hne
  rw [above, suffixes, dotTails_dotted, ← List.map_cons, tails_of_no_dot ho.no_dot]
  clear ho
  induction owner with
  | nil =>
    have hno : ¬ (n <:+ [] ∧ zone <:+ n) := by
      rintro ⟨hn, hzn⟩
      rw [List.suffix_nil.1 hn] at hzn
      exact hz.ne_nil (List.suffix_nil.1 hzn)
    exact iff_of_false (by simp [dotted]) hno
  | cons l ls ih =>
    obtain ⟨hmem, hback⟩ := ih fun t ht => hsuf t (ht.trans (List.suffix_cons l ls))
    have hsub := isSubDomain_dotted hz (hsuf (l :: ls) List.suffix_rfl (by simp))
    have hne : dotted (l :: ls) ≠ [] := by simp [dotted_cons]
    rw [List.tails_cons, List.map_cons, List.takeWhile_cons_of_pos (by simpa using hne)]
    by_cases hin : zone <:+ l :: ls
    · rw [List.takeWhile_cons_of_pos (hsub.2 hin), List.mem_cons]
      constructor
      · rintro (heq | h)
        · rw [dotted_inj heq]
          exact ⟨List.suffix_rfl, hin⟩
        · obtain ⟨hn, hzn⟩ := hmem h
          exact ⟨hn.trans (List.suffix_cons l ls), hzn⟩
      · rintro ⟨hn, hzn⟩
        rcases List.suffix_cons_iff.1 hn with rfl | hn
        · exact Or.inl rfl
        · exact Or.inr (hback ⟨hn, hzn⟩)
    · -- the walk ends at the first name outside the zone
      rw [List.takeWhile_cons_of_neg (fun h => hin (hsub.1 h))]
      exact iff_of_false List.not_mem_nil fun h => hin (h.2.trans h.1)

end Velora.Zones
