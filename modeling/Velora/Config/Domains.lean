import Velora.Config.Validate
import Velora.Filtering.Service

/-!
# The two checks of a domain

A domain of the configuration is checked by `validDomain` when the configuration is validated, and by `name` of the filter when
its rules are compiled. The first takes the wildcard off before the last dot and the second the other way round; what is left
differs for the wildcard alone, and neither takes that. Both lower the text first, which leaves no byte that is not UTF-8.
-/

namespace Velora.Config

open Velora.Lib Velora.Lib.Text Velora.Lib.Ip
open Velora.Zones (byteLen labelChar)
open Velora.Filtering (name trimStar goodLabel)

/-! ### The rules of a configuration -/

/-- The rules that `Run` makes of a configuration, as does the check of a backup before it is restored. -/
def Filtering.rules (f : Filtering) : List Velora.Filtering.Rule :=
  (f.blocklist.getD []).map (fun domain => ⟨domain, true, .block⟩) ++
    (f.allowlist.getD []).map (fun domain => ⟨domain, false, .allow⟩)

/-! ### The ends -/

theorem trimStar_star (w : Str) : trimStar ('*' :: '.' :: w) = w := rfl

theorem trimStar_of_not {w : Str} (h : "*.".toList.isPrefixOf w = false) : trimStar w = w := by
  rw [trimStar, cutPrefix, if_neg (by rw [h]; decide), Option.getD_none]

theorem prefix_of_trimDot (w : Str) : trimDot w <+: w := by
  unfold trimDot
  split
  · exact List.dropLast_prefix w
  · exact List.prefix_rfl

/-- A dot is taken off behind the wildcard unless the wildcard is all there is. -/
theorem trimDot_star {w : Str} (h : w ≠ []) : trimDot ('*' :: '.' :: w) = '*' :: '.' :: trimDot w := by
  obtain ⟨c, w, rfl⟩ := List.exists_cons_of_ne_nil h
  rw [trimDot, trimDot, List.getLast?_cons_cons, List.getLast?_cons_cons]
  split <;> rfl

/-- **The order of the cuts** makes a difference for the wildcard alone. -/
theorem trims_agree {w : Str} (h : w ≠ "*.".toList) :
    trimDot (trimStar w) = trimStar (trimDot w) := by
  cases hw : "*.".toList.isPrefixOf w with
  | true =>
    obtain ⟨rest, rfl⟩ := List.isPrefixOf_iff_prefix.1 hw
    have hrest : rest ≠ [] := by
      rintro rfl
      exact h rfl
    change trimDot (trimStar ('*' :: '.' :: rest)) = trimStar (trimDot ('*' :: '.' :: rest))
    rw [trimDot_star hrest, trimStar_star, trimStar_star]
  | false =>
    have hdot : "*.".toList.isPrefixOf (trimDot w) = false := by
      rw [Bool.eq_false_iff] at hw ⊢
      intro hpre
      exact hw (List.isPrefixOf_iff_prefix.2 ((List.isPrefixOf_iff_prefix.1 hpre).trans (prefix_of_trimDot w)))
    rw [trimStar_of_not hw, trimStar_of_not hdot]

/-! ### The labels -/

theorem labelChar_eq :
    (fun r : Char => ('a' ≤ r && r ≤ 'z') || ('0' ≤ r && r ≤ '9') || r == '-' || r == '_') = labelChar := by
  funext r
  rfl

theorem validDomain_eq (v : Str) : validDomain v =
    let w := trimDot (trimStar (lower (trimSpaces v)))
    (w ≠ [] && byteLen w ≤ 253 && (splitDots w).all goodLabel) := by
  rw [validDomain, labelChar_eq]
  rfl

theorem name_isSome (v : Str) : (name v).isSome =
    let w := trimStar (trimDot (lower (trimSpaces v)))
    (w ≠ [] && byteLen w ≤ 253 && (splitDots w).all goodLabel) := by
  unfold name
  dsimp only
  split
  · rename_i hlen
    rcases hlen with hnil | hlen
    · simp [hnil]
    · simp [not_le.2 hlen]
  · rename_i hlen
    push Not at hlen
    split
    · rename_i hlabels
      simp [hlen, hlabels]
    · rename_i hlabels
      simp [hlabels]

/-- **The two checks agree.** -/
theorem validDomain_iff (v : Str) : validDomain v = true ↔ (name v).isSome := by
  rw [validDomain_eq, name_isSome]
  by_cases hstar : lower (trimSpaces v) = "*.".toList
  · -- nothing is left of the wildcard in the first order and the star in the second
    rw [hstar]
    decide
  · rw [trims_agree hstar]

/-! ### The rules -/

section

open Velora.Filtering

/-- **What compiles**: no more sources and domains than there may be, and a domain in each rule. -/
theorem compile_ok_iff {static : List Rule} {l : List Source} : (∃ m, compile static l = .ok m) ↔
    l.length ≤ maxSources ∧
    ((∀ s ∈ l, s.domains.length ≤ maxDomains) ∧ 0 + (l.map (fun s => s.domains.length)).sum ≤ maxTotalDomains) ∧
    ∀ r ∈ static ++ l.flatMap (fun s => if s.enabled then listRules s.domains else []), (name r.domain).isSome := by
  rw [← @collect_isOk l 0 static (Nat.zero_le maxTotalDomains)]
  unfold compile
  split
  · rename_i hover
    refine iff_of_false (fun ⟨m, hm⟩ => by cases hm) (fun h => ?_)
    omega
  rename_i hlen
  constructor
  · rintro ⟨m, hm⟩
    obtain ⟨rules, hrules, hnew⟩ := Loops.bind_eq_ok.1 hm
    refine ⟨not_lt.1 hlen, ⟨rules, hrules⟩, ?_⟩
    rw [← collect_ok hrules]
    split at hnew
    · rename_i m' hm'
      exact new_isSome.1 (by rw [hm']; rfl)
    · cases hnew
  · rintro ⟨-, ⟨rules, hrules⟩, hall⟩
    rw [← collect_ok hrules] at hall
    obtain ⟨m, hm⟩ := Option.isSome_iff_exists.1 (new_isSome.2 hall)
    refine ⟨m, Loops.bind_eq_ok.2 ⟨rules, hrules, ?_⟩⟩
    rw [hm]

/-- Rules that have a domain stop no service from starting that starts without them. -/
theorem start_ok_iff {static : List Rule} (hs : ∀ r ∈ static, (name r.domain).isSome) (repo : Repo) :
    (∃ s, Velora.Filtering.start static repo = .ok s) ↔ ∃ s, Velora.Filtering.start [] repo = .ok s := by
  have hstart : ∀ static : List Rule, (∃ s, Velora.Filtering.start static repo = .ok s) ↔
      ∃ l, repo.loadSources = .ok l ∧ ∃ m, compile static l = .ok m := by
    intro static
    constructor
    · rintro ⟨s, hs⟩
      obtain ⟨l, hl, hrest⟩ := Loops.bind_eq_ok.1 hs
      obtain ⟨m, hm, -⟩ := Loops.bind_eq_ok.1 hrest
      exact ⟨l, hl, m, hm⟩
    · rintro ⟨l, hl, m, hm⟩
      exact ⟨_, Loops.bind_eq_ok.2 ⟨l, hl, Loops.bind_eq_ok.2 ⟨m, hm, rfl⟩⟩⟩
  rw [hstart, hstart]
  refine exists_congr fun l => and_congr_right fun _ => ?_
  rw [compile_ok_iff, compile_ok_iff]
  refine and_congr_right fun _ => and_congr_right fun _ => ?_
  rw [List.forall_mem_append, List.forall_mem_append]
  exact and_congr_left fun _ => iff_of_true hs (by simp)

end

/-- The domains of an accepted configuration are domains. -/
theorem domain_of_validate {lib : Parsers} {c : Config} (h : validate lib c = none) :
    ∀ r ∈ c.filtering.rules, (name r.domain).isSome := by
  have hnil : filteringErrors c.filtering = [] := by
    have := validate_eq_none.1 h
    simp only [errs, List.append_eq_nil_iff] at this
    exact this.1.1.1.1.1.1.1.1.2
  simp only [filteringErrors, List.append_eq_nil_iff, checkEach_eq_nil] at hnil
  have hvalid : ∀ (v : Str) (e : String), (if validDomain v then none else some e) = none → (name v).isSome := by
    intro v e hv
    rw [← validDomain_iff]
    by_contra hinvalid
    rw [if_neg hinvalid] at hv
    cases hv
  intro r hr
  rw [Filtering.rules, List.mem_append, List.mem_map, List.mem_map] at hr
  rcases hr with ⟨v, hv, rfl⟩ | ⟨v, hv, rfl⟩
  · exact hvalid v _ (hnil.1.2 v hv)
  · exact hvalid v _ (hnil.2 v hv)

/-- **Validated domains can be loaded.** A domain is accepted by the validation exactly when the filter accepts it, so the rules
of an accepted configuration compile, and the filtering service starts with them wherever it starts without any. -/
theorem domains_agree : (∀ v : Str, validDomain v = true ↔ (name v).isSome) ∧
    ∀ (lib : Parsers) (c : Config), validate lib c = none → (Velora.Filtering.new c.filtering.rules).isSome ∧
      ∀ repo, (∃ s, Velora.Filtering.start c.filtering.rules repo = .ok s) ↔ ∃ s, Velora.Filtering.start [] repo = .ok s := by
  refine ⟨validDomain_iff, fun lib c h => ?_⟩
  have hdomains := domain_of_validate h
  exact ⟨Velora.Filtering.new_isSome.2 hdomains, start_ok_iff hdomains⟩

/-- The default configuration with lists that are not in the form the filter keeps. -/
def blocking : Config := { default with
  filtering := {
    blocklist := some [" *.Ads.Example. ".toList, "tracker.example.".toList]
    allowlist := some ["ok_1.Ads.example".toList] } }

theorem domains_agree_blocking : (Velora.Filtering.new blocking.filtering.rules).isSome :=
  (domains_agree.2 ⟨fun _ => none, fun _ => none⟩ blocking (by decide +kernel)).1

end Velora.Config
