import Velora.Filtering.Names
import Velora.Dns.Base

/-!
# The matcher

`internal/filtering/matcher.go`: rules with the same key are merged when the matcher is built, where an allowing rule stays,
and a name is looked up under its exact key and under the wildcard keys of what its dots leave of it. A name is blocked when
a blocking rule covers it and no allowing rule does (`blocked_iff`), so the order of the rules is of no importance.
-/

namespace Velora.Filtering

open Velora.Lib Velora.Lib.Text Velora.Dns

inductive Action where
  | allow
  | block
  deriving DecidableEq

structure Rule where
  domain : Str
  wildcard : Bool
  action : Action
  deriving DecidableEq

structure Matcher where
  rules : Map Str Rule

def key (r : Rule) : Str := (if r.wildcard then '*' else '=') :: r.domain

/-- The rule covers what is below its domain: it says so, or its domain starts with `*.`. -/
def Rule.wild (r : Rule) : Bool := "*.".toList.isPrefixOf (trimSpaces r.domain) || r.wildcard

/-- The rule as the matcher keeps it. -/
def Rule.normal (r : Rule) : Option Rule := (name r.domain).map (fun n => { r with domain := n, wildcard := r.wild })

/-- A rule under its key, unless an allowing rule is there. -/
def Matcher.put (m : Matcher) (r : Rule) : Matcher :=
  match m.rules.lookup (key r) with
  | some old => if old.action = .allow then m else ⟨m.rules.insert (key r) r⟩
  | none => ⟨m.rules.insert (key r) r⟩

/-- `New`; the error is that of `name`. -/
def new (rules : List Rule) : Option Matcher :=
  rules.foldlM (fun m r => r.normal.map m.put) ⟨∅⟩

/-- The loop of `Match`, over the name and what is left of it after each of its dots. -/
def Matcher.scan (m : Matcher) : List Str → Bool → Action × Bool
  | [], blocked => if blocked then (.block, true) else (.allow, false)
  | current :: rest, blocked =>
    match m.rules.lookup ('*' :: current) with
    | some r => if r.action = .allow then (.allow, true) else m.scan rest true
    | none => m.scan rest blocked

/-- `Match`. -/
def Matcher.match' (m : Matcher) (domain : Str) : Action × Bool :=
  match name domain with
  | none => (.allow, false)
  | some n =>
    match m.rules.lookup ('=' :: n) with
    | some r => if r.action = .allow then (.allow, true) else m.scan (n :: dotTails n) true
    | none => m.scan (n :: dotTails n) false

def Matcher.blocked (m : Matcher) (domain : Str) : Bool := (m.match' domain).2 && (m.match' domain).1 = .block

/-! ### Building the matcher -/

/-- What a list of rules says under a key: an allowing rule beats every blocking one. -/
def verdict (rs : List Rule) (k : Str) : Option Action :=
  if ∃ r ∈ rs, key r = k ∧ r.action = .allow then some .allow
  else if ∃ r ∈ rs, key r = k then some .block
  else none

theorem Action.eq_block {a : Action} (h : a ≠ .allow) : a = .block := by
  cases a with
  | allow => exact absurd rfl h
  | block => rfl

theorem verdict_eq_allow {rs : List Rule} {k : Str} :
    verdict rs k = some .allow ↔ ∃ r ∈ rs, key r = k ∧ r.action = .allow := by
  unfold verdict
  split
  · simp [*]
  · split <;> simp [*]

theorem verdict_eq_block {rs : List Rule} {k : Str} : verdict rs k = some .block ↔
    (∃ r ∈ rs, key r = k ∧ r.action = .block) ∧ ¬ ∃ r ∈ rs, key r = k ∧ r.action = .allow := by
  unfold verdict
  split
  · simp [*]
  · rename_i hno
    have hblock : (∃ r ∈ rs, key r = k ∧ r.action = .block) ↔ ∃ r ∈ rs, key r = k := by
      constructor
      · rintro ⟨r, hr, hk, -⟩
        exact ⟨r, hr, hk⟩
      · rintro ⟨r, hr, hk⟩
        exact ⟨r, hr, hk, Action.eq_block fun ha => hno ⟨r, hr, hk, ha⟩⟩
    split <;> simp [*]

theorem verdict_concat_ne {rs : List Rule} {r : Rule} {k : Str} (h : key r ≠ k) : verdict (rs ++ [r]) k = verdict rs k := by
  have h1 : (∃ x ∈ rs ++ [r], key x = k ∧ x.action = .allow) ↔ ∃ x ∈ rs, key x = k ∧ x.action = .allow := by
    simp [or_and_right, exists_or, h]
  have h2 : (∃ x ∈ rs ++ [r], key x = k) ↔ ∃ x ∈ rs, key x = k := by
    simp [or_and_right, exists_or, h]
  unfold verdict
  simp only [h1, h2]

theorem verdict_concat_self {rs : List Rule} {r : Rule} :
    verdict (rs ++ [r]) (key r) = if verdict rs (key r) = some .allow then some .allow else some r.action := by
  split
  · rename_i h
    obtain ⟨x, hx, hk, ha⟩ := verdict_eq_allow.1 h
    exact verdict_eq_allow.2 ⟨x, List.mem_append_left _ hx, hk, ha⟩
  · rename_i h
    have hmem : r ∈ rs ++ [r] := List.mem_append_right _ List.mem_cons_self
    cases hr : r.action with
    | allow => exact verdict_eq_allow.2 ⟨r, hmem, rfl, hr⟩
    | block =>
      refine verdict_eq_block.2 ⟨⟨r, hmem, rfl, hr⟩, ?_⟩
      rintro ⟨x, hx, hk, ha⟩
      rcases List.mem_append.1 hx with hx | hx
      · exact h (verdict_eq_allow.2 ⟨x, hx, hk, ha⟩)
      · rw [List.mem_singleton.1 hx, hr] at ha
        cases ha

/-- The matcher says under every key what the rules say. -/
def Matcher.Says (m : Matcher) (rs : List Rule) : Prop := ∀ k, (m.rules.lookup k).map Rule.action = verdict rs k

/-- One rule more. -/
theorem Matcher.says_put {m : Matcher} {rs : List Rule} (h : m.Says rs) (r : Rule) : (m.put r).Says (rs ++ [r]) := by
  intro k
  have hins : ∀ k, (((m.rules.insert (key r) r).lookup k).map Rule.action) =
      if key r = k then some r.action else (m.rules.lookup k).map Rule.action := by
    intro k
    by_cases hk : key r = k
    · subst hk
      rw [AList.lookup_insert, if_pos rfl]
      rfl
    · rw [AList.lookup_insert_ne (Ne.symm hk), if_neg hk]
  by_cases hk : key r = k
  · subst hk
    rw [verdict_concat_self, ← h (key r)]
    unfold put
    split
    · rename_i old hold
      rw [hold]
      by_cases ha : old.action = .allow
      · rw [if_pos ha, hold]
        simp [ha]
      · rw [if_neg ha, hins, if_pos rfl]
        simp [ha]
    · rename_i hnone
      rw [hnone, hins, if_pos rfl]
      simp
  · rw [verdict_concat_ne hk, ← h k]
    unfold put
    split
    · split
      · rfl
      · rw [hins, if_neg hk]
    · rw [hins, if_neg hk]

theorem says_foldlM : ∀ {rules : List Rule} {m m' : Matcher} {rs : List Rule}, m.Says rs →
    rules.foldlM (fun m r => r.normal.map m.put) m = some m' → m'.Says (rs ++ rules.filterMap Rule.normal)
  | [], m, m', rs, hm, h => by
    cases h
    simpa using hm
  | r :: rules, m, m', rs, hm, h => by
    rw [List.foldlM_cons] at h
    obtain ⟨m₁, h₁, hrest⟩ := Option.bind_eq_some_iff.1 h
    obtain ⟨n, hn, rfl⟩ := Option.map_eq_some_iff.1 h₁
    have hvoice := says_foldlM (Matcher.says_put hm n) hrest
    rw [List.filterMap_cons_some hn]
    simpa using hvoice

/-- **What `New` builds.** -/
theorem says_new {rules : List Rule} {m : Matcher} (h : new rules = some m) : m.Says (rules.filterMap Rule.normal) := by
  have hempty : (⟨∅⟩ : Matcher).Says [] := by
    intro k
    rw [AList.lookup_empty]
    rfl
  exact says_foldlM hempty h

theorem foldlM_isSome : ∀ {rules : List Rule} {m : Matcher},
    (rules.foldlM (fun m (r : Rule) => r.normal.map m.put) m).isSome ↔ ∀ r ∈ rules, (name r.domain).isSome
  | [], m => by simp
  | r :: rules, m => by
    rw [List.foldlM_cons, List.forall_mem_cons]
    cases hr : name r.domain with
    | none => simp [Rule.normal, hr]
    | some n =>
      have ih := @foldlM_isSome rules (m.put { r with domain := n, wildcard := r.wild })
      simpa [Rule.normal, hr] using ih

/-- `New` refuses a list for the domain of one of its rules only. -/
theorem new_isSome {rules : List Rule} : (new rules).isSome ↔ ∀ r ∈ rules, (name r.domain).isSome :=
  foldlM_isSome

/-! ### Looking a name up -/

/-- The name is the domain or lies below it. -/
def Below (n d : Str) : Prop := n = d ∨ ∃ l, n = l ++ '.' :: d

/-- The keys a name is looked up under. -/
def keys (n : Str) : List Str := ('=' :: n) :: (n :: dotTails n).map (fun d => '*' :: d)

/-- The rule covers the name: its domain is the name, or it is a wildcard rule and the name lies below its domain. -/
def Rule.Covers (r : Rule) (n : Str) : Prop := ∃ d, name r.domain = some d ∧ (n = d ∨ r.wild = true ∧ Below n d)

theorem covers_iff {r nr : Rule} (h : r.normal = some nr) {n : Str} : r.Covers n ↔ key nr ∈ keys n := by
  obtain ⟨d, hd, rfl⟩ := Option.map_eq_some_iff.1 h
  have hcovers : r.Covers n ↔ n = d ∨ r.wild = true ∧ Below n d := by
    simp [Rule.Covers, hd]
  rw [hcovers, key, keys, Below, ← mem_dotTails]
  dsimp only
  cases r.wild with
  | false => simp [eq_comm]
  | true => simp [eq_comm]

theorem scan_eq_block {m : Matcher} {ds : List Str} {b : Bool} : m.scan ds b = (.block, true) ↔
    (b = true ∨ ∃ d ∈ ds, (m.rules.lookup ('*' :: d)).map Rule.action = some .block) ∧
      ∀ d ∈ ds, (m.rules.lookup ('*' :: d)).map Rule.action ≠ some .allow := by
  induction ds generalizing b with
  | nil => cases b <;> simp [Matcher.scan]
  | cons d ds ih =>
    unfold Matcher.scan
    split
    · rename_i r hr
      by_cases ha : r.action = .allow
      · simp [ha, hr]
      · rw [if_neg ha, ih]
        simp [hr, Action.eq_block ha]
    · rename_i hr
      rw [ih]
      simp [hr]

/-- A name is blocked when one of its keys says so and none allows it. -/
theorem blocked_keys {m : Matcher} {v n : Str} (hn : name v = some n) : m.blocked v = true ↔
    (∃ k ∈ keys n, (m.rules.lookup k).map Rule.action = some .block) ∧
      ∀ k ∈ keys n, (m.rules.lookup k).map Rule.action ≠ some .allow := by
  have hpair : m.blocked v = true ↔ m.match' v = (.block, true) := by
    unfold Matcher.blocked
    rw [Bool.and_eq_true, decide_eq_true_eq, and_comm, Prod.ext_iff]
  have hall : (∀ k ∈ keys n, (m.rules.lookup k).map Rule.action ≠ some .allow) ↔
      (m.rules.lookup ('=' :: n)).map Rule.action ≠ some .allow ∧
        ∀ d ∈ n :: dotTails n, (m.rules.lookup ('*' :: d)).map Rule.action ≠ some .allow := by
    rw [keys, List.forall_mem_cons, List.forall_mem_map]
  have hex : (∃ k ∈ keys n, (m.rules.lookup k).map Rule.action = some .block) ↔
      (m.rules.lookup ('=' :: n)).map Rule.action = some .block ∨
        ∃ d ∈ n :: dotTails n, (m.rules.lookup ('*' :: d)).map Rule.action = some .block := by
    simp [keys]
  rw [hpair, Matcher.match', hn, hall, hex]
  dsimp only
  split
  · rename_i r hr
    by_cases ha : r.action = .allow
    · simp [ha, hr]
    · rw [if_neg ha, scan_eq_block]
      simp [hr, Action.eq_block ha]
  · rename_i hr
    rw [scan_eq_block]
    simp [hr]

/-- Under its keys a name meets the rules that cover it. -/
theorem meets_iff {rules : List Rule} {m : Matcher} (h : new rules = some m) (n : Str) (a : Action) :
    (∃ r ∈ rules, r.action = a ∧ r.Covers n) ↔
      ∃ k ∈ keys n, ∃ nr ∈ rules.filterMap Rule.normal, key nr = k ∧ nr.action = a := by
  have hall : ∀ r ∈ rules, ∃ nr, r.normal = some nr := by
    intro r hr
    have hname := (new_isSome.1 (by rw [h]; rfl)) r hr
    obtain ⟨d, hd⟩ := Option.isSome_iff_exists.1 hname
    exact ⟨_, by rw [Rule.normal, hd]; rfl⟩
  constructor
  · rintro ⟨r, hr, ha, hc⟩
    obtain ⟨nr, hnr⟩ := hall r hr
    obtain ⟨d, -, rfl⟩ := Option.map_eq_some_iff.1 hnr
    exact ⟨_, (covers_iff hnr).1 hc, _, List.mem_filterMap.2 ⟨r, hr, hnr⟩, rfl, ha⟩
  · rintro ⟨k, hk, nr, hmem, rfl, ha⟩
    obtain ⟨r, hr, hnr⟩ := List.mem_filterMap.1 hmem
    refine ⟨r, hr, ?_, (covers_iff hnr).2 hk⟩
    obtain ⟨d, -, rfl⟩ := Option.map_eq_some_iff.1 hnr
    exact ha

/-- **The decision of the filter.** -/
theorem blocked_iff {rules : List Rule} {m : Matcher} (h : new rules = some m) {v n : Str} (hn : name v = some n) :
    m.blocked v = true ↔ (∃ r ∈ rules, r.action = .block ∧ r.Covers n) ∧ ¬ ∃ r ∈ rules, r.action = .allow ∧ r.Covers n := by
  have hvoice := says_new h
  rw [blocked_keys hn, meets_iff h n .block, meets_iff h n .allow]
  constructor
  · rintro ⟨⟨k, hk, hb⟩, hno⟩
    rw [hvoice k, verdict_eq_block] at hb
    refine ⟨⟨k, hk, hb.1⟩, ?_⟩
    rintro ⟨k', hk', ha⟩
    refine hno k' hk' ?_
    rw [hvoice k', verdict_eq_allow]
    exact ha
  · rintro ⟨⟨k, hk, hb⟩, hno⟩
    have hnot : ∀ k ∈ keys n, (m.rules.lookup k).map Rule.action ≠ some .allow := by
      intro k' hk' ha
      rw [hvoice k', verdict_eq_allow] at ha
      exact hno ⟨k', hk', ha⟩
    refine ⟨⟨k, hk, ?_⟩, hnot⟩
    have hk' := hnot k hk
    rw [hvoice k, Ne, verdict_eq_allow] at hk'
    rw [hvoice k, verdict_eq_block]
    exact ⟨hb, hk'⟩

/-- A name that `NormalizeDomain` refuses is not blocked. -/
theorem blocked_none {m : Matcher} {v : Str} (h : name v = none) : m.blocked v = false := by
  simp [Matcher.blocked, Matcher.match', h]

/-- Rules with the same members make the same decisions. -/
theorem blocked_of_mem_iff {rules rules' : List Rule} {m m' : Matcher} (h : new rules = some m) (h' : new rules' = some m')
    (hmem : ∀ r, r ∈ rules' ↔ r ∈ rules) (v : Str) : m'.blocked v = m.blocked v := by
  cases hn : name v with
  | none => rw [blocked_none hn, blocked_none hn]
  | some n =>
    rw [Bool.eq_iff_iff, blocked_iff h hn, blocked_iff h' hn]
    simp only [hmem]

/-- One rule more, at any place of the list. -/
theorem blocked_insert {before after : List Rule} {r : Rule} {m m' : Matcher} (h : new (before ++ after) = some m)
    (h' : new (before ++ r :: after) = some m') (v : Str) :
    (r.action = .block → m.blocked v = true → m'.blocked v = true) ∧
      (r.action = .allow → m'.blocked v = true → m.blocked v = true) := by
  cases hn : name v with
  | none =>
    rw [blocked_none hn, blocked_none hn]
    exact ⟨fun _ h => h, fun _ h => h⟩
  | some n =>
    have hmem : ∀ x, x ∈ before ++ r :: after ↔ x = r ∨ x ∈ before ++ after := by
      intro x
      simp only [List.mem_append, List.mem_cons]
      tauto
    rw [blocked_iff h hn, blocked_iff h' hn]
    constructor
    · rintro hr ⟨⟨x, hx, ha, hc⟩, hno⟩
      refine ⟨⟨x, (hmem x).2 (Or.inr hx), ha, hc⟩, ?_⟩
      rintro ⟨y, hy, hya, hyc⟩
      rcases (hmem y).1 hy with rfl | hy
      · rw [hr] at hya
        cases hya
      · exact hno ⟨y, hy, hya, hyc⟩
    · rintro hr ⟨⟨x, hx, ha, hc⟩, hno⟩
      refine ⟨⟨x, ?_, ha, hc⟩, ?_⟩
      · rcases (hmem x).1 hx with rfl | hx
        · rw [hr] at ha
          cases ha
        · exact hx
      · rintro ⟨y, hy, hya, hyc⟩
        exact hno ⟨y, (hmem y).2 (Or.inr hy), hya, hyc⟩

/-- **The filter decides by its rules alone**: a name is blocked exactly when a blocking rule covers it and no allowing one
does; the order of the rules and their repetition have no influence; one more blocking rule unblocks no name and one more
allowing rule blocks none. -/
theorem decision {rules : List Rule} {m : Matcher} (h : new rules = some m) :
    (∀ v n, name v = some n → (m.blocked v = true ↔
      (∃ r ∈ rules, r.action = .block ∧ r.Covers n) ∧ ¬ ∃ r ∈ rules, r.action = .allow ∧ r.Covers n)) ∧
    (∀ rules', (∀ r, r ∈ rules' ↔ r ∈ rules) →
      ∃ m', new rules' = some m' ∧ ∀ v, m'.blocked v = m.blocked v) ∧
    (∀ before after r m', rules = before ++ after → new (before ++ r :: after) = some m' → ∀ v,
      (r.action = .block → m.blocked v = true → m'.blocked v = true) ∧
      (r.action = .allow → m'.blocked v = true → m.blocked v = true)) := by
  refine ⟨fun v n hn => blocked_iff h hn, fun rules' hmem => ?_, fun before after r m' hrules h' v => ?_⟩
  · have hsome : (new rules').isSome := by
      rw [new_isSome]
      intro r hr
      exact new_isSome.1 (by rw [h]; rfl) r ((hmem r).1 hr)
    obtain ⟨m', hm'⟩ := Option.isSome_iff_exists.1 hsome
    exact ⟨m', hm', fun v => blocked_of_mem_iff h hm' hmem v⟩
  · subst hrules
    exact blocked_insert h h' v

/-- The rules of the matcher's test. -/
def adsRules : List Rule :=
  [⟨"ads.example".toList, true, .block⟩, ⟨"safe.ads.example".toList, false, .allow⟩]

theorem decision_ads : ∃ m, new adsRules = some m ∧ m.blocked "a.ads.example.".toList = true ∧
    m.blocked "safe.ads.example".toList = false ∧
    ∃ m', new adsRules.reverse = some m' ∧ ∀ v, m'.blocked v = m.blocked v := by
  obtain ⟨m, hm⟩ := Option.isSome_iff_exists.1 (show (new adsRules).isSome from by decide +kernel)
  have hall : (new adsRules).all (fun m => m.blocked "a.ads.example.".toList && !m.blocked "safe.ads.example".toList) = true := by
    decide +kernel
  rw [hm] at hall
  obtain ⟨h1, h2⟩ := Bool.and_eq_true_iff.1 hall
  exact ⟨m, hm, h1, by simpa using h2, (decision hm).2.1 adsRules.reverse fun r => List.mem_reverse⟩

end Velora.Filtering
