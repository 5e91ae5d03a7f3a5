import Velora.Forwarding.Router
import Velora.Rewrites.Consistent
import Velora.Zones.Find

/-!
# The entries that cover a name

The zones, the forwarding rules and the rewrites are each asked for the entry of the longest domain above a name. Their loops
cut the text of the name at every dot, and so they agree with the labels unless one of them has an entry for what is left
behind a dot inside a label (`covering_iff`). In which order the entries were configured is of no importance.
-/

namespace Velora.Dns

open Velora.Lib Velora.Lib.Text Velora.Wire
open Velora.Zones (zoneAt zoneAt_inj zoneAt_perm find_zone compile_perm)

/-! ### Forwarding rules -/

/-- The enabled rule for a domain. -/
def routeAt (rules : List Forwarding.Rule) (t : List (List UInt8)) : Option Forwarding.Rule :=
  (rules.filter Forwarding.Rule.enabled).find? (fun r => r.domain ++ ['.'] = dotted t)

section

variable {σ : Type} {rules : List Forwarding.Rule}

/-- The table has the enabled rules under their domains. -/
theorem lookup_route (o : Forwarding.Options σ) (prev : Forwarding.Table σ) (hd : (rules.map Forwarding.Rule.domain).Nodup)
    (k : Str) : ((Forwarding.compile o rules prev).lookup k).map Forwarding.Route.rule =
      (rules.filter Forwarding.Rule.enabled).find? (fun r => r.domain = k) := by
  have hd' : ((rules.filter Forwarding.Rule.enabled).map Forwarding.Rule.domain).Nodup :=
    hd.sublist (List.filter_sublist.map _)
  unfold Forwarding.compile
  generalize rules.filter Forwarding.Rule.enabled = enabled at hd'
  induction enabled using List.reverseRecOn with
  | nil => rfl
  | append_singleton rules rule ih =>
    rw [List.map_append, List.nodup_append] at hd'
    rw [List.foldl_append, List.foldl_cons, List.foldl_nil, List.find?_append]
    by_cases hk : k = rule.domain
    · subst hk
      have hnone : rules.find? (fun r => r.domain = rule.domain) = none := by
        refine List.find?_eq_none.2 fun r hr => ?_
        simpa using hd'.2.2 _ (List.mem_map_of_mem hr) _ (by simp)
      rw [AList.lookup_insert, hnone]
      simp
    · rw [AList.lookup_insert_ne hk, ih hd'.1]
      simp [Ne.symm hk]

/-- What `match` gives for a name of the wire. -/
theorem match_route (o : Forwarding.Options σ) (prev : Forwarding.Table σ) (hd : (rules.map Forwarding.Rule.domain).Nodup)
    (hne : ∀ r ∈ rules, r.domain ≠ []) (n : List (List UInt8)) :
    ((suffixes (trimDot (present n))).findSome? (Forwarding.compile o rules prev).lookup).map Forwarding.Route.rule =
      (n :: textTails n).findSome? (routeAt rules) := by
  have hempty : ((Forwarding.compile o rules prev).lookup []).map Forwarding.Route.rule = none := by
    rw [lookup_route o prev hd, List.find?_eq_none]
    intro r hr
    simpa using hne r (List.mem_of_mem_filter hr)
  have hnone : routeAt rules [] = none := by
    rw [routeAt, List.find?_eq_none]
    intro r _
    simp [dotted]
  have hat : ∀ t, t ≠ [] → ((Forwarding.compile o rules prev).lookup (bare t)).map Forwarding.Route.rule = routeAt rules t := by
    intro t ht
    rw [lookup_route o prev hd, routeAt]
    simp [dotted_eq_bare ht]
  rw [List.map_findSome?]
  change (suffixes (trimDot (present n))).findSome?
    (fun k => ((Forwarding.compile o rules prev).lookup k).map Forwarding.Route.rule) = _
  rw [findSome?_suffixes hempty]
  by_cases hn : n = []
  · subst hn
    have htrim : trimDot (present []) = [] := by decide
    rw [htrim]
    show ([[]] : List Str).findSome? _ = ([[]] : List (List (List UInt8))).findSome? _
    simp [hempty, hnone]
  · obtain ⟨ts, hts, htne, hcuts⟩ := dotTails_bare hn
    rw [present_eq_dotted hn, trimDot_dotted hn, hcuts, hts, List.findSome?_cons, List.findSome?_cons, hat n hn,
      List.findSome?_map, List.findSome?_append]
    have hsame : ts.findSome? ((fun k => ((Forwarding.compile o rules prev).lookup k).map Forwarding.Route.rule) ∘ bare) =
        ts.findSome? (routeAt rules) := findSome?_congr fun t ht => hat t (htne t ht)
    rw [hsame]
    simp [hnone]

end

/-! ### Rewrites -/

/-- The rule is one for the name `n` under the domain `t`: the name itself, or a wildcard with this parent. -/
def rewriteFor (n t : List (List UInt8)) (r : Rewrites.Rule) : Bool :=
  r.enabled && match r.parent with
    | none => t = n && r.name ++ ['.'] = dotted t
    | some parent => t ≠ n && parent ++ ['.'] = dotted t

/-- The enabled rewrites for a name under a domain; in which order they stand is not said. -/
def rewritesAt (rules : List Rewrites.Rule) (n t : List (List UInt8)) : Option (Multiset Rewrites.Rule) :=
  (Rewrites.entry (rules.filter (rewriteFor n t))).map Multiset.ofList

/-- What `match` has found. -/
def rulesFound (rules : List Rewrites.Rule) : Option (Multiset Rewrites.Rule) := (Rewrites.entry rules).map Multiset.ofList

section

variable {rules : List Rewrites.Rule} {n : List (List UInt8)}

theorem entry_getD (l : List Rewrites.Rule) : Rewrites.entry ((Rewrites.entry l).getD []) = Rewrites.entry l := by
  unfold Rewrites.entry
  split
  · rename_i h
    simp
  · rename_i h
    simp [h]

/-- What the table has for a name and for the parents of wildcards. -/
theorem exact_at (hn : n ≠ []) : (Rewrites.compile rules).exact.lookup (bare n) =
    Rewrites.entry (rules.filter (rewriteFor n n)) := by
  rw [(Rewrites.compile_lookup rules).1]
  congr 1
  refine List.filter_congr fun r _ => ?_
  unfold rewriteFor
  rw [dotted_eq_bare hn]
  cases r.parent <;> simp

theorem wildcard_at {t : List (List UInt8)} (ht : t ≠ []) (htn : t ≠ n) : (Rewrites.compile rules).wildcard.lookup (bare t) =
    Rewrites.entry (rules.filter (rewriteFor n t)) := by
  rw [(Rewrites.compile_lookup rules).2]
  congr 1
  refine List.filter_congr fun r _ => ?_
  unfold rewriteFor
  rw [dotted_eq_bare ht]
  cases r.parent <;> simp [htn]

theorem rewritesAt_nil (n : List (List UInt8)) : rewritesAt rules n [] = none := by
  have hno : rules.filter (rewriteFor n []) = [] := by
    refine List.filter_eq_nil_iff.2 fun r _ => ?_
    unfold rewriteFor
    cases r.parent <;> simp [dotted]
  rw [rewritesAt, hno]
  rfl

theorem self_notMem_textTails {t : List (List UInt8)} (h : t ∈ textTails n) : t ≠ n := by
  rintro rfl
  rcases mem_textTails.1 h with ⟨us, hus, heq⟩ | ⟨us, u, v, ws, heq, hcut⟩
  · exact hus (List.self_eq_append_left.1 heq)
  · rw [hcut] at heq
    have hlen := congrArg List.length heq
    have hus : us = [] := by
      refine List.length_eq_zero_iff.1 ?_
      simp only [List.length_append, List.length_cons] at hlen
      omega
    subst hus
    have hbytes := congrArg List.length (List.cons.inj heq).1
    simp only [List.length_append, List.length_cons] at hbytes
    omega

/-- What `match` gives for a name of the wire. -/
theorem match_rewrites (hne : ∀ r ∈ rules, r.name ≠ []) (n : List (List UInt8)) :
    rulesFound ((Rewrites.compile rules).match' (trimDot (present n))) = (n :: textTails n).findSome? (rewritesAt rules n) := by
  unfold Rewrites.Table.match'
  by_cases hn : n = []
  · subst hn
    have htrim : trimDot (present []) = [] := by decide
    have hexact : (Rewrites.compile rules).exact.lookup [] = none := by
      rw [(Rewrites.compile_lookup rules).1, Rewrites.entry, if_pos]
      refine List.filter_eq_nil_iff.2 fun r hr => ?_
      simp [hne r hr]
    rw [htrim, hexact]
    simp [dotTails, textTails, rewritesAt_nil [], rulesFound, Rewrites.entry]
  · obtain ⟨ts, hts, htne, hcuts⟩ := dotTails_bare hn
    rw [present_eq_dotted hn, trimDot_dotted hn, exact_at hn, hcuts, List.findSome?_cons, List.findSome?_map]
    have hwild : ts.findSome? ((Rewrites.compile rules).wildcard.lookup ∘ bare) =
        ts.findSome? (fun t => Rewrites.entry (rules.filter (rewriteFor n t))) := by
      refine findSome?_congr fun t ht => wildcard_at (htne t ht) (self_notMem_textTails ?_)
      rw [hts]
      exact List.mem_append_left _ ht
    rw [hwild, hts, List.findSome?_append]
    cases hself : Rewrites.entry (rules.filter (rewriteFor n n)) with
    | some l =>
      have hl : Rewrites.entry l = some l := by
        have h := entry_getD (rules.filter (rewriteFor n n))
        rwa [hself] at h
      simp [rulesFound, rewritesAt, hself, hl]
    | none =>
      have hfound : ∀ found, ts.findSome? (fun t => Rewrites.entry (rules.filter (rewriteFor n t))) = found →
          Rewrites.entry (found.getD []) = found := by
        rintro (_ | l) h
        · rfl
        · obtain ⟨t, -, ht⟩ := List.exists_of_findSome?_eq_some h
          have hentry := entry_getD (rules.filter (rewriteFor n t))
          rwa [ht] at hentry
      have hnone : rewritesAt rules n n = none := by rw [rewritesAt, hself]; rfl
      dsimp only
      rw [rulesFound, hfound _ rfl, List.map_findSome?, hnone, List.findSome?_singleton, rewritesAt_nil n, Option.or_none]
      rfl

end

/-! ### The order of the entries -/

theorem routeAt_perm {rules rules' : List Forwarding.Rule} (hd : (rules.map Forwarding.Rule.domain).Nodup)
    (hp : rules.Perm rules') : routeAt rules' = routeAt rules := by
  have hnodup : ((rules.filter Forwarding.Rule.enabled).map (fun r => r.domain ++ ['.'])).Nodup := by
    have hsub := hd.sublist (List.filter_sublist (p := Forwarding.Rule.enabled) |>.map Forwarding.Rule.domain)
    have hmap := hsub.map (List.append_left_injective ['.'])
    rwa [List.map_map] at hmap
  exact funext fun t => (Keyed.find?_perm hnodup (hp.filter _) (dotted t)).symm

theorem rewritesAt_perm {rules rules' : List Rewrites.Rule} (hp : rules.Perm rules') (n : List (List UInt8)) :
    rewritesAt rules' n = rewritesAt rules n := by
  funext t
  have hfilter := (hp.filter (rewriteFor n t)).symm
  unfold rewritesAt Rewrites.entry
  by_cases hnil : rules.filter (rewriteFor n t) = []
  · rw [hnil] at hfilter
    rw [if_pos hnil, if_pos hfilter.eq_nil]
  · have hnil' : rules'.filter (rewriteFor n t) ≠ [] := fun h => hnil (h ▸ hfilter).symm.eq_nil
    rw [if_neg hnil, if_neg hnil']
    exact congrArg some (Multiset.coe_eq_coe.2 hfilter)

/-! ### All three -/

/-- What the services accept: zones that compile, forwarding rules for different domains, rewrites with names. -/
structure Accepted (lib : Miekg) (zs : List Zones.Zone) (rules : List Forwarding.Rule) (rewrites : List Rewrites.Rule) :
    Prop where
  zones : ∃ s, Zones.compile lib zs = .ok s
  domains : ∀ r ∈ rules, r.domain ≠ []
  distinct : (rules.map Forwarding.Rule.domain).Nodup
  names : ∀ r ∈ rewrites, r.name ≠ []

/-- **Each layer selects by labels**: in whatever order the entries were configured, a name of the wire gets the zone, the rule and
the rewrites of the longest domain that ends its labels. -/
structure SelectsByLabels {σ : Type} (lib : Miekg) (o : Forwarding.Options σ) (zs : List Zones.Zone)
    (rules : List Forwarding.Rule) (rewrites : List Rewrites.Rule) (w : WireName) : Prop where
  zone : ∀ zs', zs.Perm zs' → ∃ s, Zones.compile lib zs' = .ok s ∧
    Selected (zoneAt zs) (folded w.labels) ((s.find (lower (present w.labels))).map Zones.View.zone)
  rule : ∀ rules' prev, rules.Perm rules' → Selected (routeAt rules) (folded w.labels)
    (((Forwarding.compile o rules' prev).match' (present w.labels)).map Forwarding.Route.rule)
  rewrite : ∀ rewrites', rewrites.Perm rewrites' → Selected (rewritesAt rewrites (folded w.labels)) (folded w.labels)
    (rulesFound ((Rewrites.compile rewrites').match' (trimDot (lower (present w.labels)))))

theorem routeAt_inj {rules : List Forwarding.Rule} :
    ∀ t t' r, routeAt rules t = some r → routeAt rules t' = some r → t = t' := by
  intro t t' r h h'
  have h1 := List.find?_some h
  have h2 := List.find?_some h'
  rw [decide_eq_true_eq] at h1 h2
  exact dotted_inj (h1.symm.trans h2)

theorem rewritesAt_inj {rules : List Rewrites.Rule} {n : List (List UInt8)} :
    ∀ t t' m, rewritesAt rules n t = some m → rewritesAt rules n t' = some m → t = t' := by
  intro t t' m h h'
  have hmem : ∀ {t}, rewritesAt rules n t = some m → m ≠ 0 ∧ ∀ r ∈ m, rewriteFor n t r = true := by
    intro t h
    obtain ⟨l, hl, rfl⟩ := Option.map_eq_some_iff.1 h
    unfold Rewrites.entry at hl
    split at hl
    · cases hl
    · rename_i hne
      cases hl
      exact ⟨by simpa using hne, fun r hr => (List.mem_filter.1 (Multiset.mem_coe.1 hr)).2⟩
  obtain ⟨hne, hall⟩ := hmem h
  obtain ⟨r, hr⟩ := Multiset.exists_mem_of_ne_zero hne
  have h1 := hall r hr
  have h2 := (hmem h').2 r hr
  unfold rewriteFor at h1 h2
  cases hparent : r.parent with
  | none =>
    simp only [hparent, Bool.and_eq_true, decide_eq_true_eq] at h1 h2
    exact h1.2.1.trans h2.2.1.symm
  | some parent =>
    simp only [hparent, Bool.and_eq_true, decide_eq_true_eq] at h1 h2
    exact dotted_inj (h1.2.2.symm.trans h2.2.2)

/-- **When the three layers select by labels.** -/
theorem selectsByLabels_iff {σ : Type} {lib : Miekg} (o : Forwarding.Options σ) {zs : List Zones.Zone}
    {rules : List Forwarding.Rule} {rewrites : List Rewrites.Rule} (h : Accepted lib zs rules rewrites) (w : WireName) :
    SelectsByLabels lib o zs rules rewrites w ↔
      Straight (zoneAt zs) (folded w.labels) ∧ Straight (routeAt rules) (folded w.labels) ∧
        Straight (rewritesAt rewrites (folded w.labels)) (folded w.labels) := by
  have hzone : ∀ zs' s', zs.Perm zs' → Zones.compile lib zs' = .ok s' →
      (Selected (zoneAt zs) (folded w.labels) ((s'.find (lower (present w.labels))).map Zones.View.zone) ↔
        Straight (zoneAt zs) (folded w.labels)) := by
    intro zs' s' hp hs'
    obtain ⟨s, hs⟩ := h.zones
    rw [lower_present, find_zone hs', zoneAt_perm hs hp]
    exact findSome?_cuts_iff zoneAt_inj
  have hrule : ∀ rules' prev, rules.Perm rules' →
      (Selected (routeAt rules) (folded w.labels)
          (((Forwarding.compile o rules' prev).match' (present w.labels)).map Forwarding.Route.rule) ↔
        Straight (routeAt rules) (folded w.labels)) := by
    intro rules' prev hp
    have hd' := (hp.map Forwarding.Rule.domain).nodup_iff.1 h.distinct
    rw [Forwarding.Table.match', lower_present, match_route o prev hd' (fun r hr => h.domains r (hp.mem_iff.2 hr)),
      routeAt_perm h.distinct hp]
    exact findSome?_cuts_iff routeAt_inj
  have hrewrite : ∀ rewrites', rewrites.Perm rewrites' →
      (Selected (rewritesAt rewrites (folded w.labels)) (folded w.labels)
          (rulesFound ((Rewrites.compile rewrites').match' (trimDot (lower (present w.labels))))) ↔
        Straight (rewritesAt rewrites (folded w.labels)) (folded w.labels)) := by
    intro rewrites' hp
    rw [lower_present, match_rewrites (fun r hr => h.names r (hp.mem_iff.2 hr)), rewritesAt_perm hp]
    exact findSome?_cuts_iff rewritesAt_inj
  constructor
  · intro hsel
    obtain ⟨s, hs, hz⟩ := hsel.zone zs (List.Perm.refl zs)
    exact ⟨(hzone zs s (List.Perm.refl zs) hs).1 hz, (hrule rules ∅ (List.Perm.refl _)).1 (hsel.rule rules ∅ (List.Perm.refl _)),
      (hrewrite rewrites (List.Perm.refl _)).1 (hsel.rewrite rewrites (List.Perm.refl _))⟩
  · rintro ⟨h1, h2, h3⟩
    constructor
    · intro zs' hp
      obtain ⟨s, hs⟩ := h.zones
      obtain ⟨s', hs'⟩ := compile_perm hs hp
      exact ⟨s', hs', (hzone zs' s' hp hs').2 h1⟩
    · exact fun rules' prev hp => (hrule rules' prev hp).2 h2
    · exact fun rewrites' hp => (hrewrite rewrites' hp).2 h3

/-! ### A domain, a name below it and a name beside it -/

namespace Corp

def lib : Miekg := .ideal []

def zones : List Zones.Zone :=
  [{ id := 1, name := "b.example".toList, primaryNS := [], contact := [], revision := 1, records := [] }]

def rules : List Forwarding.Rule := [⟨1, "b.example".toList, ["10.0.0.1".toList], true, []⟩]

def options : Forwarding.Options Unit := { retries := 0, newHealth := fun _ => ⟨fun _ s => (true, s), fun _ _ s => s⟩ }

def rewrites : List Rewrites.Rule := [⟨1, "*.b.example".toList, "A".toList, "192.0.2.1".toList, true, []⟩]

/-- The name `www.b.example`. -/
def below : WireName := ⟨[[119, 119, 119], [98], [101, 120, 97, 109, 112, 108, 101]], by decide, by decide⟩

/-- The name `a.b` of `example`, which is written with an escaped dot. -/
def beside : WireName := ⟨[[97, 46, 98], [101, 120, 97, 109, 112, 108, 101]], by decide, by decide⟩

theorem accepted : Accepted lib zones rules rewrites where
  zones := by
    have hok : (Zones.compile lib zones).toOption.isSome = true := by decide +kernel
    obtain ⟨s, hs⟩ := Option.isSome_iff_exists.1 hok
    exact ⟨s, Loops.eq_ok_of_toOption hs⟩
  domains := by decide
  distinct := by decide
  names := by decide

end Corp

theorem selectsByLabels_below :
    SelectsByLabels Corp.lib Corp.options Corp.zones Corp.rules Corp.rewrites Corp.below :=
  (selectsByLabels_iff Corp.options Corp.accepted Corp.below).2
    ⟨straight_of_no_dot (by decide), straight_of_no_dot (by decide), straight_of_no_dot (by decide)⟩

/-- A name of `example` is answered as one of `b.example`. -/
theorem selects_beside : Accepted Corp.lib Corp.zones Corp.rules Corp.rewrites ∧
    ¬ SelectsByLabels Corp.lib Corp.options Corp.zones Corp.rules Corp.rewrites Corp.beside := by
  refine ⟨Corp.accepted, fun h => ?_⟩
  obtain ⟨s, hs, hsel⟩ := h.zone Corp.zones (List.Perm.refl _)
  rw [lower_present, find_zone hs, selected_iff] at hsel
  revert hsel
  decide +kernel

end Velora.Dns
