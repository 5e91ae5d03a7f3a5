import Velora.Zones.Snapshot

/-!
# Rewrites and the local layer

`internal/rewrites`: the table of enabled rules, the rule or rules that cover a name, the answer built from them, and the
local layer of the resolver, in which rewrites answer before the zones.
-/

namespace Velora.Rewrites

open Velora.Lib Velora.Lib.Text Velora.Lib.Ip Velora.Wire Velora.Dns

def answerTTL : UInt32 := 300

structure Rule where
  id : ℤ
  name : Str
  type : Str
  value : Str
  enabled : Bool
  description : Str
  deriving DecidableEq

structure Table where
  exact : Map Str (List Rule) := ∅
  /-- keyed by the parent domain -/
  wildcard : Map Str (List Rule) := ∅

/-- `m[k] = append(m[k], rule)`. -/
def appendRule (m : Map Str (List Rule)) (k : Str) (rule : Rule) : Map Str (List Rule) :=
  m.insert k ((m.lookup k).getD [] ++ [rule])

/-- `compile`. -/
def compile (rules : List Rule) : Table :=
  (rules.filter Rule.enabled).foldl (fun t rule =>
    match cutPrefix "*.".toList rule.name with
    | some parent => { t with wildcard := appendRule t.wildcard parent rule }
    | none => { t with exact := appendRule t.exact rule.name rule }) {}

/-- `match`: an exact rule beats every wildcard, and the wildcard with the longest parent wins. -/
def Table.match' (t : Table) (name : Str) : List Rule :=
  match t.exact.lookup name with
  | some rules => rules
  | none => ((dotTails name).findSome? t.wildcard.lookup).getD []

/-- The answer the rules give to a question: a CNAME rule ends the loop and stands alone. -/
def answers (question : Question) : List Rule → List RR → List RR
  | [], acc => acc
  | rule :: rest, acc =>
    let header : Header := ⟨question.name, classINET, answerTTL⟩
    if rule.type = "CNAME".toList then [⟨header, .cname (fqdn rule.value)⟩]
    else if rule.type = "A".toList ∧ question.qtype = typeA then
      answers question rest (acc ++ [⟨header, .a ((parseAddr rule.value).getD [])⟩])
    else if rule.type = "AAAA".toList ∧ question.qtype = typeAAAA then
      answers question rest (acc ++ [⟨header, .aaaa ((parseAddr rule.value).getD [])⟩])
    else answers question rest acc

/-- `rewrite`: the answer and the rules that covered the name. -/
def Table.rewrite (t : Table) (q : Msg) : Option (Msg × List Rule) :=
  if q.question.length ≠ 1 ∨ q.question0.qclass ≠ classINET then none
  else
    let rules := t.match' (trimDot (lower q.question0.name))
    if rules = [] then none
    else some ({ setReply q with recursionAvailable := true, answer := answers q.question0 rules [] }, rules)

/-! ### The local layer -/

/-- `Local`, with the tables its services hold. -/
structure Local where
  rewrites : Option Table
  next : Option Zones.Snapshot

/-- `lookup`, which both `Lookup` and `ExplainLocal` are. -/
def Local.lookup (l : Local) (q : Msg) : Option LocalMatch :=
  match l.rewrites.bind (fun t => t.rewrite q) with
  | some (m, rules) =>
    some ⟨m, .rewrite, rules.map (fun rule => ⟨rule.id, rule.name, rule.type ++ ' ' :: rule.value⟩)⟩
  | none =>
    match l.next with
    | none => none
    | some zones =>
      match zones.lookup q with
      | none => none
      | some m => some ⟨m, .zone, ((zones.zoneFor q.question0.name).map (fun z => ⟨0, trimDot z, []⟩)).toList⟩

/-- A rewrite is the answer of the rules that cover the name. -/
theorem Table.rewrite_eq_some {t : Table} {q m : Msg} {rules : List Rule} (h : t.rewrite q = some (m, rules)) :
    (q.question.length = 1 ∧ q.question0.qclass = classINET) ∧ rules = t.match' (trimDot (lower q.question0.name)) ∧
      rules ≠ [] ∧ m = { setReply q with recursionAvailable := true, answer := answers q.question0 rules [] } := by
  simp only [Table.rewrite] at h
  split at h
  · cases h
  rename_i hq
  split at h
  · cases h
  rename_i hrules
  simp only [Option.some.injEq, Prod.mk.injEq] at h
  obtain ⟨rfl, rfl⟩ := h
  exact ⟨by simpa using hq, rfl, hrules, rfl⟩

/-- A local answer is a rewrite, or else what the chase through the zones gives. -/
theorem Local.lookup_cases {l : Local} {q : Msg} {found : LocalMatch} (h : l.lookup q = some found) :
    (q.question.length = 1 ∧ q.question0.qclass = classINET) ∧
      (found.stage = .rewrite ∧ (∃ t rules, l.rewrites = some t ∧ t.rewrite q = some (found.msg, rules)) ∨
        found.stage = .zone ∧ l.rewrites.bind (fun t => t.rewrite q) = none ∧
          ∃ s v, l.next = some s ∧ s.find (lower q.question0.name) = some v ∧
            found.msg = s.chase q.question0.qtype 16 (lower q.question0.name)
              { setReply q with authoritative := true, recursionAvailable := true }) := by
  unfold Local.lookup at h
  split at h
  · rename_i m rules hrw
    cases h
    obtain ⟨t, hl, ht⟩ := Option.bind_eq_some_iff.1 hrw
    exact ⟨(Table.rewrite_eq_some ht).1, Or.inl ⟨rfl, t, rules, hl, ht⟩⟩
  rename_i hrw
  split at h
  · cases h
  rename_i s hs
  split at h
  · cases h
  rename_i m hm
  cases h
  have hq : q.question.length = 1 ∧ q.question0.qclass = classINET := by
    by_contra hno
    have hnone : s.lookup q = none := if_pos (not_and_or.1 hno)
    rw [hnone] at hm
    cases hm
  rw [Zones.Snapshot.lookup_eq hq] at hm
  obtain ⟨v, hv, hmsg⟩ := Option.map_eq_some_iff.1 hm
  exact ⟨hq, Or.inr ⟨rfl, hrw, s, v, hs, hv, hmsg.symm⟩⟩

/-- A name that a rewrite covers is answered by the rewrite. -/
theorem Local.lookup_rewrite {l : Local} {q m : Msg} {rules : List Rule}
    (h : l.rewrites.bind (fun t => t.rewrite q) = some (m, rules)) : ∃ found, l.lookup q = some found ∧ found.msg = m := by
  unfold Local.lookup
  rw [h]
  exact ⟨_, rfl, rfl⟩

/-- A name that no rewrite covers is answered by the zone that encloses it. -/
theorem Local.lookup_zone {l : Local} {q : Msg} {s : Zones.Snapshot} {v : Zones.View}
    (hq : q.question.length = 1 ∧ q.question0.qclass = classINET)
    (hrw : l.rewrites.bind (fun t => t.rewrite q) = none) (hs : l.next = some s)
    (hv : s.find (lower q.question0.name) = some v) :
    ∃ found, l.lookup q = some found ∧ found.msg = s.chase q.question0.qtype 16 (lower q.question0.name)
      { setReply q with authoritative := true, recursionAvailable := true } := by
  have hlookup := Zones.Snapshot.lookup_eq (s := s) hq
  rw [hv] at hlookup
  unfold Local.lookup
  rw [hrw, hs]
  simp only [hlookup, Option.map_some]
  exact ⟨_, rfl, rfl⟩

/-- The rules give an alias, which is then the whole answer, or records that are no aliases. -/
theorem answers_cases (question : Question) (rules : List Rule) (acc : List RR) (hacc : ∀ rr ∈ acc, rr.cname? = none) :
    (∀ rr ∈ answers question rules acc, rr.cname? = none) ∨
      ∃ rr target, answers question rules acc = [rr] ∧ rr.cname? = some target := by
  induction rules generalizing acc with
  | nil => exact Or.inl hacc
  | cons rule rest ih =>
    have hsnoc : ∀ rr : RR, rr.cname? = none → ∀ x ∈ acc ++ [rr], x.cname? = none := by
      intro rr hrr x hx
      rcases List.mem_append.1 hx with hx | hx
      · exact hacc x hx
      · rwa [List.mem_singleton.1 hx]
    rw [answers]
    split
    · exact Or.inr ⟨_, _, rfl, rfl⟩
    split
    · exact ih _ (hsnoc _ rfl)
    split
    · exact ih _ (hsnoc _ rfl)
    · exact ih acc hacc

end Velora.Rewrites
