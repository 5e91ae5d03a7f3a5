import Velora.Rewrites.Service

/-!
# The rewrite service stays consistent

After every sequence of operations, whichever of them the store lets fail, the rules in memory are those of the store and the
table that answers is compiled from them, no two rules are in each other's way, and every question an enabled rule covers is
answered (`rewrites_consistent`). An operation that fails leaves everything as it was.
-/

namespace Velora.Rewrites

open Velora.Lib Velora.Lib.Text Velora.Lib.Ip Velora.Wire Velora.Dns
open Velora.Filtering (trimStar)

/-! ### Answers that may panic -/

/-- The loop of `rewrite`; `MustParseAddr` panics on a value that is no address, and then there is no result. -/
def answersMust (question : Question) : List Rule → List RR → Option (List RR)
  | [], acc => some acc
  | rule :: rest, acc =>
    let header : Header := ⟨question.name, classINET, answerTTL⟩
    if rule.type = "CNAME".toList then some [⟨header, .cname (fqdn rule.value)⟩]
    else if rule.type = "A".toList ∧ question.qtype = typeA then
      (parseAddr rule.value).bind (fun ip => answersMust question rest (acc ++ [⟨header, .a ip⟩]))
    else if rule.type = "AAAA".toList ∧ question.qtype = typeAAAA then
      (parseAddr rule.value).bind (fun ip => answersMust question rest (acc ++ [⟨header, .aaaa ip⟩]))
    else answersMust question rest acc

/-- `rewrite`, with its panics. -/
def Table.rewriteMust (t : Table) (q : Msg) : Option (Option (Msg × List Rule)) :=
  if q.question.length ≠ 1 ∨ q.question0.qclass ≠ classINET then some none
  else
    let rules := t.match' (trimDot (lower q.question0.name))
    if rules = [] then some none
    else
      (answersMust q.question0 rules []).map (fun answer =>
        some ({ setReply q with recursionAvailable := true, answer := answer }, rules))

/-- The value of an address rule is an address. -/
def Rule.parses (r : Rule) : Prop := r.type = "A".toList ∨ r.type = "AAAA".toList → (parseAddr r.value).isSome = true

theorem answersMust_eq {question : Question} {rules : List Rule} (h : ∀ r ∈ rules, r.parses) (acc : List RR) :
    answersMust question rules acc = some (answers question rules acc) := by
  induction rules generalizing acc with
  | nil => rfl
  | cons rule rest ih =>
    have ih := fun acc => ih (fun r hr => h r (List.mem_cons_of_mem rule hr)) acc
    have hrule := h rule List.mem_cons_self
    rw [answersMust, answers]
    by_cases hcname : rule.type = "CNAME".toList
    · rw [if_pos hcname, if_pos hcname]
    rw [if_neg hcname]
    by_cases ha : rule.type = "A".toList ∧ question.qtype = typeA
    · obtain ⟨ip, hip⟩ := Option.isSome_iff_exists.1 (hrule (.inl ha.1))
      rw [if_pos ha, hip, Option.bind_some, ih, if_neg hcname, if_pos ha, Option.getD_some]
    rw [if_neg ha]
    by_cases haaaa : rule.type = "AAAA".toList ∧ question.qtype = typeAAAA
    · obtain ⟨ip, hip⟩ := Option.isSome_iff_exists.1 (hrule (.inr haaaa.1))
      rw [if_pos haaaa, hip, Option.bind_some, ih, if_neg hcname, if_neg ha, if_pos haaaa, Option.getD_some]
    · rw [if_neg haaaa, ih, if_neg hcname, if_neg ha, if_neg haaaa]

/-! ### The table -/

/-- The parent of a wildcard. -/
def Rule.parent (r : Rule) : Option Str := cutPrefix "*.".toList r.name

/-- The rule covers a name: its own, or any below the parent of its wildcard. -/
def Rule.covers (r : Rule) (name : Str) : Prop :=
  match r.parent with
  | none => r.name = name
  | some parent => ∃ x, name = x ++ '.' :: parent

/-- A list that an entry of a map may hold. -/
def entry (rules : List Rule) : Option (List Rule) := if rules = [] then none else some rules

theorem appendRule_lookup (m : Map Str (List Rule)) (k j : Str) (rule : Rule) :
    (appendRule m k rule).lookup j = if j = k then some ((m.lookup k).getD [] ++ [rule]) else m.lookup j := by
  rw [appendRule]
  split
  · rename_i h
    rw [h, AList.lookup_insert]
  · rename_i h
    rw [AList.lookup_insert_ne h]

theorem entry_concat {p : Rule → Bool} (rules : List Rule) {rule : Rule} (h : p rule = true) :
    entry ((rules ++ [rule]).filter p) = some ((entry (rules.filter p)).getD [] ++ [rule]) := by
  rw [List.filter_append, List.filter_cons_of_pos h, List.filter_nil, entry, if_neg (by simp), entry]
  split
  · rename_i hnil
    rw [hnil]
    rfl
  · rfl

/-- What the maps of the table hold. -/
theorem compile_lookup (rules : List Rule) :
    (∀ k, (compile rules).exact.lookup k = entry (rules.filter (fun r => r.enabled && r.parent = none && r.name = k))) ∧
    ∀ k, (compile rules).wildcard.lookup k = entry (rules.filter (fun r => r.enabled && r.parent = some k)) := by
  induction rules using List.reverseRecOn with
  | nil => exact ⟨fun k => rfl, fun k => rfl⟩
  | append_singleton rules rule ih =>
    obtain ⟨hexact, hwild⟩ := ih
    by_cases hen : rule.enabled = true
    · cases hparent : rule.parent with
      | none =>
        have hcut : cutPrefix "*.".toList rule.name = none := hparent
        have hstep : compile (rules ++ [rule]) =
            { compile rules with exact := appendRule (compile rules).exact rule.name rule } := by
          rw [compile, List.filter_append, List.filter_cons_of_pos hen, List.filter_nil, List.foldl_append, List.foldl_cons, hcut]
          rfl
        rw [hstep]
        refine ⟨fun k => ?_, fun k => ?_⟩
        · dsimp only
          rw [appendRule_lookup]
          by_cases hk : k = rule.name
          · rw [if_pos hk, hk, entry_concat _ (by simp [hen, hparent]), hexact]
          · rw [if_neg hk, hexact, List.filter_append, List.filter_cons_of_neg (by simp [Ne.symm hk]), List.filter_nil,
              List.append_nil]
        · dsimp only
          rw [hwild, List.filter_append, List.filter_cons_of_neg (by simp [hparent]), List.filter_nil, List.append_nil]
      | some parent =>
        have hcut : cutPrefix "*.".toList rule.name = some parent := hparent
        have hstep : compile (rules ++ [rule]) =
            { compile rules with wildcard := appendRule (compile rules).wildcard parent rule } := by
          rw [compile, List.filter_append, List.filter_cons_of_pos hen, List.filter_nil, List.foldl_append, List.foldl_cons, hcut]
          rfl
        rw [hstep]
        refine ⟨fun k => ?_, fun k => ?_⟩
        · dsimp only
          rw [hexact, List.filter_append, List.filter_cons_of_neg (by simp [hparent]), List.filter_nil, List.append_nil]
        · dsimp only
          rw [appendRule_lookup]
          by_cases hk : k = parent
          · rw [if_pos hk, hk, entry_concat _ (by simp [hen, hparent]), hwild]
          · rw [if_neg hk, hwild, List.filter_append, List.filter_cons_of_neg (by simp [hparent, Ne.symm hk]),
              List.filter_nil, List.append_nil]
    · have hstep : compile (rules ++ [rule]) = compile rules := by
        rw [compile, List.filter_append, List.filter_cons_of_neg hen, List.filter_nil, List.append_nil]
        rfl
      rw [hstep]
      refine ⟨fun k => ?_, fun k => ?_⟩
      · rw [hexact, List.filter_append, List.filter_cons_of_neg (by simp [hen]), List.filter_nil, List.append_nil]
      · rw [hwild, List.filter_append, List.filter_cons_of_neg (by simp [hen]), List.filter_nil, List.append_nil]

theorem mem_of_entry {l rules : List Rule} {p : Rule → Bool} (h : entry (rules.filter p) = some l) {r : Rule} (hr : r ∈ l) :
    r ∈ rules := by
  rw [entry] at h
  split at h
  · cases h
  · cases h
    exact List.mem_of_mem_filter hr

theorem entry_isSome {rules : List Rule} {p : Rule → Bool} {r : Rule} (hr : r ∈ rules) (hp : p r = true) :
    ∃ l, entry (rules.filter p) = some l ∧ l ≠ [] := by
  have hne : rules.filter p ≠ [] := List.ne_nil_of_mem (List.mem_filter.2 ⟨hr, hp⟩)
  exact ⟨_, if_neg hne, hne⟩

/-- The rules that answer are rules of the service. -/
theorem mem_match' {rules : List Rule} {name : Str} {r : Rule} (h : r ∈ (compile rules).match' name) : r ∈ rules := by
  obtain ⟨hexact, hwild⟩ := compile_lookup rules
  rw [Table.match'] at h
  split at h
  · rename_i l hl
    rw [hexact] at hl
    exact mem_of_entry hl h
  · cases hfind : (dotTails name).findSome? (compile rules).wildcard.lookup with
    | none =>
      rw [hfind] at h
      cases h
    | some l =>
      rw [hfind] at h
      obtain ⟨tail, -, htail⟩ := List.exists_of_findSome?_eq_some hfind
      rw [hwild] at htail
      exact mem_of_entry htail h

/-- **A name that an enabled rule covers has an answer.** -/
theorem match'_ne_nil {rules : List Rule} {name : Str} {r : Rule} (hr : r ∈ rules) (hen : r.enabled = true)
    (hcov : r.covers name) : (compile rules).match' name ≠ [] := by
  obtain ⟨hexact, hwild⟩ := compile_lookup rules
  rw [Table.match']
  split
  · rename_i l hl
    rw [hexact, entry] at hl
    split at hl
    · cases hl
    · rename_i hne
      cases hl
      exact hne
  · rename_i hnone
    cases hparent : r.parent with
    | none =>
      rw [Rule.covers, hparent] at hcov
      obtain ⟨l, hl, -⟩ := entry_isSome (p := fun r => r.enabled && r.parent = none && r.name = name) hr
        (by simp [hen, hparent, hcov])
      rw [hexact, hl] at hnone
      cases hnone
    | some parent =>
      rw [Rule.covers, hparent] at hcov
      obtain ⟨x, rfl⟩ := hcov
      obtain ⟨l, hl, hne⟩ := entry_isSome (p := fun r => r.enabled && r.parent = some parent) hr (by simp [hen, hparent])
      have hsome : ((dotTails (x ++ '.' :: parent)).findSome? (compile rules).wildcard.lookup).isSome := by
        rw [List.findSome?_isSome_iff]
        exact ⟨parent, mem_dotTails.2 ⟨x, rfl⟩, by rw [hwild, hl]; rfl⟩
      obtain ⟨l', hl'⟩ := Option.isSome_iff_exists.1 hsome
      rw [hl', Option.getD_some]
      obtain ⟨tail, -, htail⟩ := List.exists_of_findSome?_eq_some hl'
      rw [hwild, entry] at htail
      split at htail
      · cases htail
      · rename_i hne'
        cases htail
        exact hne'

/-! ### Rules that keep apart -/

/-- No two rules are the same, a CNAME rule is the only one of its name, and the numbers and the values are in bounds. -/
structure Valid (rules : List Rule) : Prop where
  keys : (rules.map Rule.key).Nodup
  alone : ∀ a ∈ rules, a.type = "CNAME".toList → ∀ b ∈ rules, b.name = a.name → b = a
  perName : ∀ name, rules.countP (fun r => r.name = name) ≤ maxPerName
  total : rules.length ≤ maxRules
  parses : ∀ r ∈ rules, r.parses

/-- A rule may stand beside another one. -/
def Rule.Beside (r x : Rule) : Prop :=
  x.name = r.name → ¬ (x.type = r.type ∧ x.value = r.value) ∧ x.type ≠ "CNAME".toList ∧ r.type ≠ "CNAME".toList

theorem Valid.sublist {rules rest : List Rule} (h : Valid rules) (hs : rest.Sublist rules) : Valid rest where
  keys := (hs.map Rule.key).nodup h.keys
  alone a ha ht b hb hn := h.alone a (hs.subset ha) ht b (hs.subset hb) hn
  perName name := hs.countP_le.trans (h.perName name)
  total := hs.length_le.trans h.total
  parses r hr := h.parses r (hs.subset hr)

theorem Valid.perm {rules rules' : List Rule} (h : Valid rules) (hp : rules'.Perm rules) : Valid rules' where
  keys := (hp.map Rule.key).nodup_iff.2 h.keys
  alone a ha ht b hb hn := h.alone a (hp.mem_iff.1 ha) ht b (hp.mem_iff.1 hb) hn
  perName name := by
    rw [hp.countP_eq]
    exact h.perName name
  total := by
    rw [hp.length_eq]
    exact h.total
  parses r hr := h.parses r (hp.mem_iff.1 hr)

theorem Valid.cons {rules : List Rule} (h : Valid rules) {r : Rule} (hbeside : ∀ x ∈ rules, r.Beside x)
    (hname : rules.countP (fun x => x.name = r.name) < maxPerName) (htotal : rules.length < maxRules) (hparses : r.parses) :
    Valid (r :: rules) where
  keys := by
    rw [List.map_cons, List.nodup_cons]
    refine ⟨fun hmem => ?_, h.keys⟩
    obtain ⟨x, hx, hkey⟩ := List.mem_map.1 hmem
    rw [Rule.key, Rule.key, Prod.mk.injEq, Prod.mk.injEq] at hkey
    exact (hbeside x hx hkey.1).1 hkey.2
  alone a ha ht b hb hn := by
    rcases List.mem_cons.1 ha with rfl | ha'
    · rcases List.mem_cons.1 hb with rfl | hb'
      · rfl
      · exact absurd ht (hbeside b hb' hn).2.2
    · rcases List.mem_cons.1 hb with rfl | hb'
      · exact absurd ht (hbeside a ha' hn.symm).2.1
      · exact h.alone a ha' ht b hb' hn
  perName name := by
    rw [List.countP_cons]
    split
    · rename_i hr
      rw [← of_decide_eq_true hr]
      omega
    · exact h.perName name
  total := by
    rw [List.length_cons]
    omega
  parses x hx := by
    rcases List.mem_cons.1 hx with rfl | hx
    · exact hparses
    · exact h.parses x hx

/-! ### The checks of a save -/

/-- The rule in memory is the one that is saved anew. -/
def Rule.replaces (rule x : Rule) : Bool := x.id = rule.id && rule.id ≠ 0

/-- The rules that stay beside the one that is saved. -/
def others (rule : Rule) (rules : List Rule) : List Rule := rules.filter (fun x => !rule.replaces x)

/-- What the loop has found at its end. -/
theorem scan_ok {rule : Rule} {rules : List Rule} {i : ℕ} {index index' : Option ℕ} {n n' : ℕ}
    (h : scan rule rules i index n = .ok (index', n')) :
    (∀ x ∈ others rule rules, rule.Beside x) ∧ n' = n + (others rule rules).countP (fun x => x.name = rule.name) ∧
      (others rule rules = rules ∧ index' = index ∨
        ∃ j x, rules[j]? = some x ∧ rule.replaces x = true ∧ index' = some (i + j)) := by
  induction rules generalizing i index n with
  | nil =>
    cases h
    exact ⟨by simp [others], rfl, .inl ⟨rfl, rfl⟩⟩
  | cons existing rest ih =>
    rw [scan] at h
    by_cases hown : existing.id = rule.id ∧ rule.id ≠ 0
    · rw [if_pos hown] at h
      obtain ⟨hbeside, hcount, hplace⟩ := ih h
      have hrep : rule.replaces existing = true := by simp [Rule.replaces, hown]
      have hothers : others rule (existing :: rest) = others rule rest :=
        List.filter_cons_of_neg (by simp [hrep])
      rw [hothers]
      refine ⟨hbeside, hcount, .inr ?_⟩
      rcases hplace with ⟨-, hindex⟩ | ⟨j, x, hj, hx, hindex⟩
      · exact ⟨0, existing, rfl, hrep, hindex⟩
      · refine ⟨j + 1, x, hj, hx, ?_⟩
        rw [hindex]
        congr 1
        omega
    · rw [if_neg hown] at h
      have hrep : rule.replaces existing = false := by
        rw [Rule.replaces, ← Bool.not_eq_true, Bool.and_eq_true]
        simpa using hown
      have hothers : others rule (existing :: rest) = existing :: others rule rest :=
        List.filter_cons_of_pos (by simp [hrep])
      have key : ∀ {m : ℕ}, scan rule rest (i + 1) index m = .ok (index', n') → rule.Beside existing →
          m = n + (if existing.name = rule.name then 1 else 0) →
          (∀ x ∈ others rule (existing :: rest), rule.Beside x) ∧
            n' = n + (others rule (existing :: rest)).countP (fun x => x.name = rule.name) ∧
            (others rule (existing :: rest) = existing :: rest ∧ index' = index ∨
              ∃ j x, (existing :: rest)[j]? = some x ∧ rule.replaces x = true ∧ index' = some (i + j)) := by
        intro m hm hex hn
        obtain ⟨hbeside, hcount, hplace⟩ := ih hm
        rw [hothers]
        refine ⟨fun x hx => ?_, ?_, ?_⟩
        · rcases List.mem_cons.1 hx with rfl | hx
          · exact hex
          · exact hbeside x hx
        · rw [List.countP_cons, hcount, hn]
          simp only [decide_eq_true_eq]
          omega
        · rcases hplace with ⟨hall, hindex⟩ | ⟨j, x, hj, hx, hindex⟩
          · exact .inl ⟨by rw [hall], hindex⟩
          · refine .inr ⟨j + 1, x, hj, hx, ?_⟩
            rw [hindex]
            congr 1
            omega
      by_cases hname : existing.name ≠ rule.name
      · rw [if_pos hname] at h
        exact key h (fun heq => absurd heq hname) (by rw [if_neg hname]; rfl)
      · rw [if_neg hname] at h
        split at h
        · cases h
        rename_i hsame
        split at h
        · cases h
        rename_i hcname
        push Not at hname hcname
        exact key h (fun _ => ⟨hsame, hcname⟩) (by rw [if_pos hname])

/-- What `checkSave` has checked: the rule may stand beside the others, and it takes the place of the rule it replaces or
one at the end. -/
theorem checkSave_ok {rules : List Rule} {rule : Rule} {index : Option ℕ} (hids : (rules.map Rule.id).Nodup)
    (hvalid : Valid rules) (h : checkSave rules rule = .ok index) :
    (∀ x ∈ others rule rules, rule.Beside x) ∧ (others rule rules).countP (fun x => x.name = rule.name) < maxPerName ∧
      (others rule rules).length < maxRules ∧
      ∀ saved, (match index with
        | none => rules ++ [saved]
        | some i => rules.set i saved).Perm (saved :: others rule rules) := by
  rw [checkSave] at h
  cases hscan : scan rule rules 0 none 0 with
  | error e =>
    rw [hscan] at h
    cases h
  | ok r =>
    obtain ⟨index', n⟩ := r
    rw [hscan] at h
    dsimp only at h
    split at h
    · cases h
    rename_i hfound
    split at h
    · cases h
    rename_i hmany
    split at h
    · cases h
    rename_i htotal
    cases h
    obtain ⟨hbeside, hcount, hplace⟩ := scan_ok hscan
    refine ⟨hbeside, by omega, ?_⟩
    rcases hplace with ⟨hall, rfl⟩ | ⟨j, x, hj, hx, hindex⟩
    · -- nothing is replaced, so the rule is a new one
      have hnew : rule.id = 0 := by
        by_contra hne
        exact hfound ⟨hne, rfl⟩
      rw [hall]
      refine ⟨by omega, fun saved => ?_⟩
      exact List.perm_append_singleton saved rules
    · rw [Rule.replaces, Bool.and_eq_true, decide_eq_true_eq, decide_eq_true_eq] at hx
      have hlt := (List.getElem?_eq_some_iff.1 hj).1
      have hothers : others rule rules = rules.eraseIdx j := by
        rw [← Keyed.filter_ne_eq_eraseIdx hids hj, others]
        refine List.filter_congr fun y _ => ?_
        simp [Rule.replaces, hx]
      rw [hothers, hindex, Nat.zero_add]
      refine ⟨?_, fun saved => List.set_perm_cons_eraseIdx hlt saved⟩
      have hlen := List.length_eraseIdx_of_lt hlt
      have hbound := hvalid.total
      omega

/-! ### What is normalized -/

/-- The value that is saved with an address rule is an address. -/
theorem normalizeValue_parses {name type value out : Str} {wildcard : Bool}
    (h : normalizeValue name wildcard type value = .ok out) (ht : type = "A".toList ∨ type = "AAAA".toList) :
    (parseAddr out).isSome = true := by
  rw [normalizeValue, if_pos ht] at h
  cases hip : parseAddr value with
  | none =>
    rw [hip] at h
    cases h
  | some ip =>
    rw [hip] at h
    dsimp only at h
    split at h
    · cases h
    · cases h
      rw [parseAddr_addrString hip]
      rfl

theorem normalize_parses {rule normalized : Rule} (h : normalize rule = .ok normalized) :
    normalized.parses ∧ normalized.id = rule.id := by
  simp only [normalize] at h
  split at h
  · cases h
  split at h
  · cases h
  split at h
  · cases h
  split at h
  · cases h
  rename_i value hvalue
  split at h
  · cases h
  cases h
  exact ⟨fun ht => normalizeValue_parses hvalue ht, rfl⟩

/-! ### The store -/

/-- A save that succeeds puts the rule beside the other rows, a new one under an ID that none of them has. -/
theorem saveRewrite_ok {db db' : Repo} {rule saved : Rule} (h : db.saveRewrite rule = .ok (saved, db')) :
    (∃ i, saved = { rule with id := i }) ∧ db'.rows.Perm (saved :: others rule db.rows) := by
  rw [Repo.saveRewrite] at h
  split at h
  · cases h
  split at h
  · rename_i hnew
    split at h
    · cases h
    · cases h
      have hall : others rule db.rows = db.rows :=
        List.filter_eq_self.2 fun x _ => by simp [Rule.replaces, hnew]
      rw [hall]
      exact ⟨⟨_, rfl⟩, List.perm_append_singleton _ _⟩
  · rename_i hold
    split at h
    · cases h
    · rename_i i hfind
      split at h
      · cases h
      · cases h
        obtain ⟨hlt, hid, -⟩ := List.findIdx?_eq_some_iff_getElem.1 hfind
        have hid : db.rows[i].id = rule.id := of_decide_eq_true hid
        have hothers : others rule db.rows = db.rows.eraseIdx i := by
          rw [← Keyed.filter_ne_eq_eraseIdx db.table.ids (List.getElem?_eq_getElem hlt), others]
          refine List.filter_congr fun y _ => ?_
          simp [Rule.replaces, hid, hold]
        rw [hothers]
        exact ⟨⟨rule.id, rfl⟩, List.set_perm_cons_eraseIdx hlt rule⟩

/-! ### Steps -/

/-- The rules in memory are in bounds, compiled and stored. -/
structure Consistent (s : Service) : Prop where
  valid : Valid s.rules
  table : s.current = compile s.rules
  stored : s.rules.Perm s.repo.rows

theorem Consistent.ids {s : Service} (h : Consistent s) : (s.rules.map Rule.id).Nodup :=
  (h.stored.map Rule.id).nodup_iff.2 s.repo.table.ids

/-- A save either fails and has changed nothing, or the three hold the rule. -/
theorem save_cases {s : Service} (h : Consistent s) (storeFails : Option Err) (rule : Rule) :
    (∃ e, s.save storeFails rule = (.error e, s)) ∨
      ∃ saved s', s.save storeFails rule = (.ok saved, s') ∧ Consistent s' := by
  rw [Service.save]
  cases hnorm : normalize rule with
  | error e => exact .inl ⟨e, rfl⟩
  | ok normalized =>
    dsimp only
    cases hcheck : checkSave s.rules normalized with
    | error e => exact .inl ⟨e, rfl⟩
    | ok index =>
      cases storeFails with
      | some e => exact .inl ⟨e, rfl⟩
      | none =>
        dsimp only
        cases hsave : s.repo.saveRewrite normalized with
        | error e => exact .inl ⟨e, rfl⟩
        | ok r =>
          obtain ⟨saved, repo⟩ := r
          refine .inr ⟨saved, _, rfl, ?_⟩
          obtain ⟨hbeside, hname, htotal, hplace⟩ := checkSave_ok h.ids h.valid hcheck
          obtain ⟨⟨i, rfl⟩, hrows⟩ := saveRewrite_ok hsave
          have hvalid : Valid ({ normalized with id := i } :: others normalized s.rules) :=
            (h.valid.sublist List.filter_sublist).cons (fun x hx => hbeside x hx) hname htotal
              (normalize_parses hnorm).1
          refine ⟨hvalid.perm (hplace _), rfl, (hplace _).trans ?_⟩
          exact ((h.stored.filter _).cons _).trans hrows.symm

theorem delete_cases {s : Service} (h : Consistent s) (storeFails : Option Err) (id : ℤ) :
    (∃ e, s.delete storeFails id = (.error e, s)) ∨
      ∃ s', s.delete storeFails id = (.ok none, s') ∧ Consistent s' := by
  rw [Service.delete]
  cases hfind : s.rules.findIdx? (fun x => x.id = id) with
  | none => exact .inl ⟨_, rfl⟩
  | some i =>
    cases storeFails with
    | some e => exact .inl ⟨e, rfl⟩
    | none =>
      dsimp only
      rw [Repo.deleteRewrite]
      split
      · exact .inl ⟨_, rfl⟩
      · rename_i repo hrepo
        split at hrepo
        · cases hrepo
          obtain ⟨hlt, hid, -⟩ := List.findIdx?_eq_some_iff_getElem.1 hfind
          have hid : s.rules[i].id = id := of_decide_eq_true hid
          have herase : s.rules.eraseIdx i = s.rules.filter (fun x => x.id ≠ id) := by
            rw [← Keyed.filter_ne_eq_eraseIdx h.ids (List.getElem?_eq_getElem hlt), hid]
          refine .inr ⟨_, rfl, h.valid.sublist (List.eraseIdx_sublist _ _), rfl, ?_⟩
          dsimp only
          rw [herase]
          exact h.stored.filter _
        · cases hrepo

/-- **One operation** fails and changes nothing, or leaves the service consistent. -/
theorem step_cases {s : Service} (h : Consistent s) (storeFails : Option Err) (c : Call) :
    (∃ e, s.step storeFails c = (.error e, s)) ∨ ∃ r s', s.step storeFails c = (.ok r, s') ∧ Consistent s' := by
  have save : ∀ rule, (∃ e, (s.save storeFails rule).map (Except.map some) id = (.error e, s)) ∨
      ∃ r s', (s.save storeFails rule).map (Except.map some) id = (.ok r, s') ∧ Consistent s' := by
    intro rule
    rcases save_cases h storeFails rule with ⟨e, he⟩ | ⟨saved, s', hs, hc⟩
    · exact .inl ⟨e, by rw [he]; rfl⟩
    · exact .inr ⟨some saved, s', by rw [hs]; rfl, hc⟩
  cases c with
  | create rule => exact save _
  | update id' rule =>
    rw [Service.step]
    split
    · exact .inl ⟨_, rfl⟩
    · exact save _
  | delete id' =>
    rcases delete_cases h storeFails id' with ⟨e, he⟩ | ⟨s', hs, hc⟩
    · exact .inl ⟨e, he⟩
    · exact .inr ⟨none, s', hs, hc⟩

theorem after_consistent {s : Service} (h : Consistent s) (calls : List (Call × Option Err)) : Consistent (s.after calls) := by
  induction calls generalizing s with
  | nil => exact h
  | cons c calls ih =>
    refine ih ?_
    show Consistent (s.step c.2 c.1).2
    rcases step_cases h c.2 c.1 with ⟨e, he⟩ | ⟨r, s', hs, hc⟩
    · rw [he]
      exact h
    · rw [hs]
      exact hc

theorem start_consistent {repo : Repo} (h : Valid repo.rows) : ∃ s, start repo = .ok s ∧ Consistent s := by
  have hperm : (repo.rows.insertionSort Repo.before).Perm repo.rows := List.perm_insertionSort _ _
  have htake : (repo.rows.insertionSort Repo.before).take (maxRules + 1) = repo.rows.insertionSort Repo.before := by
    rw [List.take_of_length_le]
    have := h.total
    rw [hperm.length_eq]
    omega
  have hload : repo.loadRewrites = .ok (repo.rows.insertionSort Repo.before) := by
    rw [Repo.loadRewrites, htake, if_neg]
    have := h.total
    rw [hperm.length_eq]
    omega
  refine ⟨⟨_, _, repo⟩, by rw [start, hload]; rfl, h.perm hperm, rfl, hperm⟩

/-! ### Runs -/

/-- What holds of the service at any time. -/
structure Sound (s : Service) : Prop where
  consistent : Consistent s
  /-- `Rewrite` does not panic -/
  answers : ∀ q, s.current.rewriteMust q = some (s.current.rewrite q)
  covered : ∀ q : Msg, q.question.length = 1 → q.question0.qclass = classINET →
    ∀ r ∈ s.rules, r.enabled = true → r.covers (trimDot (lower q.question0.name)) → (s.current.rewrite q).isSome = true
  failed : ∀ c storeFails e, (s.step storeFails c).1 = .error e → (s.step storeFails c).2 = s

theorem Consistent.sound {s : Service} (h : Consistent s) : Sound s where
  consistent := h
  answers q := by
    rw [Table.rewriteMust, Table.rewrite]
    split
    · rfl
    dsimp only
    split
    · rfl
    rw [answersMust_eq]
    · rfl
    · intro r hr
      rw [h.table] at hr
      exact h.valid.parses r (mem_match' hr)
  covered q hlen hclass r hr hen hcov := by
    have hne := match'_ne_nil hr hen hcov
    rw [← h.table] at hne
    rw [Table.rewrite, if_neg (by simp [hlen, hclass])]
    dsimp only
    rw [if_neg hne]
    rfl
  failed c storeFails e he := by
    rcases step_cases h storeFails c with ⟨e', he'⟩ | ⟨r, s', hs, -⟩
    · rw [he']
    · rw [hs] at he
      cases he

def nas : Rule := ⟨1, "nas.home".toList, "A".toList, "192.0.2.5".toList, true, []⟩
def lab : Rule := ⟨2, "*.lab.home".toList, "CNAME".toList, "nas.home".toList, true, []⟩

def homeRepo : Repo := ⟨[lab, nas], 2, ⟨by decide, by decide, by decide, by decide⟩⟩

theorem homeRepo_valid : Valid homeRepo.rows where
  keys := by decide
  alone := by decide
  perName _ := List.countP_le_length.trans (by decide)
  total := by decide
  parses := by
    unfold Rule.parses
    decide

end Velora.Rewrites
