import Velora.Filtering.Lists

/-!
# What covers a name

`Attribute` of `internal/filtering/service.go`: the rules of the configuration and the lists that cover a name, each looked
up on its own. It reads the domains of a list as they are stored, without normalizing them; they are in the form in which
`ParseHosts` leaves them in every state of the service (`reachable_plain`), so that a list is named exactly when one of its
rules covers the name (`attribute_sources`).
-/

namespace Velora.Filtering

open Velora.Lib Velora.Lib.Text Velora.Lib.Loops

/-! ### The answers of the matcher -/

theorem scan_eq_allow {m : Matcher} {ds : List Str} {b : Bool} :
    m.scan ds b = (.allow, true) ↔ ∃ d ∈ ds, (m.rules.lookup ('*' :: d)).map Rule.action = some .allow := by
  induction ds generalizing b with
  | nil => cases b <;> simp [Matcher.scan]
  | cons d ds ih =>
    unfold Matcher.scan
    split
    · rename_i r hr
      by_cases ha : r.action = .allow
      · simp [ha, hr]
      · rw [if_neg ha, ih]
        simp [hr, ha]
    · rename_i hr
      rw [ih]
      simp [hr]

/-- A name is allowed when one of its keys says so. -/
theorem match_allow_keys {m : Matcher} {v n : Str} (hn : name v = some n) :
    m.match' v = (.allow, true) ↔ ∃ k ∈ keys n, (m.rules.lookup k).map Rule.action = some .allow := by
  have hex : (∃ k ∈ keys n, (m.rules.lookup k).map Rule.action = some .allow) ↔
      (m.rules.lookup ('=' :: n)).map Rule.action = some .allow ∨
        ∃ d ∈ n :: dotTails n, (m.rules.lookup ('*' :: d)).map Rule.action = some .allow := by
    simp [keys]
  rw [Matcher.match', hn, hex]
  dsimp only
  split
  · rename_i r hr
    by_cases ha : r.action = .allow
    · simp [ha, hr]
    · rw [if_neg ha, scan_eq_allow]
      simp [hr, ha]
  · rename_i hr
    rw [scan_eq_allow]
    simp [hr]

/-- **The allowing answer.** -/
theorem match_allow_iff {rules : List Rule} {m : Matcher} (h : new rules = some m) {v n : Str} (hn : name v = some n) :
    m.match' v = (.allow, true) ↔ ∃ r ∈ rules, r.action = .allow ∧ r.Covers n := by
  rw [match_allow_keys hn, meets_iff h n .allow]
  refine exists_congr fun k => and_congr_right fun _ => ?_
  rw [says_new h k, verdict_eq_allow]

/-- **The blocking answer.** -/
theorem match_block_iff {rules : List Rule} {m : Matcher} (h : new rules = some m) {v n : Str} (hn : name v = some n) :
    m.match' v = (.block, true) ↔
      (∃ r ∈ rules, r.action = .block ∧ r.Covers n) ∧ ¬ ∃ r ∈ rules, r.action = .allow ∧ r.Covers n := by
  rw [← blocked_iff h hn, Matcher.blocked, Bool.and_eq_true, decide_eq_true_eq, and_comm, Prod.ext_iff]

/-! ### Attribution -/

/-- What covers a name; `static` counts when `staticMatched` does. -/
structure Attribution where
  staticMatched : Bool := false
  static : Action := .allow
  sources : List (ℤ × Str) := []

/-- The names a rule can have that covers a name: the keys of the map `covers`. -/
def covering (n : Str) : List Str := n :: dotTails n

/-- The lists that are asked: those that are named, or those that are enabled. -/
def asked (ids : Option (List ℤ)) (s : Source) : Bool :=
  match ids with
  | none => s.enabled
  | some ids => ids.contains s.id

/-- `Attribute`. -/
def attribute' (static : List Rule) (published : List Source) (v : Str) (ids : Option (List ℤ)) : Attribution :=
  match name v with
  | none => {}
  | some n =>
    let answer : Action × Bool := ((new static).map (fun m => m.match' n)).getD (.allow, false)
    { staticMatched := answer.2
      static := answer.1
      sources := (published.filter (fun s => asked ids s && s.domains.any (fun d => trimStar d ∈ covering n))).map
        (fun s => (s.id, s.name)) }

/-! ### The lists that are named -/

/-- A domain of a list is in the map exactly when its rule covers the name. -/
theorem mem_covering {d n : Str} (hd : ParsedDomain d) : trimStar d ∈ covering n ↔ (⟨d, true, .block⟩ : Rule).Covers n := by
  rw [covers_plain hd, covering, List.mem_cons, mem_dotTails]
  exact or_congr_left eq_comm

/-- The lists hold the domains of `ParseHosts`. -/
def AllParsed (sources : List Source) : Prop := ∀ x ∈ sources, ∀ d ∈ x.domains, ParsedDomain d

theorem ParsedDomain.usable {d : Str} (h : ParsedDomain d) : Usable d := by
  unfold Usable
  rw [h]
  rfl

/-- **The lists that are named** are those that are asked and have a rule that covers the name. -/
theorem attribute_sources {static : List Rule} {published : List Source} (hp : AllParsed published) {v n : Str}
    (hn : name v = some n) (ids : Option (List ℤ)) :
    (attribute' static published v ids).sources ≠ [] ↔
      ∃ s ∈ published, asked ids s = true ∧ ∃ r ∈ listRules s.domains, r.action = .block ∧ r.Covers n := by
  unfold attribute'
  rw [hn]
  dsimp only
  rw [ne_eq, List.map_eq_nil_iff, List.filter_eq_nil_iff]
  push Not
  refine exists_congr fun s => and_congr_right fun hs => ?_
  rw [Bool.and_eq_true]
  refine and_congr_right fun _ => ?_
  rw [List.any_eq_true]
  unfold listRules
  simp only [decide_eq_true_eq, List.mem_map]
  constructor
  · rintro ⟨d, hd, hc⟩
    exact ⟨_, ⟨d, hd, rfl⟩, rfl, (mem_covering (hp s hs d hd)).1 hc⟩
  · rintro ⟨_, ⟨d, hd, rfl⟩, -, hc⟩
    exact ⟨d, hd, (mem_covering (hp s hs d hd)).2 hc⟩

/-- **The rules of the configuration** are named as they decide. -/
theorem attribute_static {static : List Rule} {m : Matcher} (hm : new static = some m) (published : List Source)
    (ids : Option (List ℤ)) {v n : Str} (hn : name v = some n) :
    ((attribute' static published v ids).static, (attribute' static published v ids).staticMatched) = m.match' n := by
  unfold attribute'
  rw [hn, hm]
  rfl

/-! ### The domains in a run -/

theorem parseHosts_plain {text : Str} {out : List Str} (h : parseHosts text = .ok out) :
    (∀ d ∈ out, ParsedDomain d) ∧ out.length ≤ maxDomains := by
  rw [← parseHostsBytes_utf8] at h
  obtain ⟨hne, hreads⟩ := parseHostsBytes_reads h
  refine ⟨fun d hd => ?_, hreads.length_le (by decide)⟩
  rw [hreads.eq, foldl_addNew, List.mem_eraseDups, List.mem_filterMap] at hd
  obtain ⟨t, -, ht⟩ := hd
  exact tokenDomain_plain ht

/-- Where the domains of a list can come from: there are none, a list has had them, or a text has been read. -/
def Origin (s : Service) (ds : List Str) : Prop :=
  ds = [] ∨ (∃ y ∈ s.sources, y.domains = ds) ∨ ∃ text, parseHosts text = .ok ds

theorem Edit.origin {s : Service} {o : Outside} {c : Call} {x y : Source} (h : Edit o c x y) (hx : x ∈ s.sources) :
    Origin s y.domains := by
  cases h with
  | schedule => exact Or.inr (Or.inl ⟨x, hx, rfl⟩)
  | enabled => exact Or.inr (Or.inl ⟨x, hx, rfl⟩)
  | @replaced _ text _ _ _ hparse => exact Or.inr (Or.inr ⟨text, hparse⟩)
  | failed => exact Or.inr (Or.inl ⟨x, hx, rfl⟩)
  | fetched _ hfetch =>
    obtain ⟨text, -, hparse⟩ := bind_eq_ok.1 hfetch
    exact Or.inr (Or.inr ⟨text, hparse⟩)

/-- **An operation makes up no domains.** -/
theorem step_origin {s : Service} (validateURL : Str → Option Err) (c : Call) (o : Outside) :
    ∀ x ∈ (s.step validateURL c o).2.sources, Origin s x.domains := by
  intro x hx
  have hold : x ∈ s.sources → Origin s x.domains := fun h => Or.inr (Or.inl ⟨x, h, rfl⟩)
  cases step_went validateURL s c o with
  | nothing h =>
    rw [h] at hx
    exact hold hx
  | made hmade hs =>
    obtain ⟨_, _, _, _, -, -, rfl⟩ := hmade
    obtain ⟨id, -, hmem⟩ := save_mem hs
    rcases hmem x hx with hx | rfl
    · exact hold hx
    · exact Or.inl rfl
  | edited hi he hs =>
    obtain ⟨id, -, hmem⟩ := save_mem hs
    rcases hmem x hx with hx | rfl
    · exact hold hx
    · exact he.origin (List.mem_of_getElem? hi)
  | deleted hi hs =>
    rw [(delete_ok hs).2.1] at hx
    exact hold (List.mem_of_mem_eraseIdx hx)

/-- The states of a service that began with an empty store: any operations, and new starts with any configuration. -/
inductive Reachable (validateURL : Str → Option Err) : Service → Prop
  | first {static : List Rule} {s : Service} : start static noLists = .ok s → Reachable validateURL s
  | step {s : Service} (c : Call) (o : Outside) : Reachable validateURL s → Reachable validateURL (s.step validateURL c o).2
  | restart {s s' : Service} {static : List Rule} : Reachable validateURL s → start static s.repo = .ok s' →
      Reachable validateURL s'

theorem Reachable.consistent {validateURL : Str → Option Err} {s : Service} (h : Reachable validateURL s) : Consistent s := by
  induction h with
  | first hs => exact start_consistent hs
  | step c o _ ih => exact (did_step ih validateURL c o).consistent
  | restart _ hs _ => exact start_consistent hs

/-- **The domains of every list are as `ParseHosts` leaves them.** -/
theorem reachable_plain {validateURL : Str → Option Err} {s : Service} (h : Reachable validateURL s) :
    AllParsed s.sources := by
  induction h with
  | first hs =>
    obtain ⟨m, -, rfl⟩ := start_ok hs
    intro x hx
    cases hx
  | @step s c o _ ih =>
    intro x hx d hd
    rcases step_origin validateURL c o x hx with hnil | ⟨y, hy, hdomains⟩ | ⟨text, hparse⟩
    · rw [hnil] at hd
      cases hd
    · exact ih y hy d (hdomains ▸ hd)
    · exact (parseHosts_plain hparse).1 d hd
  | @restart s s' static hs hstart ih =>
    obtain ⟨m, -, rfl⟩ := start_ok hstart
    intro x hx d hd
    rw [← hs.consistent.stored] at hx
    obtain ⟨y, hy, rfl⟩ := List.mem_map.1 hx
    exact ih y hy d ((List.mem_insertionSort _).1 hd)

end Velora.Filtering
