import Velora.Clients.Service
import Velora.Dns.Resolver
import Velora.Filtering.Attribution
import Velora.Policies.Converge

/-!
# The labels of a decision

`ExplainFilter` of `internal/policies/explain.go`. The verdict comes from one matcher of merged rules; the explanation looks
the name up in the rules of the configuration, in each list and in the domains of the policy, and puts the answers together.
Each of them is a question about the rules that cover the name (`Hits`), and an allowing rule anywhere outweighs the blocking
ones on both sides (`labels_agree`).
-/

namespace Velora.Policies

open Velora.Lib Velora.Lib.Text Velora.Lib.Loops
open Velora.Dns (FilterInfo RuleRef)
open Velora.Clients (Addr)
open Velora.Filtering (Action Attribution Matcher Rule Source AllParsed attribute' asked listRules name new name_name
  attribute_static attribute_sources match_allow_iff match_block_iff)

/-! ### The policy of an address -/

structure Effective where
  client : Option Clients.Client := none
  policy : Option Policy := none
  mode : Str := modeDefault

/-- One turn of the loop of `Effective`; a later policy takes the place of an earlier one. -/
def Effective.turn (client : Clients.Client) (out : Effective) (p : Policy) : Effective :=
  if p.clientID = client.id ∧ p.enabled = true then { out with policy := some p, mode := p.mode } else out

/-- `Effective`. -/
def effective (clients : Clients.Service) (ps : List Policy) (addr : Addr) : Effective :=
  match clients.lookup addr with
  | none => {}
  | some client => ps.foldl (Effective.turn client) { client := some client }

/-! ### The explanation -/

/-- `add`. -/
def add (info : FilterInfo) (action : Action) (ref : RuleRef) : FilterInfo :=
  if action = .allow then { info with allowed := info.allowed ++ [ref] } else { info with matched := info.matched ++ [ref] }

/-- An answer of a matcher. -/
def addAnswer (info : FilterInfo) (answer : Action × Bool) (ref : RuleRef) : FilterInfo :=
  if answer.2 then add info answer.1 ref else info

/-- What `ExplainFilter` adds: the configuration, the lists, and the domains of the policy with an ID. -/
def label (info : FilterInfo) (a : Attribution) (extra : Option (ℤ × Matcher)) (name : Str) : FilterInfo :=
  let info := addAnswer info (a.static, a.staticMatched) { name := "filtering.blocklist configuration rule".toList }
  let lists : List RuleRef := a.sources.map (fun s => { id := s.1, name := s.2, detail := "blocklist".toList })
  let info := { info with matched := info.matched ++ lists }
  match extra with
  | none => info
  | some (id, m) => addAnswer info (m.match' name) { id := id, name := "client policy domains".toList }

/-- `ExplainFilter`. -/
def explainFilter (static : List Rule) (published : List Source) (clients : Clients.Service) (ps : List Policy)
    (addr : Addr) (known : Bool) (name : Str) : FilterInfo :=
  let eff := effective clients ps addr
  match if known = true ∧ eff.mode ≠ modeDefault then eff.policy else none with
  | none => label ⟨"global".toList, [], [], [], []⟩ (attribute' static published name none) none name
  | some p =>
    let info : FilterInfo := ⟨"client_policy".toList, ((eff.client.map Clients.Client.name).getD []), p.mode, [], []⟩
    if p.mode = modeDisabled then info
    else label info (attribute' static published name (some p.blocklists)) ((new (extraRules p)).map (fun m => (p.id, m))) name

/-- What an explanation says of the verdict. -/
def Blocks (info : FilterInfo) : Prop := info.matched ≠ [] ∧ info.allowed = []

/-! ### The rules that cover a name -/

/-- A rule with the action covers the name. -/
def Hits (rules : List Rule) (n : Str) (a : Action) : Prop := ∃ r ∈ rules, r.action = a ∧ r.Covers n

theorem hits_append {rules rules' : List Rule} {n : Str} {a : Action} :
    Hits (rules ++ rules') n a ↔ Hits rules n a ∨ Hits rules' n a := by
  unfold Hits
  constructor
  · rintro ⟨r, hr, h⟩
    rcases List.mem_append.1 hr with hr | hr
    · exact Or.inl ⟨r, hr, h⟩
    · exact Or.inr ⟨r, hr, h⟩
  · rintro (⟨r, hr, h⟩ | ⟨r, hr, h⟩)
    · exact ⟨r, List.mem_append_left _ hr, h⟩
    · exact ⟨r, List.mem_append_right _ hr, h⟩

/-- The rules of the lists that are asked. -/
def askedRules (published : List Source) (ids : Option (List ℤ)) : List Rule :=
  published.flatMap (fun s => if asked ids s then listRules s.domains else [])

theorem mem_askedRules {published : List Source} {ids : Option (List ℤ)} {r : Rule} :
    r ∈ askedRules published ids ↔ ∃ s ∈ published, asked ids s = true ∧ r ∈ listRules s.domains := by
  unfold askedRules
  rw [List.mem_flatMap]
  refine exists_congr fun s => and_congr_right fun _ => ?_
  by_cases h : asked ids s = true
  · simp [h]
  · simp [h]

/-- Lists only block. -/
theorem not_hits_asked {published : List Source} {ids : Option (List ℤ)} {n : Str} :
    ¬ Hits (askedRules published ids) n .allow := by
  rintro ⟨r, hr, ha, -⟩
  obtain ⟨s, -, -, hr⟩ := mem_askedRules.1 hr
  obtain ⟨d, -, rfl⟩ := List.mem_map.1 hr
  cases ha

theorem new_append_left {rules rules' : List Rule} {m : Matcher} (h : new (rules ++ rules') = some m) :
    ∃ m', new rules = some m' := by
  refine Option.isSome_iff_exists.1 (Filtering.new_isSome.2 fun r hr => ?_)
  exact Filtering.new_isSome.1 (by rw [h]; rfl) r (List.mem_append_left _ hr)

theorem new_append_right {rules rules' : List Rule} {m : Matcher} (h : new (rules ++ rules') = some m) :
    ∃ m', new rules' = some m' := by
  refine Option.isSome_iff_exists.1 (Filtering.new_isSome.2 fun r hr => ?_)
  exact Filtering.new_isSome.1 (by rw [h]; rfl) r (List.mem_append_right _ hr)

/-! ### What a label says -/

theorem addAnswer_matched {info : FilterInfo} {answer : Action × Bool} {ref : RuleRef} :
    (addAnswer info answer ref).matched ≠ [] ↔ info.matched ≠ [] ∨ answer = (.block, true) := by
  obtain ⟨action, hit⟩ := answer
  unfold addAnswer add
  cases hit <;> cases action <;> simp

theorem addAnswer_allowed {info : FilterInfo} {answer : Action × Bool} {ref : RuleRef} :
    (addAnswer info answer ref).allowed = [] ↔ info.allowed = [] ∧ ¬ answer = (.allow, true) := by
  obtain ⟨action, hit⟩ := answer
  unfold addAnswer add
  cases hit <;> cases action <;> simp

section

variable {static : List Rule} {m : Matcher} (hm : new static = some m) {published : List Source} (hp : AllParsed published)
  (info : FilterInfo) (ids : Option (List ℤ)) {v n : Str}
  (hn : name v = some n)

include hm hp hn

/-- The labels of the configuration and the lists. -/
theorem label_none :
    ((label info (attribute' static published v ids) none v).matched ≠ [] ↔ info.matched ≠ [] ∨
      (Hits static n .block ∧ ¬ Hits static n .allow) ∨ Hits (askedRules published ids) n .block) ∧
    ((label info (attribute' static published v ids) none v).allowed = [] ↔
      info.allowed = [] ∧ ¬ Hits static n .allow) := by
  have hlists : (attribute' static published v ids).sources ≠ [] ↔ Hits (askedRules published ids) n .block := by
    rw [attribute_sources hp hn]
    unfold Hits
    constructor
    · rintro ⟨s, hs, ha, r, hr, h⟩
      exact ⟨r, mem_askedRules.2 ⟨s, hs, ha, hr⟩, h⟩
    · rintro ⟨r, hr, h⟩
      obtain ⟨s, hs, ha, hr⟩ := mem_askedRules.1 hr
      exact ⟨s, hs, ha, r, hr, h⟩
  have happend : ∀ (refs : List RuleRef) (ss : List (ℤ × Str)) (f : ℤ × Str → RuleRef),
      refs ++ ss.map f ≠ [] ↔ refs ≠ [] ∨ ss ≠ [] := by
    intro refs ss f
    rw [ne_eq, List.append_eq_nil_iff, List.map_eq_nil_iff, not_and_or]
  unfold label
  dsimp only
  rw [addAnswer_allowed, attribute_static hm published ids hn, match_allow_iff hm (name_name hn), happend, addAnswer_matched,
    match_block_iff hm (name_name hn), or_assoc, hlists]
  exact ⟨Iff.rfl, Iff.rfl⟩

/-- **The labels of a name** are those of all the rules. -/
theorem label_some {extra : List Rule} {me : Matcher} (he : new extra = some me) (id : ℤ) (hmatched : info.matched = [])
    (hallowed : info.allowed = []) :
    Blocks (label info (attribute' static published v ids) (some (id, me)) v) ↔
      Hits (static ++ extra ++ askedRules published ids) n .block ∧
        ¬ Hits (static ++ extra ++ askedRules published ids) n .allow := by
  obtain ⟨hm', ha'⟩ := label_none hm hp info ids hn
  have hlabel : label info (attribute' static published v ids) (some (id, me)) v =
      addAnswer (label info (attribute' static published v ids) none v) (me.match' v)
        { id := id, name := "client policy domains".toList } := by
    unfold label
    rfl
  have hlists : ¬ Hits (askedRules published ids) n .allow := not_hits_asked
  rw [hlabel, Blocks, addAnswer_matched, addAnswer_allowed, hm', ha', match_allow_iff he hn, match_block_iff he hn,
    hits_append, hits_append, hits_append, hits_append]
  have hextra : ∀ a, (∃ r ∈ extra, r.action = a ∧ r.Covers n) = Hits extra n a := fun a => rfl
  rw [hextra, hextra, hmatched, hallowed]
  -- an allowing rule of either list settles both sides, and otherwise the blocking ones are the same
  by_cases hsa : Hits static n .allow
  · simp [hsa]
  by_cases hea : Hits extra n .allow
  · simp [hea]
  simp [hsa, hea, hlists, or_right_comm]

end

/-! ### The policies -/

/-- What the schema says of the rows: one policy for a client, in one of the three modes. -/
structure Rows (ps : List Policy) : Prop where
  single : Single ps
  mode : ∀ p ∈ ps, p.mode = modeDefault ∨ p.mode = modeDisabled ∨ p.mode = modeCustom

/-- The policies of a service: those it has loaded, after any saves and deletes of policies and of clients. -/
inductive Reached : List Policy → Prop
  | load {ps : List Policy} : Rows ps → Reached ps
  | save {ps : List Policy} {p q : Policy} {index : Option ℕ} (id : ℤ) : Reached ps → normalize p = .ok q →
      checkSave ps q = .ok index →
      Reached ((place ps { q with id := id } index).insertionSort (fun a b => a.clientID ≤ b.clientID))
  | delete {ps : List Policy} (i : ℕ) : Reached ps → Reached (ps.eraseIdx i)
  | forget {ps : List Policy} (client : ℤ) : Reached ps → Reached (ps.filter (fun p => p.clientID ≠ client))

theorem normalize_mode {p q : Policy} (h : normalize p = .ok q) :
    q.mode = modeDefault ∨ q.mode = modeDisabled ∨ q.mode = modeCustom := by
  unfold normalize at h
  split at h
  · cases h
  split at h
  · rename_i hmode
    cases h
    exact hmode.imp_right Or.inl
  split at h
  · cases h
  rename_i hmode
  obtain ⟨blocklists, -, h⟩ := bind_eq_ok.1 h
  obtain ⟨allow, -, h⟩ := bind_eq_ok.1 h
  obtain ⟨block, -, h⟩ := bind_eq_ok.1 h
  split at h
  · cases h
  cases h
  exact Or.inr (Or.inr (not_not.1 hmode))

theorem Rows.sublist {ps qs : List Policy} (h : Rows ps) (hsub : qs.Sublist ps) : Rows qs where
  single := (hsub.map Policy.clientID).nodup h.single
  mode p hp := h.mode p (hsub.subset hp)

theorem reached_rows {ps : List Policy} (h : Reached ps) : Rows ps := by
  induction h with
  | load h => exact h
  | @save ps p q index id _ hq hcheck ih =>
    have hperm := List.perm_insertionSort (fun a b : Policy => a.clientID ≤ b.clientID) (place ps { q with id := id } index)
    have hothers := checkSave_ok hcheck
    have hmode := normalize_mode hq
    refine ⟨(hperm.map Policy.clientID).nodup_iff.2 (single_place ih.single hothers), fun x hx => ?_⟩
    rcases mem_place (hperm.mem_iff.1 hx) with hx | rfl
    · exact ih.mode x hx
    · exact hmode
  | delete i _ ih => exact ih.sublist (List.eraseIdx_sublist _ i)
  | forget client _ ih => exact ih.sublist List.filter_sublist

/-- A client has one policy, so the last is the first. -/
theorem foldl_turn {client : Clients.Client} : ∀ {ps : List Policy} {out : Effective}, Single ps →
    ps.foldl (Effective.turn client) out = match (ofClient ps client.id).filter Policy.enabled with
      | some p => { out with policy := some p, mode := p.mode }
      | none => out
  | [], out, _ => rfl
  | p :: ps, out, hs => by
    rw [Single, List.map_cons, List.nodup_cons] at hs
    rw [List.foldl_cons, foldl_turn hs.2]
    unfold ofClient
    by_cases hc : p.clientID = client.id
    · have hnone : ps.find? (fun p => p.clientID = client.id) = none := by
        rw [List.find?_eq_none]
        intro x hx hxc
        exact hs.1 (List.mem_map.2 ⟨x, hx, by rw [hc]; simpa using hxc⟩)
      rw [List.find?_cons_of_pos (by simpa using hc), hnone, Effective.turn]
      by_cases he : p.enabled = true
      · rw [if_pos ⟨hc, he⟩, Option.filter_some, if_pos he]
        rfl
      · rw [if_neg (fun h => he h.2), Option.filter_some, if_neg he]
        rfl
    · rw [List.find?_cons_of_neg (by simpa using hc), Effective.turn, if_neg (fun h => hc h.1)]

/-- What compiles has asked for the matcher of every policy. -/
theorem compile_subset {sub : List ℤ → List Rule → Except Filtering.Err Matcher} : ∀ {ps : List Policy} {next c : Compiled},
    ps.foldlM (addPolicy sub) next = .ok c → ∀ p ∈ ps, p.adds = .subset → ∃ m, sub p.blocklists (extraRules p) = .ok m
  | [], _, _, _, p, hp, _ => by cases hp
  | q :: ps, next, c, h, p, hp, hadds => by
    rw [List.foldlM_cons] at h
    obtain ⟨next', hq, hrest⟩ := bind_eq_ok.1 h
    rcases List.mem_cons.1 hp with rfl | hp
    · simp only [addPolicy, hadds] at hq
      cases hm : sub p.blocklists (extraRules p) with
      | error e =>
        rw [hm] at hq
        cases hq
      | ok m => exact ⟨m, rfl⟩
    · exact compile_subset hrest p hp hadds

/-! ### The verdict and the labels -/

/-- The verdict of a matcher of rules. -/
theorem blocked_hits {rules : List Rule} {m : Matcher} (h : new rules = some m) {v n : Str} (hn : name v = some n) :
    m.blocked v = true ↔ Hits rules n .block ∧ ¬ Hits rules n .allow := Filtering.blocked_iff h hn

/-- Nothing is said of what is no name. -/
theorem not_blocks_label {static : List Rule} {published : List Source} {v : Str} (hn : name v = none)
    (ids : Option (List ℤ)) {info : FilterInfo} (hmatched : info.matched = []) (extra : Option (ℤ × Matcher)) :
    ¬ Blocks (label info (attribute' static published v ids) extra v) := by
  have hmatch : ∀ m : Matcher, m.match' v = (.allow, false) := by
    intro m
    rw [Matcher.match', hn]
  rintro ⟨hne, -⟩
  refine hne ?_
  cases extra with
  | none => simp [label, attribute', hn, addAnswer, hmatched]
  | some e =>
    obtain ⟨id, m⟩ := e
    simp [label, attribute', hn, addAnswer, hmatched, hmatch]

/-- **The verdict of the global filter.** -/
theorem blocked_global {f : Filtering.Service} (hf : Filtering.Consistent f) (hp : AllParsed f.published) {info : FilterInfo}
    (hmatched : info.matched = []) (hallowed : info.allowed = []) (v : Str) :
    f.current.blocked v = true ↔ Blocks (label info (attribute' f.static f.published v none) none v) := by
  cases hn : name v with
  | none =>
    rw [Filtering.blocked_none hn]
    exact ⟨fun h => (by cases h), fun h => absurd h (not_blocks_label hn none hmatched none)⟩
  | some n =>
    have hcompiled := hf.compiled
    unfold Filtering.compile at hcompiled
    split at hcompiled
    · cases hcompiled
    obtain ⟨rules, hrules, hnew⟩ := bind_eq_ok.1 hcompiled
    split at hnew
    · rename_i m hm
      cases hnew
      have hout : rules = f.static ++ askedRules f.sources none := Filtering.collect_ok hrules
      rw [hout, ← hf.published] at hm
      obtain ⟨ms, hms⟩ := new_append_left hm
      obtain ⟨hmatch, hallow⟩ := label_none hms hp info none hn
      have hlists : ¬ Hits (askedRules f.published none) n .allow := not_hits_asked
      rw [blocked_hits hm hn, Blocks, hmatch, hallow, hits_append, hits_append, hmatched, hallowed]
      by_cases hsa : Hits f.static n .allow
      · simp [hsa]
      simp [hsa, hlists]
    · cases hnew

/-- **The verdict of a custom policy.** -/
theorem blocked_custom {static : List Rule} {published : List Source} (hp : AllParsed published) {p : Policy} {m : Matcher}
    (hm : Filtering.subset static published p.blocklists (extraRules p) = .ok m) {info : FilterInfo}
    (hmatched : info.matched = []) (hallowed : info.allowed = []) (v : Str) :
    m.blocked v = true ↔ Blocks (label info (attribute' static published v (some p.blocklists))
      ((new (extraRules p)).map (fun me => (p.id, me))) v) := by
  cases hn : name v with
  | none =>
    rw [Filtering.blocked_none hn]
    exact ⟨fun h => (by cases h), fun h => absurd h (not_blocks_label hn _ hmatched _)⟩
  | some n =>
    unfold Filtering.subset at hm
    split at hm
    · rename_i m' hm'
      cases hm
      have hlists : published.flatMap (fun s => if s.id ∈ p.blocklists then listRules s.domains else []) =
          askedRules published (some p.blocklists) := by
        simp [askedRules, asked]
      rw [hlists] at hm'
      obtain ⟨mse, hmse⟩ := new_append_left hm'
      obtain ⟨ms, hms⟩ := new_append_left hmse
      obtain ⟨me, hme⟩ := new_append_right hmse
      rw [blocked_hits hm' hn, hme, Option.map_some, label_some hms hp info (some p.blocklists) hn hme p.id hmatched hallowed]
    · cases hm

/-- The policy that decides for an address: that of its client, when it is enabled and has a mode of its own. -/
def deciding (clients : Clients.Service) (ps : List Policy) (addr : Addr) : Option Policy :=
  ((clients.lookup addr).bind (fun client => ofClient ps client.id)).filter (fun p => p.enabled ∧ p.mode ≠ modeDefault)

theorem effective_policy {clients : Clients.Service} {ps : List Policy} (hs : Single ps) (addr : Addr) :
    (if (effective clients ps addr).mode ≠ modeDefault then (effective clients ps addr).policy else none) =
      deciding clients ps addr := by
  unfold effective deciding
  cases clients.lookup addr with
  | none => rfl
  | some client =>
    dsimp only
    simp only [foldl_turn hs, Option.bind_some]
    cases ofClient ps client.id with
    | none => rfl
    | some p =>
      rw [Option.filter_some, Option.filter_some]
      by_cases he : p.enabled = true
      · simp [he]
      · simp [he]

/-- **The verdict for an address**: that of its policy, or of the global filter. -/
theorem blockedFor_deciding {sub : List ℤ → List Rule → Except Filtering.Err Matcher} (clients : Clients.Service)
    {ps : List Policy} (hps : Rows ps) {current : Compiled} (hcur : compile sub ps = .ok current)
    (global : Str → Bool) (addr : Addr) (v : Str) :
    match deciding clients ps addr with
    | none => blockedFor current global ((clients.lookup addr).map Clients.Client.id) v = global v
    | some p =>
      if p.mode = modeDisabled then blockedFor current global ((clients.lookup addr).map Clients.Client.id) v = false
      else ∃ m, sub p.blocklists (extraRules p) = .ok m ∧
        blockedFor current global ((clients.lookup addr).map Clients.Client.id) v = m.blocked v := by
  unfold deciding blockedFor
  cases clients.lookup addr with
  | none => rfl
  | some client =>
    dsimp only [Option.map_some, Option.bind_some]
    rw [compile_lookup hps.single hcur]
    cases hp : ofClient ps client.id with
    | none => rfl
    | some p =>
      have hmem : p ∈ ps := List.mem_of_find?_eq_some hp
      have hdefault : modeDefault ≠ modeDisabled ∧ modeDefault ≠ modeCustom := by decide
      have hcustom : modeCustom ≠ modeDefault ∧ modeCustom ≠ modeDisabled := by decide
      rw [Option.filter_some, Option.bind_some, Policy.entry]
      by_cases he : p.enabled = true
      · rcases hps.mode p hmem with hmode | hmode | hmode
        · have hadds : p.adds = .nothing := by simp [Policy.adds, he, hmode, hdefault.1, hdefault.2]
          simp [hmode, hadds]
        · have hadds : p.adds = .unfiltered := by simp [Policy.adds, he, hmode]
          simp [hmode, hadds, he, Ne.symm hdefault.1]
        · have hadds : p.adds = .subset := by simp [Policy.adds, he, hmode, hcustom.2]
          obtain ⟨m, hm⟩ := compile_subset hcur p hmem hadds
          simp [hmode, hadds, he, hcustom.1, hcustom.2, hm, Except.toOption]
      · have hadds : p.adds = .nothing := by simp [Policy.adds, he]
        simp [he, hadds]

/-- **The labels agree with the verdict.** In every state of the blocklist service and of the policies, with the table of
matchers compiled from them, a query of any address is blocked exactly when its explanation has a match and no allowing
entry; without an address both are those of the global filter. -/
theorem labels_agree {validateURL : Str → Option Filtering.Err} {f : Filtering.Service}
    (hf : Filtering.Reachable validateURL f) {ps : List Policy} (hps : Reached ps) {current : Compiled}
    (hcur : compile (Filtering.subset f.static f.published) ps = .ok current) (clients : Clients.Service) (addr : Addr)
    (v : Str) :
    (blockedFor current f.current.blocked ((clients.lookup addr).map Clients.Client.id) v = true ↔
      Blocks (explainFilter f.static f.published clients ps addr true v)) ∧
    (f.current.blocked v = true ↔ Blocks (explainFilter f.static f.published clients ps addr false v)) := by
  have hrows := reached_rows hps
  have hplain : AllParsed f.published := by
    rw [hf.consistent.published]
    exact Filtering.reachable_plain hf
  have hverdict := blockedFor_deciding clients hrows hcur f.current.blocked addr v
  refine ⟨?_, ?_⟩
  · unfold explainFilter
    simp only [true_and]
    rw [effective_policy hrows.single]
    cases hd : deciding clients ps addr with
    | none =>
      rw [hd] at hverdict
      dsimp only at hverdict ⊢
      rw [hverdict]
      exact blocked_global hf.consistent hplain rfl rfl v
    | some p =>
      rw [hd] at hverdict
      dsimp only at hverdict ⊢
      by_cases hmode : p.mode = modeDisabled
      · rw [if_pos hmode] at hverdict ⊢
        rw [hverdict]
        exact ⟨fun h => (by cases h), fun h => absurd rfl h.1⟩
      · rw [if_neg hmode] at hverdict ⊢
        obtain ⟨m, hm, hverdict⟩ := hverdict
        rw [hverdict]
        exact blocked_custom hplain hm rfl rfl v
  · unfold explainFilter
    simp only [Bool.false_eq_true, false_and, if_false]
    exact blocked_global hf.consistent hplain rfl rfl v

/-! ### A tablet -/

namespace Tablet

def client : Clients.Client := ⟨3, "tablet".toList, ["10.1.2.3".toList], [], [], true⟩

def clients : Clients.Service := ⟨[client], Clients.build [client], .new⟩

def addr : Addr := ⟨[10, 1, 2, 3], [], Or.inr (Or.inl rfl)⟩

/-- A disabled list, less one of the domains on it, and a domain more. -/
def policy : Policy := ⟨5, 3, modeCustom, [1], ["ok.t.example".toList], ["x.example".toList], true⟩

/-- The service with a list that is disabled. -/
def filled (f : Filtering.Service) : Filtering.Service :=
  ((f.step (fun _ => none) (.create "home".toList [] false 0) {}).2.step (fun _ => none)
    (.replaceLocal 1 "0.0.0.0 t.example\n".toList) {}).2

theorem rows : Rows [policy] where
  single := List.nodup_singleton _
  mode p hp := by
    rw [List.mem_singleton.1 hp]
    exact Or.inr (Or.inr rfl)

end Tablet

open Tablet in
/-- The tablet is kept from the list, with its label, and the others are not. -/
theorem labels_agree_tablet : ∃ f current, Filtering.start Filtering.adsRules Filtering.noLists = .ok f ∧
    compile (Filtering.subset (filled f).static (filled f).published) [policy] = .ok current ∧
    Blocks (explainFilter (filled f).static (filled f).published clients [policy] addr true "a.t.example.".toList) ∧
    ¬ Blocks (explainFilter (filled f).static (filled f).published clients [policy] addr true "ok.t.example".toList) ∧
    ¬ Blocks (explainFilter (filled f).static (filled f).published clients [policy] addr false "a.t.example.".toList) := by
  have hrun : (Filtering.start Filtering.adsRules Filtering.noLists).toOption.any (fun f =>
      (compile (Filtering.subset (filled f).static (filled f).published) [policy]).toOption.any (fun current =>
        blockedFor current (filled f).current.blocked ((clients.lookup addr).map Clients.Client.id) "a.t.example.".toList &&
        !blockedFor current (filled f).current.blocked ((clients.lookup addr).map Clients.Client.id) "ok.t.example".toList &&
        !(filled f).current.blocked "a.t.example.".toList)) = true := by
    decide +kernel
  obtain ⟨f, hf, hrun⟩ := (Option.any_eq_true _ _).1 hrun
  obtain ⟨current, hcur, hrun⟩ := (Option.any_eq_true _ _).1 hrun
  have hstart := eq_ok_of_toOption hf
  have hcompiled := eq_ok_of_toOption hcur
  have hlabels := labels_agree (.step _ _ (.step _ _ (@Filtering.Reachable.first (fun _ => none) _ _ hstart))) (.load rows) hcompiled
    clients addr
  simp only [Bool.and_eq_true, Bool.not_eq_true'] at hrun
  obtain ⟨⟨hblocked, hallowed⟩, hglobal⟩ := hrun
  refine ⟨f, current, hstart, hcompiled, (hlabels _).1.1 hblocked, fun h => ?_, fun h => ?_⟩
  · exact Bool.false_ne_true (hallowed.symm.trans ((hlabels _).1.2 h))
  · exact Bool.false_ne_true (hglobal.symm.trans ((hlabels _).2.2 h))

end Velora.Policies
