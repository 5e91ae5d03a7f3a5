import Velora.Filtering.Names
import Velora.Lib.Keyed
import Velora.Rewrites.Local

/-!
# The rewrite service

`internal/rewrites/rewrites.go` over `internal/database/rewrites.go`: what a save accepts, the operations on the rules, and
the store below them. The rules are held in memory, compiled into the table that answers, and stored. One scan over the rules
in memory keeps them apart from each other (`Valid`), and the three are changed together or not at all.
-/

namespace Velora.Rewrites

open Velora.Lib Velora.Lib.Text Velora.Lib.Ip Velora.Wire Velora.Dns
open Velora.Zones (byteLen)
open Velora.Filtering (trimStar)

def maxRules : ℕ := 2048
def maxPerName : ℕ := 16
def maxDescription : ℕ := 200

inductive Err where
  | invalid (detail : String)
  | notFound
  | exists
  | conflict (detail : String)
  | storage (text : String)
  deriving DecidableEq

/-! ### What a save accepts -/

/-- The value of a rule, by its type. -/
def normalizeValue (name : Str) (wildcard : Bool) (type value : Str) : Except Err Str :=
  if type = "A".toList ∨ type = "AAAA".toList then
    match parseAddr value with
    | none => .error (.invalid (addressError type))
    | some ip =>
      if (type = "A".toList) ≠ (ip.length = 4) then .error (.invalid (addressError type))
      else .ok (addrString ip)
  else if type = "CNAME".toList then
    match Filtering.name value with
    | none => .error (.invalid "CNAME rewrites need a target host name")
    | some target =>
      if value.head? = some '*' then .error (.invalid "CNAME rewrites need a target host name")
      else if target = trimStar name ∧ !wildcard then .error (.invalid "a CNAME cannot point to itself")
      else .ok target
  else .error (.invalid "type must be A, AAAA or CNAME")
where
  addressError (type : Str) : String :=
    if type = "A".toList then "A rewrites need an IPv4 address" else "AAAA rewrites need an IPv6 address"

/-- `normalize`. -/
def normalize (rule : Rule) : Except Err Rule :=
  let raw := trimSpaces rule.name
  let wildcard := "*.".toList.isPrefixOf raw
  if '*' ∈ trimStar raw then
    .error (.invalid "a wildcard is only allowed as the first label, like *.example.home")
  else
    match Filtering.name raw with
    | none => .error (.invalid "enter a valid name such as nas.home or *.lab.home")
    | some name =>
      if wildcard ∧ '.' ∉ name then .error (.invalid "wildcards need a parent domain with at least two labels")
      else
        let name := if wildcard then "*.".toList ++ name else name
        let type := upper (trimSpaces rule.type)
        match normalizeValue name wildcard type (trimSpaces rule.value) with
        | .error e => .error e
        | .ok value =>
          let description := trimSpaces rule.description
          if byteLen description > maxDescription ∨ description.any (fun c => c == '\r' || c == '\n' || c.toNat == 0) then
            .error (.invalid "description must be a single line of at most 200 characters")
          else .ok { rule with name := name, type := type, value := value, description := description }

/-! ### The store -/

/-- The columns that are unique together. -/
def Rule.key (r : Rule) : Str × Str × Str := (r.name, r.type, r.value)

/-- What the schema says of the table: the IDs are keys, drawn from a sequence, and no two rows have the same name, type and
value. -/
structure Rows (rows : List Rule) (seq : ℤ) : Prop where
  ids : (rows.map Rule.id).Nodup
  keys : (rows.map Rule.key).Nodup
  start : 0 ≤ seq
  range : ∀ r ∈ rows, 0 < r.id ∧ r.id ≤ seq

theorem Rows.insert {rows : List Rule} {seq : ℤ} (h : Rows rows seq) {rule : Rule}
    (hkey : ¬ rows.any (fun x => x.key = rule.key)) : Rows (rows ++ [{ rule with id := seq + 1 }]) (seq + 1) where
  ids := by
    refine Keyed.nodup_concat h.ids fun x hx => ?_
    have hle := (h.range x hx).2
    show x.id ≠ seq + 1
    omega
  keys := by
    refine Keyed.nodup_concat h.keys fun x hx heq => hkey ?_
    exact List.any_eq_true.2 ⟨x, hx, decide_eq_true heq⟩
  start := by
    have hseq := h.start
    omega
  range x hx := by
    have hseq := h.start
    rcases List.mem_append.1 hx with hx | hx
    · have hr := h.range x hx
      omega
    · rw [List.mem_singleton.1 hx]
      show 0 < seq + 1 ∧ seq + 1 ≤ seq + 1
      omega

theorem Rows.update {rows : List Rule} {seq : ℤ} (h : Rows rows seq) {rule : Rule} {i : ℕ} {old : Rule}
    (hi : rows[i]? = some old) (hid : old.id = rule.id) (hkey : ¬ rows.any (fun x => x.id ≠ rule.id && x.key = rule.key)) :
    Rows (rows.set i rule) seq where
  ids := by
    rw [Keyed.map_set hi hid.symm]
    exact h.ids
  keys := by
    have hi' := (List.getElem?_eq_some_iff.1 hi).1
    have hperm := (List.set_perm_cons_eraseIdx hi' rule).map Rule.key
    rw [hperm.nodup_iff, List.map_cons, List.nodup_cons]
    refine ⟨?_, Keyed.nodup_eraseIdx h.keys i⟩
    intro hmem
    obtain ⟨x, hx, hxkey⟩ := List.mem_map.1 hmem
    rw [← Keyed.filter_ne_eq_eraseIdx h.ids hi] at hx
    obtain ⟨hx, hne⟩ := List.mem_filter.1 hx
    rw [hid] at hne
    exact hkey (List.any_eq_true.2 ⟨x, hx, by simpa [hxkey] using hne⟩)
  start := h.start
  range x hx := by
    rcases List.mem_or_eq_of_mem_set hx with hx | rfl
    · exact h.range x hx
    · rw [← hid]
      exact h.range old (List.mem_of_getElem? hi)

theorem Rows.filter {rows : List Rule} {seq : ℤ} (h : Rows rows seq) (p : Rule → Bool) : Rows (rows.filter p) seq where
  ids := (List.Sublist.map Rule.id List.filter_sublist).nodup h.ids
  keys := (List.Sublist.map Rule.key List.filter_sublist).nodup h.keys
  start := h.start
  range x hx := h.range x (List.mem_of_mem_filter hx)

/-- The table `dns_rewrites`. -/
structure Repo where
  rows : List Rule
  seq : ℤ
  table : Rows rows seq

namespace Repo

/-- `ORDER BY name,type,value`. -/
def before (a b : Rule) : Prop :=
  a.name < b.name ∨ a.name = b.name ∧ (a.type < b.type ∨ a.type = b.type ∧ a.value ≤ b.value)

instance : DecidableRel before := fun _ _ => inferInstanceAs (Decidable (_ ∨ _))

/-- `LoadRewrites`. -/
def loadRewrites (db : Repo) : Except Err (List Rule) :=
  let out := (db.rows.insertionSort before).take (maxRules + 1)
  if out.length > maxRules then .error (.storage "stored rewrite limit exceeded") else .ok out

/-- `SaveRewrite`: an ID is drawn for a new rule. -/
def saveRewrite (db : Repo) (rule : Rule) : Except Err (Rule × Repo) :=
  if rule.type ∉ ["A".toList, "AAAA".toList, "CNAME".toList] then .error (.storage "CHECK constraint failed: dns_rewrites")
  else if rule.id = 0 then
    if hkey : db.rows.any (fun x => x.key = rule.key) then .error .exists
    else .ok ({ rule with id := db.seq + 1 }, ⟨db.rows ++ [{ rule with id := db.seq + 1 }], db.seq + 1, db.table.insert hkey⟩)
  else
    match hfind : db.rows.findIdx? (fun x => x.id = rule.id) with
    | none => .error .notFound
    | some i =>
      if hkey : db.rows.any (fun x => x.id ≠ rule.id && x.key = rule.key) then .error .exists
      else
        have hat := List.findIdx?_eq_some_iff_getElem.1 hfind
        .ok (rule, ⟨db.rows.set i rule, db.seq,
          db.table.update (List.getElem?_eq_getElem hat.1) (of_decide_eq_true hat.2.1) hkey⟩)

/-- `DeleteRewrite`. -/
def deleteRewrite (db : Repo) (id : ℤ) : Except Err Repo :=
  if db.rows.any (fun x => x.id = id) then .ok ⟨_, db.seq, db.table.filter (fun x => x.id ≠ id)⟩
  else .error .notFound

end Repo

/-! ### The service -/

/-- The service and the store below it. -/
structure Service where
  rules : List Rule
  current : Table
  repo : Repo

/-- `NewService`. -/
def start (repo : Repo) : Except Err Service := do
  let rules ← repo.loadRewrites
  .ok ⟨rules, compile rules, repo⟩

/-- The loop of `save` over the rules: the place of the rule that is replaced, and the number of other rules of the name. -/
def scan (rule : Rule) : List Rule → ℕ → Option ℕ → ℕ → Except Err (Option ℕ × ℕ)
  | [], _, index, sameName => .ok (index, sameName)
  | existing :: rest, i, index, sameName =>
    if existing.id = rule.id ∧ rule.id ≠ 0 then scan rule rest (i + 1) (some i) sameName
    else if existing.name ≠ rule.name then scan rule rest (i + 1) index sameName
    else if existing.type = rule.type ∧ existing.value = rule.value then .error .exists
    else if existing.type = "CNAME".toList ∨ rule.type = "CNAME".toList then
      .error (.conflict "a CNAME rewrite cannot share its name with other rewrites")
    else scan rule rest (i + 1) index (sameName + 1)

/-- The checks of `save` on the rules in memory, and the place of the rule. -/
def checkSave (rules : List Rule) (rule : Rule) : Except Err (Option ℕ) :=
  match scan rule rules 0 none 0 with
  | .error e => .error e
  | .ok (index, sameName) =>
    if rule.id ≠ 0 ∧ index = none then .error .notFound
    else if sameName ≥ maxPerName then .error (.invalid "at most 16 rewrites per name")
    else if rule.id = 0 ∧ rules.length ≥ maxRules then .error (.invalid "at most 2048 rewrites")
    else .ok index

/-- `save`; the store fails when the outside says so. -/
def Service.save (s : Service) (storeFails : Option Err) (rule : Rule) : Except Err Rule × Service :=
  match normalize rule with
  | .error e => (.error e, s)
  | .ok normalized =>
    match checkSave s.rules normalized with
    | .error e => (.error e, s)
    | .ok index =>
      match storeFails with
      | some e => (.error e, s)
      | none =>
        match s.repo.saveRewrite normalized with
        | .error e => (.error e, s)
        | .ok (saved, repo) =>
          let candidate := match index with
            | none => s.rules ++ [saved]
            | some i => s.rules.set i saved
          (.ok saved, ⟨candidate, compile candidate, repo⟩)

/-- `Delete`; a result without an error stands for `nil`. -/
def Service.delete (s : Service) (storeFails : Option Err) (id : ℤ) : Except Err (Option Rule) × Service :=
  match s.rules.findIdx? (fun x => x.id = id) with
  | none => (.error .notFound, s)
  | some i =>
    match storeFails with
    | some e => (.error e, s)
    | none =>
      match s.repo.deleteRewrite id with
      | .error e => (.error e, s)
      | .ok repo => (.ok none, ⟨s.rules.eraseIdx i, compile (s.rules.eraseIdx i), repo⟩)

/-- The operations. -/
inductive Call where
  | create (rule : Rule)
  | update (id : ℤ) (rule : Rule)
  | delete (id : ℤ)
  deriving DecidableEq

/-- One operation: what it returns, and the state it leaves. -/
def Service.step (s : Service) (storeFails : Option Err) : Call → Except Err (Option Rule) × Service
  | .create rule => (s.save storeFails { rule with id := 0 }).map (Except.map some) id
  | .update id' rule =>
    if id' < 1 then (.error .notFound, s) else (s.save storeFails { rule with id := id' }).map (Except.map some) id
  | .delete id' => s.delete storeFails id'

/-- A sequence of operations, each with what the store does. -/
def Service.after (s : Service) (calls : List (Call × Option Err)) : Service :=
  calls.foldl (fun s c => (s.step c.2 c.1).2) s

end Velora.Rewrites
