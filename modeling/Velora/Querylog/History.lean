import Velora.Lib.Moment
import Velora.Lib.Paging

/-!
# The history of queries

`internal/database/query_log.go` and the cursor of `GET /api/v1/queries`: `WriteQueries` inserts entries and deletes old ones in
one transaction, `ListQueries` gives a page of those that match a filter. Times are stored and compared as texts; that is to
compare the times (`retained`), and an entry is read as it was written (`readRow_row`). A client that asks for page after page is
not disturbed by what is written in between (`history_paged`).
-/

namespace Velora.Querylog.History

open Velora.Lib Velora.Lib.Text Velora.Lib.Stamp Velora.Lib.Paging

/-! ### The table -/

/-- An instant that a text of fixed width can hold. -/
abbrev Instant := { t : ℕ // year t < 10 ^ 4 }

/-- `querylog.Entry`; the duration is in nanoseconds. -/
structure Entry where
  id : ℕ := 0
  occurredAt : ℕ
  clientIP : Str
  domain : Str
  type : Str
  rcode : Str
  source : Str
  upstream : Str
  duration : ℤ
  cacheHit : Bool
  deriving DecidableEq

structure Row where
  id : ℕ
  occurredAt : Str
  clientIP : Str
  domain : Str
  queryType : Str
  responseCode : Str
  durationMicros : ℤ
  source : Str
  upstream : Str
  cacheHit : Bool
  deriving DecidableEq

/-- An entry that is logged, at an instant. -/
structure Logged where
  entry : Entry
  year_lt : year entry.occurredAt < 10 ^ 4

/-- The row of an entry. -/
def row (id : ℕ) (e : Entry) : Row where
  id := id
  occurredAt := fixed e.occurredAt
  clientIP := e.clientIP
  domain := lower e.domain
  queryType := e.type
  responseCode := e.rcode
  durationMicros := e.duration.tdiv 1000
  source := e.source
  upstream := e.upstream
  cacheHit := e.cacheHit

/-- `query_log`, in the order of the ids; `seq` is the last id that was given. -/
structure Table where
  rows : List Row := []
  seq : ℕ := 0
  ordered : Ordered Row.id rows := by simp
  bounded : ∀ r ∈ rows, 0 < r.id ∧ r.id ≤ seq := by simp
  logged : ∀ r ∈ rows, ∃ e : Logged, r = row r.id e.entry := by simp

namespace Table

variable (t : Table)

def insert (e : Logged) : Table where
  rows := t.rows ++ [row (t.seq + 1) e.entry]
  seq := t.seq + 1
  ordered := List.pairwise_append.2 ⟨t.ordered, List.pairwise_singleton _ _, fun a ha b hb => by
    rw [List.mem_singleton.1 hb]
    exact Nat.lt_succ_of_le (t.bounded a ha).2⟩
  bounded r hr := by
    rcases List.mem_append.1 hr with hr | hr
    · exact ⟨(t.bounded r hr).1, (t.bounded r hr).2.trans (Nat.le_succ _)⟩
    · rw [List.mem_singleton.1 hr]
      exact ⟨Nat.succ_pos _, le_rfl⟩
  logged r hr := by
    rcases List.mem_append.1 hr with hr | hr
    · exact t.logged r hr
    · rw [List.mem_singleton.1 hr]
      exact ⟨e, rfl⟩

/-- `DELETE` of the rows that do not meet the condition. -/
def keep (p : Row → Bool) : Table where
  rows := t.rows.filter p
  seq := t.seq
  ordered := t.ordered.filter p
  bounded r hr := t.bounded r (List.mem_filter.1 hr).1
  logged r hr := t.logged r (List.mem_filter.1 hr).1

/-- `COALESCE(MAX(id),0)` -/
def maxID : ℕ := (t.rows.map Row.id).max?.getD 0

/-- `WriteQueries`, when no statement fails. -/
def writeQueries (entries : List Logged) (before : Instant) (maxRows : ℤ) : Except String Table :=
  if maxRows < 1 then .error "invalid query history capacity"
  else
    let t := entries.foldl insert t
    let t := t.keep (fun r => ¬ r.occurredAt < fixed before)
    .ok (t.keep (fun r => ¬ (r.id : ℤ) ≤ t.maxID - maxRows))

/-- Ids that were given in a transaction that is undone are lost, or not. -/
def skip (lost : ℕ) : Table :=
  { t with
    seq := t.seq + lost
    bounded := fun r hr => ⟨(t.bounded r hr).1, (t.bounded r hr).2.trans (Nat.le_add_right _ _)⟩ }

end Table

/-- A call of `WriteQueries`, and whether one of its statements fails, with the ids that are lost then. -/
structure Write where
  entries : List Logged
  before : Instant
  maxRows : ℤ
  fails : Option ℕ := none

/-- The call gives no error. -/
def Write.succeeds (w : Write) : Prop := 1 ≤ w.maxRows ∧ w.fails = none

instance (w : Write) : Decidable w.succeeds := inferInstanceAs (Decidable (_ ∧ _))

def Table.write (t : Table) (w : Write) : Table :=
  match w.fails with
  | some lost => t.skip lost
  | none => ((t.writeQueries w.entries w.before w.maxRows).toOption).getD t

def Table.after (t : Table) (ws : List Write) : Table := ws.foldl Table.write t

/-! ### Retention -/

/-- The rows of entries that get the ids above `seq`. -/
def rowsFrom (seq : ℕ) : List Logged → List Row
  | [] => []
  | e :: es => row (seq + 1) e.entry :: rowsFrom (seq + 1) es

/-- All rows that calls insert, also those that are deleted again. -/
def ledger (t : Table) : List Write → List Row
  | [] => []
  | w :: ws => (if w.succeeds then rowsFrom t.seq w.entries else []) ++ ledger (t.write w) ws

/-- The row as an entry. -/
def readRow (r : Row) : Except String Entry :=
  match parse readNano r.occurredAt with
  | none => .error "invalid stored query timestamp"
  | some t => .ok ⟨r.id, t, r.clientIP, r.domain, r.queryType, r.responseCode, r.source, r.upstream, 1000 * r.durationMicros,
      r.cacheHit⟩

/-- What is left of an entry: the domain in lower case and whole microseconds. -/
def Entry.stored (e : Entry) (id : ℕ) : Entry :=
  { e with id := id, domain := lower e.domain, duration := 1000 * e.duration.tdiv 1000 }

/-- **An entry is read as it was written**, but for that. -/
theorem readRow_row (id : ℕ) (e : Logged) : readRow (row id e.entry) = .ok (e.entry.stored id) := by
  rw [readRow, row, parse_fixed e.year_lt]
  rfl

variable {t : Table} {w : Write} {ws : List Write} {r : Row} {e : Logged}

theorem foldl_insert (t : Table) (es : List Logged) :
    (es.foldl Table.insert t).rows = t.rows ++ rowsFrom t.seq es ∧ (es.foldl Table.insert t).seq = t.seq + es.length := by
  induction es generalizing t with
  | nil => exact ⟨(List.append_nil _).symm, rfl⟩
  | cons e es ih =>
    obtain ⟨hrows, hseq⟩ := ih (t.insert e)
    rw [List.foldl_cons, hrows, hseq, rowsFrom, List.length_cons]
    simp only [Table.insert, List.append_assoc, List.singleton_append, true_and]
    omega

theorem lt_of_mem_rowsFrom {seq : ℕ} {es : List Logged} (h : r ∈ rowsFrom seq es) : seq < r.id := by
  induction es generalizing seq with
  | nil => cases h
  | cons e es ih =>
    rcases List.mem_cons.1 h with rfl | h
    · exact Nat.lt_succ_self seq
    · exact (Nat.lt_succ_self seq).trans (ih h)

theorem Table.le_maxID (h : r ∈ t.rows) : r.id ≤ t.maxID := by
  have hmem : r.id ∈ t.rows.map Row.id := List.mem_map_of_mem h
  obtain ⟨m, hm⟩ := Option.isSome_iff_exists.1 (List.isSome_max?_of_mem hmem)
  rw [maxID, hm]
  exact (List.max?_eq_some_iff.1 hm).2 _ hmem

theorem Table.maxID_le (t : Table) : t.maxID ≤ t.seq := by
  unfold maxID
  cases hmax : (t.rows.map Row.id).max? with
  | none => exact Nat.zero_le _
  | some m =>
    obtain ⟨r, hr, rfl⟩ := List.mem_map.1 (List.max?_mem hmax)
    exact (t.bounded r hr).2

/-- The row is neither too old nor one too many, when `top` is the greatest id of those that are not too old. -/
def Write.retains (w : Write) (top : ℕ) (r : Row) : Bool := ¬ r.occurredAt < fixed w.before ∧ (top : ℤ) - w.maxRows < r.id

theorem retains_iff {top : ℕ} : w.retains top r = true ↔ ¬ r.occurredAt < fixed w.before ∧ (top : ℤ) - w.maxRows < r.id := by
  rw [Write.retains, decide_eq_true_eq]

/-- What a call does that gives no error. -/
theorem write_succeeds (t : Table) (h : w.succeeds) : ∃ top : ℕ, top ≤ t.seq + w.entries.length ∧
    (t.write w).seq = t.seq + w.entries.length ∧ (∀ r ∈ (t.write w).rows, r.id ≤ top) ∧
    (t.write w).rows = (t.rows ++ rowsFrom t.seq w.entries).filter (w.retains top) := by
  obtain ⟨hrows, hseq⟩ := foldl_insert t w.entries
  let young := (w.entries.foldl Table.insert t).keep (fun r => ¬ r.occurredAt < fixed w.before)
  have hwrite : t.write w = young.keep (fun r => ¬ (r.id : ℤ) ≤ young.maxID - w.maxRows) := by
    rw [Table.write, h.2]
    dsimp only
    rw [Table.writeQueries, if_neg (not_lt.2 h.1)]
    rfl
  refine ⟨young.maxID, (Table.maxID_le _).trans_eq hseq, ?_, fun r hr => ?_, ?_⟩
  · rw [hwrite]
    exact hseq
  · rw [hwrite] at hr
    exact Table.le_maxID (t := young) (List.mem_filter.1 hr).1
  · rw [hwrite, ← hrows]
    refine List.filter_filter.trans (List.filter_congr fun r _ => ?_)
    rw [Bool.eq_iff_iff, retains_iff, Bool.and_eq_true, decide_eq_true_eq, decide_eq_true_eq, not_le, and_comm]

theorem write_fails (t : Table) (h : ¬ w.succeeds) : (t.write w).rows = t.rows ∧ t.seq ≤ (t.write w).seq := by
  rw [Table.write]
  cases hf : w.fails with
  | some lost => exact ⟨rfl, Nat.le_add_right _ _⟩
  | none =>
    have hmax : w.maxRows < 1 := not_le.1 fun hle => h ⟨hle, hf⟩
    simp only [Table.writeQueries, if_pos hmax]
    exact ⟨rfl, le_rfl⟩

theorem seq_le_write (t : Table) (w : Write) : t.seq ≤ (t.write w).seq := by
  by_cases h : w.succeeds
  · obtain ⟨-, -, hseq, -⟩ := write_succeeds t h
    exact hseq ▸ Nat.le_add_right _ _
  · exact (write_fails t h).2

theorem seq_le_after (t : Table) (ws : List Write) : t.seq ≤ (t.after ws).seq := by
  induction ws generalizing t with
  | nil => exact le_rfl
  | cons w ws ih => exact (seq_le_write t w).trans (ih (t.write w))

/-- Rows of ascending ids fill no more than the room between two bounds. -/
theorem length_le_of_between {rows : List Row} {top : ℕ} {m : ℤ} (ho : Ordered Row.id rows)
    (hrows : ∀ r ∈ rows, r.id ≤ top ∧ (top : ℤ) - m < r.id) (hm : 0 ≤ m) : (rows.length : ℤ) ≤ m := by
  have hnodup : (rows.map (fun r => (r.id : ℤ))).Nodup :=
    (List.pairwise_map.2 (ho.imp fun hlt => by exact_mod_cast hlt.ne))
  have hsub : (rows.map (fun r => (r.id : ℤ))).toFinset ⊆ Finset.Ioc ((top : ℤ) - m) top := by
    intro z hz
    obtain ⟨r, hr, rfl⟩ := List.mem_map.1 (List.mem_toFinset.1 hz)
    exact Finset.mem_Ioc.2 ⟨(hrows r hr).2, by exact_mod_cast (hrows r hr).1⟩
  have hcard := Finset.card_le_card hsub
  rw [List.toFinset_card_of_nodup hnodup, List.length_map, Int.card_Ioc] at hcard
  omega

/-- A row is there still if no call has found it too old or one too many. -/
theorem mem_after (hr : r ∈ t.rows ∨ r ∈ ledger t ws) (he : r = row r.id e.entry)
    (hws : ∀ v ∈ ws, v.succeeds → v.before ≤ e.entry.occurredAt ∧ ((t.after ws).seq : ℤ) < r.id + v.maxRows) :
    r ∈ (t.after ws).rows := by
  induction ws generalizing t with
  | nil =>
    rcases hr with hr | hr
    · exact hr
    · cases hr
  | cons w ws ih =>
    refine ih (t := t.write w) ?_ fun v hv => hws v (List.mem_cons_of_mem _ hv)
    by_cases hw : w.succeeds
    · obtain ⟨top, htop, hseq, -, hrows⟩ := write_succeeds t hw
      obtain ⟨hbefore, hroom⟩ := hws w List.mem_cons_self hw
      have hle : (t.write w).seq ≤ (t.after (w :: ws)).seq := seq_le_after (t.write w) ws
      have hold : ¬ r.occurredAt < fixed w.before := by
        rw [he, row, fixed_lt e.year_lt w.before.2]
        exact not_lt.2 hbefore
      have hkept : (top : ℤ) - w.maxRows < r.id := by omega
      rw [ledger, if_pos hw] at hr
      rw [hrows, List.mem_filter, List.mem_append, retains_iff]
      rcases hr with hr | hr
      · exact Or.inl ⟨Or.inl hr, hold, hkept⟩
      · rcases List.mem_append.1 hr with hr | hr
        · exact Or.inl ⟨Or.inr hr, hold, hkept⟩
        · exact Or.inr hr
    · rw [ledger, if_neg hw, List.nil_append] at hr
      rwa [(write_fails t hw).1]

/-- No row comes from anywhere else. -/
theorem mem_of_after (h : r ∈ (t.after ws).rows) : r ∈ t.rows ∨ r ∈ ledger t ws := by
  induction ws generalizing t with
  | nil => exact Or.inl h
  | cons w ws ih =>
    rw [ledger]
    rcases ih (t := t.write w) h with hr | hr
    · by_cases hw : w.succeeds
      · obtain ⟨_, -, -, -, hrows⟩ := write_succeeds t hw
        rw [hrows, List.mem_filter, List.mem_append] at hr
        rcases hr.1 with hr | hr
        · exact Or.inl hr
        · exact Or.inr (List.mem_append_left _ (by rwa [if_pos hw]))
      · rw [(write_fails t hw).1] at hr
        exact Or.inl hr
    · exact Or.inr (List.mem_append_right _ hr)

/-- **What is retained.** After a call that gives no error, and whatever calls came before, there are at most `maxRows` rows,
each of an entry that was logged and is not older than `before`; and of the entries that were logged those are there that no call
has found too old, while fewer ids than `maxRows` were given since. -/
theorem retained (t : Table) (ws : List Write) (w : Write) (hw : w.succeeds) :
    ((t.after (ws ++ [w])).rows.length : ℤ) ≤ w.maxRows ∧
    (∀ r ∈ (t.after (ws ++ [w])).rows, (r ∈ t.rows ∨ r ∈ ledger t (ws ++ [w])) ∧
      ∃ e : Logged, readRow r = .ok (e.entry.stored r.id) ∧ w.before ≤ e.entry.occurredAt) ∧
    ∀ r (e : Logged), (r ∈ t.rows ∨ r ∈ ledger t (ws ++ [w])) → r = row r.id e.entry →
      (∀ v ∈ ws ++ [w], v.succeeds → v.before ≤ e.entry.occurredAt ∧ ((t.after (ws ++ [w])).seq : ℤ) < r.id + v.maxRows) →
      r ∈ (t.after (ws ++ [w])).rows := by
  have hlast : t.after (ws ++ [w]) = (t.after ws).write w := by rw [Table.after, List.foldl_append]; rfl
  obtain ⟨top, -, -, htop, hrows⟩ := write_succeeds (t.after ws) hw
  have hspec : ∀ r ∈ ((t.after ws).write w).rows, ¬ r.occurredAt < fixed w.before ∧ (top : ℤ) - w.maxRows < r.id := by
    intro r hr
    rw [hrows] at hr
    exact retains_iff.1 (List.mem_filter.1 hr).2
  refine ⟨?_, fun r hr => ⟨mem_of_after hr, ?_⟩, fun r e hr he hws => mem_after hr he hws⟩
  · rw [hlast]
    exact length_le_of_between (Table.ordered _) (fun r hr => ⟨htop r hr, (hspec r hr).2⟩) (by have := hw.1; omega)
  · obtain ⟨e, he⟩ := Table.logged _ r hr
    refine ⟨e, by rw [he]; exact readRow_row r.id e, ?_⟩
    rw [hlast] at hr
    have hage := (hspec r hr).1
    rw [he, row, fixed_lt e.year_lt w.before.2] at hage
    exact not_lt.1 hage

namespace Example

/-- Two queries of the first day there is; there is room for one. -/
def early : Logged :=
  ⟨{ occurredAt := 1800000000000, clientIP := "10.0.0.1".toList, domain := "Host.Example.".toList, type := "A".toList,
     rcode := "NOERROR".toList, source := "cache".toList, upstream := [], duration := 1500, cacheHit := true }, by decide⟩

def late : Logged := ⟨{ early.entry with occurredAt := 3600000000000 }, by decide⟩

def keepOne : Write := ⟨[early, late], ⟨1800000000000, by decide⟩, 1, none⟩

end Example

open Example in
theorem retained_one : (((({} : Table).after ([] ++ [keepOne])).rows.length : ℤ) ≤ 1) ∧
    row 2 late.entry ∈ (({} : Table).after ([] ++ [keepOne])).rows :=
  ⟨(retained {} [] keepOne (by decide)).1,
    (retained {} [] keepOne (by decide)).2.2 (row 2 late.entry) late (Or.inr (by decide +kernel)) rfl (by decide +kernel)⟩

/-! ### Pages -/

/-- `querylog.Filter`; a text that is empty and a `before` that is not positive do not narrow it. -/
structure Filter where
  domain : Str := []
  client : Str := []
  type : Str := []
  source : Str := []
  limit : ℤ := 100
  before : ℤ := 0

/-- What the statement asks of a row, but for its id. -/
def Filter.accepts (f : Filter) (r : Row) : Bool :=
  (f.domain = [] || lower f.domain <:+: r.domain) && (f.client = [] || r.clientIP = f.client) &&
    (f.type = [] || r.queryType = f.type) && (f.source = [] || r.source = f.source)

/-- The bound on the ids, if there is one. -/
def Filter.below (f : Filter) : Option ℕ := if f.before > 0 then some f.before.toNat else none

/-- `ListQueries`. -/
def Table.listQueries (t : Table) (f : Filter) : Except String (List Entry) :=
  if f.limit < 1 ∨ f.limit > 500 then .error "invalid query limit"
  else (page Row.id f.accepts f.limit.toNat f.below t.rows).mapM readRow

/-- The answers to a client that goes on below `X-Next-Before`, the id of the last entry, until an answer has no entries; between
two of them the history goes on. -/
def browse (f : Filter) (t : Table) : List (List Write) → List (Except String (List Entry))
  | [] => [t.listQueries f]
  | ws :: gaps =>
    match t.listQueries f with
    | .error e => [.error e]
    | .ok entries =>
      match entries.getLast? with
      | none => [.ok entries]
      | some e => .ok entries :: browse { f with before := e.id } (t.after ws) gaps

/-- The tables that the later answers are from. -/
def tables (t : Table) : List (List Write) → List Table
  | [] => []
  | ws :: gaps => t.after ws :: tables (t.after ws) gaps

/-- The entry that a row is read as. -/
def Row.entry (r : Row) : Entry :=
  ⟨r.id, (parse readNano r.occurredAt).getD 0, r.clientIP, r.domain, r.queryType, r.responseCode, r.source, r.upstream,
    1000 * r.durationMicros, r.cacheHit⟩

variable {f : Filter} {gaps : List (List Write)}

theorem readRow_of_mem (h : r ∈ t.rows) : readRow r = .ok r.entry := by
  obtain ⟨e, he⟩ := t.logged r h
  have hparse : parse readNano r.occurredAt = some e.entry.occurredAt := by
    rw [he]
    exact parse_fixed e.year_lt
  rw [readRow, Row.entry, hparse]
  rfl

theorem mapM_readRow {rows : List Row} (h : ∀ r ∈ rows, readRow r = .ok r.entry) :
    rows.mapM readRow = .ok (rows.map Row.entry) := by
  induction rows with
  | nil => rfl
  | cons r rows ih =>
    rw [List.mapM_cons, h r List.mem_cons_self, ih fun r hr => h r (List.mem_cons_of_mem _ hr)]
    rfl

theorem listQueries_eq (t : Table) (hlimit : 1 ≤ f.limit ∧ f.limit ≤ 500) :
    t.listQueries f = .ok ((page Row.id f.accepts f.limit.toNat f.below t.rows).map Row.entry) := by
  rw [Table.listQueries, if_neg (by omega)]
  exact mapM_readRow fun r hr => readRow_of_mem (mem_page hr).1

/-- The answers are the pages of the tables. -/
theorem browse_eq (t : Table) (hlimit : 1 ≤ f.limit ∧ f.limit ≤ 500) (gaps : List (List Write)) :
    browse f t gaps = (crawl Row.id f.accepts f.limit.toNat f.below (t.rows :: (tables t gaps).map Table.rows)).map
      (fun rows => .ok (rows.map Row.entry)) := by
  induction gaps generalizing f t with
  | nil =>
    rw [browse, listQueries_eq t hlimit, tables, List.map_nil]
    rcases crawl_cases Row.id f.accepts f.limit.toNat f.below t.rows [] with ⟨hnil, hcrawl⟩ | ⟨z, -, hcrawl⟩
    · rw [hcrawl, hnil]
      rfl
    · rw [hcrawl]
      rfl
  | cons ws gaps ih =>
    rw [browse, listQueries_eq t hlimit, tables, List.map_cons]
    rcases crawl_cases Row.id f.accepts f.limit.toNat f.below t.rows
      ((t.after ws).rows :: (tables (t.after ws) gaps).map Table.rows) with ⟨hnil, hcrawl⟩ | ⟨z, hz, hcrawl⟩
    · rw [hcrawl, hnil]
      rfl
    · have hpos : 0 < z.id := (t.bounded z (mem_page (List.mem_of_getLast? hz)).1).1
      have hbelow : ({ f with before := z.entry.id } : Filter).below = some z.id := if_pos (Int.natCast_pos.2 hpos)
      rw [hcrawl, List.map_cons]
      dsimp only
      rw [List.getLast?_map, hz, Option.map_some]
      dsimp only
      rw [ih (f := { f with before := z.entry.id }) (t.after ws) hlimit, hbelow]
      rfl

/-- Calls delete rows and insert new ones. -/
theorem later_write (t : Table) (w : Write) : Later Row.id t.seq t.rows (t.write w).rows := by
  by_cases h : w.succeeds
  · obtain ⟨top, -, -, -, hrows⟩ := write_succeeds t h
    rw [hrows, List.filter_append]
    exact ⟨_, _, rfl, List.filter_sublist, fun r hr => lt_of_mem_rowsFrom (List.mem_filter.1 hr).1⟩
  · rw [(write_fails t h).1]
    exact Later.refl _ _

theorem later_after (t : Table) (ws : List Write) : Later Row.id t.seq t.rows (t.after ws).rows := by
  induction ws generalizing t with
  | nil => exact Later.refl _ _
  | cons w ws ih => exact (later_write t w).trans ((ih (t.write w)).mono (seq_le_write t w))

theorem evolves_tables {n : ℕ} (t : Table) (hn : n ≤ t.seq) (gaps : List (List Write)) :
    Evolves Row.id n t.rows ((tables t gaps).map Table.rows) := by
  induction gaps generalizing t with
  | nil => exact t.ordered
  | cons ws gaps ih =>
    exact ⟨t.ordered, (later_after t ws).mono hn, ih (t.after ws) (hn.trans (seq_le_after t ws))⟩

theorem tables_length (t : Table) (gaps : List (List Write)) : (tables t gaps).length = gaps.length := by
  induction gaps generalizing t with
  | nil => rfl
  | cons ws gaps ih => exact congrArg (· + 1) (ih (t.after ws))

theorem below_iff (f : Filter) (r : Row) : Paging.below Row.id f.below r = true ↔ (f.before > 0 → (r.id : ℤ) < f.before) := by
  rw [Filter.below]
  split
  · rename_i h
    rw [Paging.below, Option.all_some, decide_eq_true_eq]
    omega
  · rename_i h
    exact ⟨fun _ h' => absurd h' h, fun _ => rfl⟩

/-- **Page after page**, whatever is written in between: no answer is an error, the entries come in descending order of their
ids, and they are from the history as it was at first and match the filter. A client is at the end after as many pages as there
were rows, and one; it has seen every matching entry that was there all the time. -/
theorem history_paged (t : Table) (f : Filter) (gaps : List (List Write)) (hlimit : 1 ≤ f.limit ∧ f.limit ≤ 500) :
    ∃ pages : List (List Entry), browse f t gaps = pages.map Except.ok ∧
      pages.flatten.Pairwise (fun a b => b.id < a.id) ∧
      (∀ e ∈ pages.flatten, ∃ r ∈ t.rows, readRow r = .ok e ∧ f.accepts r = true ∧ (f.before > 0 → (r.id : ℤ) < f.before)) ∧
      (t.rows.length ≤ gaps.length → [] ∈ pages) ∧
      ([] ∈ pages → ∀ r ∈ t.rows, (∀ t' ∈ tables t gaps, r ∈ t'.rows) → f.accepts r = true →
        (f.before > 0 → (r.id : ℤ) < f.before) → ∃ e ∈ pages.flatten, readRow r = .ok e) := by
  set found := crawl Row.id f.accepts f.limit.toNat f.below (t.rows :: (tables t gaps).map Table.rows)
  have hevolves := evolves_tables t le_rfl gaps
  have hold : ∀ r ∈ t.rows, Paging.below Row.id f.below r = true → r.id ≤ t.seq := fun r hr _ => (t.bounded r hr).2
  obtain ⟨hdesc, hmem⟩ : found.flatten.Pairwise (fun a b => b.id < a.id) ∧
      ∀ r ∈ found.flatten, r ∈ t.rows ∧ f.accepts r = true ∧ Paging.below Row.id f.below r = true := crawl_sound hevolves hold
  have hflat : (found.map (List.map Row.entry)).flatten = found.flatten.map Row.entry := List.map_flatten.symm
  refine ⟨found.map (List.map Row.entry), ?_, ?_, ?_, ?_, ?_⟩
  · rw [browse_eq t hlimit gaps, List.map_map]
    rfl
  · rw [hflat, List.pairwise_map]
    exact hdesc
  · intro e he
    rw [hflat] at he
    obtain ⟨r, hr, rfl⟩ := List.mem_map.1 he
    obtain ⟨hrow, haccepts, hbelow⟩ := hmem r hr
    exact ⟨r, hrow, readRow_of_mem hrow, haccepts, (below_iff f r).1 hbelow⟩
  · intro hlen
    refine List.mem_map.2 ⟨[], crawl_ends hevolves hold ?_, rfl⟩
    rw [List.length_map, tables_length]
    exact (List.length_filter_le _ _).trans hlen
  · intro hend r hr hthere haccepts hbelow
    obtain ⟨last, hlast, hnil⟩ := List.mem_map.1 hend
    rw [List.map_eq_nil_iff.1 hnil] at hlast
    refine ⟨r.entry, ?_, readRow_of_mem hr⟩
    rw [hflat]
    refine List.mem_map_of_mem (mem_crawl (by omega) hevolves ?_ haccepts ((below_iff f r).2 hbelow) hlast)
    intro rows hrows
    rcases List.mem_cons.1 hrows with rfl | hrows
    · exact hr
    · obtain ⟨t', ht', rfl⟩ := List.mem_map.1 hrows
      exact hthere t' ht'

open Example in
theorem history_paged_two : ∃ pages : List (List Entry),
    browse { limit := 1 } (({} : Table).insert early) [[keepOne], []] = pages.map Except.ok ∧ [] ∈ pages := by
  obtain ⟨pages, hpages, -, -, hend, -⟩ := history_paged (({} : Table).insert early) { limit := 1 } [[keepOne], []] (by decide)
  exact ⟨pages, hpages, hend (by decide)⟩

end Velora.Querylog.History
