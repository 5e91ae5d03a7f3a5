import Velora.Lib.Keyed
import Velora.Lib.Loops
import Velora.Webhooks.Address

/-!
# The webhook service

`internal/webhooks/webhooks.go` over `internal/database/webhooks.go`: the hooks in memory and the table below them, the
changes a request makes (`internal/api/webhooks.go`), the results of deliveries that are written into a hook, and a restart.
The hooks in memory are those of the table whatever the table lets fail, each of them is as `normalize` leaves it, and the
status of a hook tells of its deliveries alone (`webhooks_sound`).
-/

namespace Velora.Webhooks

open Velora.Lib Velora.Lib.Text Velora.Lib.Ip Velora.Lib.Loops
open Velora.Zones (byteLen)
open Velora.Filtering (URL fields)

def maxHooks : ℕ := 16
def maxNameLength : ℕ := 80
def maxTokenLength : ℕ := 512

/-- `EventTypes`. -/
def eventTypes : List Str :=
  ["upstream.unavailable".toList, "upstream.recovered".toList, "blocklist.refresh_failed".toList,
    "blocklist.refresh_recovered".toList, "backup.created".toList, "backup.failed".toList, "config.rollback".toList,
    "cluster.sync_failed".toList, "cluster.sync_recovered".toList]

/-- `severityRank`. -/
def severityRank (severity : Str) : Option ℕ :=
  if severity = "info".toList then some 0
  else if severity = "warning".toList then some 1
  else if severity = "critical".toList then some 2
  else none

/-- The library: `url.Parse`, and the folding of `strings.EqualFold`. -/
structure Env where
  parse : Str → Option URL
  fold : Char → Char

/-- A text as `strings.EqualFold` compares it. -/
def Env.folded (env : Env) (s : Str) : Str := s.map env.fold

structure Hook where
  id : ℤ := 0
  name : Str
  url : Str
  events : List Str
  minSeverity : Str
  allowPrivate : Bool
  enabled : Bool
  token : Str
  hasToken : Bool := false
  lastDeliveryAt : Option ℕ := none
  lastStatus : Str := []
  lastError : List UInt8 := []
  consecutiveFailures : ℕ := 0
  deriving DecidableEq

/-! ### What a save accepts -/

/-- A line break or the byte zero, and for a token also a blank. -/
def breaks (c : Char) : Bool := c == '\r' || c == '\n' || c.toNat == 0

/-- The loop of `normalize` over the events. -/
def normalizeEvents : List Str → List Str → Except Err (List Str)
  | [], events => .ok events
  | event :: rest, events =>
    if event ∉ eventTypes then .error (.invalid ("unknown event type ".toList ++ event))
    else normalizeEvents rest (if event ∈ events then events else events ++ [event])

/-- The severity of a hook without one. -/
def withDefault (minSeverity : Str) : Str := if minSeverity = [] then "info".toList else minSeverity

/-- `normalize`. -/
def normalize (env : Env) (hook : Hook) : Except Err Hook :=
  let name := trimSpaces hook.name
  if name = [] ∨ byteLen name > maxNameLength ∨ name.any breaks then
    .error (.invalid "name must be a single line of at most 80 characters".toList)
  else
    let url := trimSpaces hook.url
    match validateURL env.parse env.fold url hook.allowPrivate with
    | .error e => .error e
    | .ok () =>
      if byteLen hook.token > maxTokenLength ∨ hook.token.any (fun c => breaks c || c == ' ') then
        .error (.invalid "token must be at most 512 characters without spaces".toList)
      else
        let minSeverity := withDefault hook.minSeverity
        if severityRank minSeverity = none then
          .error (.invalid "minimum severity must be info, warning or critical".toList)
        else
          match normalizeEvents hook.events [] with
          | .error e => .error e
          | .ok events => .ok { hook with name := name, url := url, minSeverity := minSeverity, events := events }

/-! ### The store -/

/-- A row of the table `webhooks`. -/
structure Row where
  id : ℤ
  name : Str
  url : Str
  eventTypes : Str
  minSeverity : Str
  allowPrivate : Bool
  token : Str
  enabled : Bool
  deriving DecidableEq

/-- What is stored of a hook. -/
def Hook.row (h : Hook) : Row :=
  ⟨h.id, h.name, h.url, List.intercalate [' '] h.events, h.minSeverity, h.allowPrivate, h.token, h.enabled⟩

/-- What `LoadWebhooks` makes of a row. -/
def Row.hook (r : Row) : Hook where
  id := r.id
  name := r.name
  url := r.url
  events := fields r.eventTypes
  minSeverity := r.minSeverity
  allowPrivate := r.allowPrivate
  enabled := r.enabled
  token := r.token

/-- A name as the collation `NOCASE` and `LOWER` of SQLite see it. -/
def Row.key (r : Row) : Str := r.name.map Char.toLower

/-- What the schema says of the table. -/
structure Rows (rows : List Row) (seq : ℤ) : Prop where
  ids : (rows.map Row.id).Nodup
  keys : (rows.map Row.key).Nodup
  start : 0 ≤ seq
  range : ∀ r ∈ rows, 0 < r.id ∧ r.id ≤ seq

structure Repo where
  rows : List Row
  seq : ℤ
  table : Rows rows seq

theorem Rows.insert {rows : List Row} {seq : ℤ} (h : Rows rows seq) {row : Row}
    (hkey : ¬ rows.any (fun x => x.key = row.key)) : Rows (rows ++ [{ row with id := seq + 1 }]) (seq + 1) where
  ids := by
    refine Keyed.nodup_concat h.ids fun x hx => ?_
    have hle := (h.range x hx).2
    show x.id ≠ seq + 1
    omega
  keys := by
    refine Keyed.nodup_concat h.keys fun x hx heq => hkey ?_
    exact List.any_eq_true.2 ⟨x, hx, decide_eq_true heq⟩
  start := by
    have hseq := h.start
    omega
  range x hx := by
    have hseq := h.start
    rcases List.mem_append.1 hx with hx | hx
    · have hr := h.range x hx
      omega
    · rw [List.mem_singleton.1 hx]
      show 0 < seq + 1 ∧ seq + 1 ≤ seq + 1
      omega

theorem Rows.update {rows : List Row} {seq : ℤ} (h : Rows rows seq) {row : Row} {i : ℕ} {old : Row}
    (hi : rows[i]? = some old) (hid : old.id = row.id) (hkey : ¬ rows.any (fun x => x.id ≠ row.id && x.key = row.key)) :
    Rows (rows.set i row) seq where
  ids := by
    rw [Keyed.map_set hi hid.symm]
    exact h.ids
  keys := by
    have hi' := (List.getElem?_eq_some_iff.1 hi).1
    have hperm := (List.set_perm_cons_eraseIdx hi' row).map Row.key
    rw [hperm.nodup_iff, List.map_cons, List.nodup_cons]
    refine ⟨?_, Keyed.nodup_eraseIdx h.keys i⟩
    intro hmem
    obtain ⟨x, hx, hxkey⟩ := List.mem_map.1 hmem
    rw [← Keyed.filter_ne_eq_eraseIdx h.ids hi] at hx
    obtain ⟨hx, hne⟩ := List.mem_filter.1 hx
    rw [hid] at hne
    exact hkey (List.any_eq_true.2 ⟨x, hx, by simpa [hxkey] using hne⟩)
  start := h.start
  range x hx := by
    rcases List.mem_or_eq_of_mem_set hx with hx | rfl
    · exact h.range x hx
    · rw [← hid]
      exact h.range old (List.mem_of_getElem? hi)

theorem Rows.filter {rows : List Row} {seq : ℤ} (h : Rows rows seq) (p : Row → Bool) : Rows (rows.filter p) seq where
  ids := (List.Sublist.map Row.id List.filter_sublist).nodup h.ids
  keys := (List.Sublist.map Row.key List.filter_sublist).nodup h.keys
  start := h.start
  range x hx := h.range x (List.mem_of_mem_filter hx)

namespace Repo

/-- An empty database. -/
def new : Repo := ⟨[], 0, ⟨List.nodup_nil, List.nodup_nil, le_refl 0, by simp⟩⟩

/-- `LoadWebhooks`. -/
def loadWebhooks (db : Repo) : Except Err (List Hook) :=
  let out := (db.rows.insertionSort (fun a b => a.key ≤ b.key)).take (maxHooks + 1)
  if out.length > maxHooks then .error (.storage "stored webhook limit exceeded") else .ok (out.map Row.hook)

/-- `SaveWebhook`: an ID is drawn for a new hook. -/
def saveWebhook (db : Repo) (hook : Hook) : Except Err (Hook × Repo) :=
  if severityRank hook.minSeverity = none then .error (.storage "CHECK constraint failed: webhooks")
  else if hook.id = 0 then
    if hkey : db.rows.any (fun x => x.key = hook.row.key) then .error (.exists none)
    else
      .ok ({ hook with id := db.seq + 1 },
        ⟨db.rows ++ [{ hook.row with id := db.seq + 1 }], db.seq + 1, db.table.insert hkey⟩)
  else
    match hfind : db.rows.findIdx? (fun x => x.id = hook.id) with
    | none => .error .notFound
    | some i =>
      if hkey : db.rows.any (fun x => x.id ≠ hook.row.id && x.key = hook.row.key) then .error (.exists none)
      else
        have hat := List.findIdx?_eq_some_iff_getElem.1 hfind
        .ok (hook, ⟨db.rows.set i hook.row, db.seq,
          db.table.update (List.getElem?_eq_getElem hat.1) (of_decide_eq_true hat.2.1) hkey⟩)

/-- `DeleteWebhook`. -/
def deleteWebhook (db : Repo) (id : ℤ) : Except Err Repo :=
  if db.rows.any (fun x => x.id = id) then .ok ⟨_, db.seq, db.table.filter (fun x => x.id ≠ id)⟩
  else .error .notFound

end Repo

/-! ### The service -/

structure Service where
  hooks : List Hook
  repo : Repo

/-- A hook that says whether it has a token. -/
def Hook.marked (h : Hook) : Hook := { h with hasToken := h.token ≠ [] }

/-- `NewService`. -/
def start (repo : Repo) : Except Err Service :=
  match repo.loadWebhooks with
  | .error e => .error e
  | .ok hooks => .ok ⟨hooks.map Hook.marked, repo⟩

/-- The place of the hook with an ID. -/
def indexOf (hooks : List Hook) (id : ℤ) : Option ℕ := if id = 0 then none else hooks.findIdx? (fun h => h.id = id)

/-- The hook keeps the status of another one. -/
def Hook.withStatus (h old : Hook) : Hook :=
  { h with lastDeliveryAt := old.lastDeliveryAt, lastStatus := old.lastStatus, lastError := old.lastError,
           consecutiveFailures := old.consecutiveFailures }

/-- The hooks a new one must not share its name with: all but the one it replaces. -/
def others (hooks : List Hook) : Option ℕ → List Hook
  | none => hooks
  | some i => hooks.eraseIdx i

/-- The hook that is saved: an update without a token keeps the one that is stored. -/
def withToken (hooks : List Hook) (hook : Hook) (keepToken : Bool) (index : Option ℕ) : Hook :=
  match index.bind (fun i => hooks[i]?) with
  | none => hook
  | some old => if keepToken then { hook with token := old.token } else hook

/-- The hooks with a saved one in its place; the status of a delivery survives an edit. -/
def place (hooks : List Hook) (saved : Hook) (index : Option ℕ) : List Hook × Hook :=
  match index.bind (fun i => hooks[i]?.map (fun old => (i, old))) with
  | none => (hooks ++ [saved], saved)
  | some (i, old) => (hooks.set i (saved.withStatus old), saved.withStatus old)

/-- `save`; the store fails when the outside says so. -/
def Service.save (env : Env) (s : Service) (storeFails : Option Err) (hook : Hook) (keepToken : Bool) :
    Except Err Hook × Service :=
  if hook.id ≠ 0 ∧ indexOf s.hooks hook.id = none then (.error .notFound, s)
  else if hook.id = 0 ∧ s.hooks.length ≥ maxHooks then (.error (.invalid "at most 16 webhooks".toList), s)
  else
    match normalize env (withToken s.hooks hook keepToken (indexOf s.hooks hook.id)) with
    | .error e => (.error e, s)
    | .ok normalized =>
      match (others s.hooks (indexOf s.hooks hook.id)).find? (fun h => env.folded h.name = env.folded normalized.name) with
      | some existing => (.error (.exists (some existing.name)), s)
      | none =>
        match storeFails with
        | some e => (.error e, s)
        | none =>
          match s.repo.saveWebhook normalized with
          | .error e => (.error e, s)
          | .ok (saved, repo) =>
            let placed := place s.hooks saved.marked (indexOf s.hooks hook.id)
            (.ok placed.2, ⟨placed.1, repo⟩)

/-- `Delete`. -/
def Service.delete (s : Service) (storeFails : Option Err) (id : ℤ) : Except Err (Option Hook) × Service :=
  match s.hooks.findIdx? (fun h => h.id = id) with
  | none => (.error .notFound, s)
  | some i =>
    match storeFails with
    | some e => (.error e, s)
    | none =>
      match s.repo.deleteWebhook id with
      | .error e => (.error e, s)
      | .ok repo => (.ok none, ⟨s.hooks.eraseIdx i, repo⟩)

/-- The result of a delivery: the time, the status of the answer, and an error. -/
structure Outcome where
  at' : ℕ
  status : ℕ
  err : Option (List UInt8)
  deriving DecidableEq

/-- A hook with the result of a delivery. -/
def Hook.told (h : Hook) (o : Outcome) : Hook :=
  match o.err with
  | none =>
    { h with lastDeliveryAt := some o.at', lastStatus := "HTTP ".toList ++ decimal o.status, lastError := [],
             consecutiveFailures := 0 }
  | some e =>
    { h with lastDeliveryAt := some o.at', lastStatus := "failed".toList, lastError := e.take 200,
             consecutiveFailures := h.consecutiveFailures + 1 }

/-- `record`. -/
def record (hooks : List Hook) (id : ℤ) (o : Outcome) : List Hook := hooks.map (fun h => if h.id = id then h.told o else h)

/-! ### Requests -/

/-- The body of a request; a field that is not sent is `none`. -/
structure Input where
  name : Str
  url : Str
  events : List Str
  minSeverity : Str
  allowPrivate : Bool
  enabled : Option Bool
  token : Option Str
  deriving DecidableEq

/-- `webhookInput.hook`. -/
def Input.hook (i : Input) (id : ℤ) : Hook where
  id := id
  name := i.name
  url := i.url
  events := i.events
  minSeverity := i.minSeverity
  allowPrivate := i.allowPrivate
  enabled := i.enabled.getD true
  token := i.token.getD []

/-- The requests, the end of an attempt at a delivery, and a restart. -/
inductive Call where
  | create (input : Input)
  | update (id : ℤ) (input : Input)
  | delete (id : ℤ)
  | record (id : ℤ) (o : Outcome)
  | restart
  deriving DecidableEq

/-- One operation: what it returns, and the state it leaves. -/
def Service.step (env : Env) (s : Service) (storeFails : Option Err) : Call → Except Err (Option Hook) × Service
  | .create input => (s.save env storeFails (input.hook 0) false).map (Except.map some) id
  | .update id' input =>
    if id' < 1 then (.error .notFound, s)
    else (s.save env storeFails (input.hook id') input.token.isNone).map (Except.map some) id
  | .delete id' => s.delete storeFails id'
  | .record id' o => (.ok none, { s with hooks := Webhooks.record s.hooks id' o })
  | .restart =>
    match storeFails with
    | some e => (.error e, s)
    | none =>
      match start s.repo with
      | .error e => (.error e, s)
      | .ok s => (.ok none, s)

end Velora.Webhooks
