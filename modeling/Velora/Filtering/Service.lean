import Velora.Filtering.Matcher
import Velora.Filtering.Parser
import Velora.Lib.Keyed
import Velora.Lib.Prog

/-!
# The blocklist service

`internal/filtering/service.go` over `internal/database/blocklists.go`. The sources exist four times: in the store, in the
service, in the matcher compiled from them and in the snapshot published for other readers. In every run the four agree
(`service_consistent`), whatever the store and the downloads do, and an operation that fails changes no decision
(`step_failed`).
-/

namespace Velora.Filtering

open Velora.Lib Velora.Lib.Text Velora.Lib.Loops Velora.Dns
open Velora.Zones (byteLen)

def maxSources : ℕ := 32
def maxTotalDomains : ℕ := 250000
def minUpdateInterval : ℤ := 3600
def maxUpdateInterval : ℤ := 7 * 24 * 3600

structure Source where
  id : ℤ
  name : Str
  url : Str
  enabled : Bool
  lastUpdatedAt : Option ℤ := none
  lastError : Str := []
  domainCount : ℕ := 0
  domains : List Str := []
  /-- in seconds; zero is a list that is refreshed by hand -/
  updateInterval : ℤ := 0
  lastAttemptAt : Option ℤ := none
  consecutiveFailures : ℕ := 0
  deriving DecidableEq

/-- `ValidInterval`. -/
def validInterval (seconds : ℤ) : Bool :=
  seconds = 0 || (minUpdateInterval ≤ seconds && seconds ≤ maxUpdateInterval)

/-! ### The store -/

/-- A source as its row and those of its domains are read back. -/
def row (s : Source) : Source := { s with domainCount := 0, domains := s.domains.insertionSort (fun a b => a ≤ b) }

theorem row_id (x : Source) : (row x).id = x.id := rfl

theorem row_row (x : Source) : row (row x) = row x := by
  have hsort : (row x).domains.insertionSort (fun a b => a ≤ b) = (row x).domains :=
    List.Pairwise.insertionSort_eq (List.pairwise_insertionSort _ x.domains)
  exact congrArg (fun ds => { row x with domains := ds }) hsort

/-- What the schema says of the tables: the IDs are keys, drawn from a sequence, and the rows are what is read back. -/
structure Table (rows : List Source) (seq : ℤ) : Prop where
  nodup : (rows.map Source.id).Nodup
  start : 0 ≤ seq
  range : ∀ x ∈ rows, 0 < x.id ∧ x.id ≤ seq
  read : ∀ x ∈ rows, row x = x

namespace Table

variable {rows : List Source} {seq : ℤ} (h : Table rows seq)

include h

theorem insert (s : Source) : Table (rows ++ [row { s with id := seq + 1 }]) (seq + 1) where
  nodup := by
    refine Keyed.nodup_concat h.nodup fun x hx => ?_
    have hle := (h.range x hx).2
    show x.id ≠ seq + 1
    omega
  start := by
    have hseq := h.start
    omega
  range x hx := by
    have hseq := h.start
    rcases List.mem_append.1 hx with hx | hx
    · have hr := h.range x hx
      omega
    · rw [List.mem_singleton.1 hx]
      show 0 < seq + 1 ∧ seq + 1 ≤ seq + 1
      omega
  read x hx := by
    rcases List.mem_append.1 hx with hx | hx
    · exact h.read x hx
    · rw [List.mem_singleton.1 hx]
      exact row_row _

theorem update (s : Source) : Table (rows.map (fun x => if x.id = s.id then row s else x)) seq where
  nodup := by
    have hids : (rows.map (fun x => if x.id = s.id then row s else x)).map Source.id = rows.map Source.id := by
      rw [List.map_map]
      refine List.map_congr_left fun x _ => ?_
      simp only [Function.comp]
      split
      · rename_i hx
        exact hx.symm
      · rfl
    rw [hids]
    exact h.nodup
  start := h.start
  range x hx := by
    obtain ⟨y, hy, rfl⟩ := List.mem_map.1 hx
    split
    · rename_i hid
      have hr := h.range y hy
      rw [hid] at hr
      exact hr
    · exact h.range y hy
  read x hx := by
    obtain ⟨y, hy, rfl⟩ := List.mem_map.1 hx
    split
    · exact row_row s
    · exact h.read y hy

theorem filter (p : Source → Bool) : Table (rows.filter p) seq where
  nodup := (List.Sublist.map Source.id List.filter_sublist).nodup h.nodup
  start := h.start
  range x hx := h.range x (List.mem_of_mem_filter hx)
  read x hx := h.read x (List.mem_of_mem_filter hx)

end Table

/-- The tables as `LoadSources` reads them: the sources by ID, each with its domains in order. -/
structure Repo where
  rows : List Source
  seq : ℤ
  table : Table rows seq

namespace Repo

/-- `LoadSources`. -/
def loadSources (db : Repo) : Except Err (List Source) :=
  if db.rows.length > maxSources then .error (.storage "stored source limit exceeded")
  else if (db.rows.map (fun s => s.domains.length)).sum > maxTotalDomains then
    .error (.storage "stored domain limit exceeded")
  else .ok db.rows

/-- `SaveSource`: an ID is drawn for a new source; names are unique, and so are the domains of a source. -/
def saveSource (db : Repo) (s : Source) : Except Err (Source × Repo) :=
  if s.id = 0 then
    if db.rows.any (fun x => x.name = s.name) then .error .exists
    else if ¬ s.domains.Nodup then .error (.storage "UNIQUE constraint failed: blocklist_domains")
    else
      let saved := { s with id := db.seq + 1 }
      .ok (saved, ⟨db.rows ++ [row saved], db.seq + 1, db.table.insert s⟩)
  else if ¬ db.rows.any (fun x => x.id = s.id) then .error .notFound
  else if db.rows.any (fun x => x.id ≠ s.id && x.name = s.name) then .error .exists
  else if ¬ s.domains.Nodup then .error (.storage "UNIQUE constraint failed: blocklist_domains")
  else .ok (s, ⟨_, db.seq, db.table.update s⟩)

/-- `DeleteSource`; the rows of the domains go with the source. -/
def deleteSource (db : Repo) (id : ℤ) : Except Err Repo :=
  if db.rows.any (fun x => x.id = id) then .ok ⟨_, db.seq, db.table.filter (fun x => x.id ≠ id)⟩
  else .error .notFound

end Repo

/-! ### The service -/

/-- The rules of a list. -/
def listRules (domains : List Str) : List Rule := domains.map (fun d => ⟨d, true, .block⟩)

/-- The loop of `compile`. -/
def collect : List Source → ℕ → List Rule → Except Err (List Rule)
  | [], _, rules => .ok rules
  | s :: rest, total, rules =>
    let total := total + s.domains.length
    if s.domains.length > maxDomains ∨ total > maxTotalDomains then .error (.invalid "too many stored domains")
    else collect rest total (if s.enabled then rules ++ listRules s.domains else rules)

/-- `compile`. -/
def compile (static : List Rule) (sources : List Source) : Except Err Matcher :=
  if sources.length > maxSources then .error (.invalid "too many sources")
  else do
    let rules ← collect sources 0 static
    match new rules with
    | some m => .ok m
    | none => .error (.failed "invalid domain")

/-- `Subset`, of the published sources: a list that is named applies also when it is disabled. -/
def subset (static : List Rule) (published : List Source) (ids : List ℤ) (extra : List Rule) : Except Err Matcher :=
  match new (static ++ extra ++ published.flatMap (fun s => if s.id ∈ ids then listRules s.domains else [])) with
  | some m => .ok m
  | none => .error (.failed "invalid domain")

/-- The service and the store below it. -/
structure Service where
  static : List Rule
  sources : List Source
  current : Matcher
  published : List Source
  repo : Repo

/-- `NewService`. -/
def start (static : List Rule) (repo : Repo) : Except Err Service := do
  let sources ← repo.loadSources
  let matcher ← compile static sources
  .ok ⟨static, sources, matcher, sources, repo⟩

/-- The loop of `index`: the first source with the ID, and where it stands. -/
def Service.find (s : Service) (id : ℤ) : Option (Source × ℕ) := s.sources.zipIdx.find? (fun p => p.1.id = id)

/-- `index`. -/
def Service.index (s : Service) (id : ℤ) : Option ℕ := (s.find id).map Prod.snd

/-- What the outside does to an operation: another one holds the lock, the store fails, the time it is, and what a download
brings. -/
structure Outside where
  busy : Bool := false
  storeFails : Option Err := none
  now : ℤ := 0
  download : Except Err Str := .error (.failed "source download failed")

/-- A source that has been saved, with the number of its domains. -/
def counted (s : Source) : Source := { s with domainCount := s.domains.length }

/-- Store a source that replaces the one at `index` or is new, and publish it. -/
def Service.put (s : Service) (o : Outside) (index : Option ℕ) (matcher : Matcher) (source : Source) :
    Except Err Source × Service :=
  match o.storeFails with
  | some e => (.error e, s)
  | none =>
    match s.repo.saveSource source with
    | .error e => (.error e, s)
    | .ok (saved, repo) =>
      let saved := counted saved
      let sources := match index with
        | some i => s.sources.set i saved
        | none => s.sources ++ [saved]
      (.ok saved, { s with sources := sources, current := matcher, published := sources, repo := repo })

/-- `save`. -/
def Service.save (s : Service) (o : Outside) (source : Source) : Except Err Source × Service :=
  let index := s.index source.id
  let candidate := match index with
    | some i => s.sources.set i source
    | none => s.sources ++ [source]
  match compile s.static candidate with
  | .error e => (.error e, s)
  | .ok matcher => s.put o index matcher source

/-- The operations. -/
inductive Call where
  | create (name url : Str) (enabled : Bool) (interval : ℤ)
  | setSchedule (id interval : ℤ)
  | setEnabled (id : ℤ) (enabled : Bool)
  | replaceLocal (id : ℤ) (text : Str)
  | refresh (id : ℤ)
  | delete (id : ℤ)

/-- The error of a schedule. -/
def scheduleError : Err :=
  .invalid "schedule must be manual or between 1 hour and 7 days, and only applies to URL sources"

/-- `Create`. -/
def Service.create (validateURL : Str → Option Err) (s : Service) (o : Outside) (name url : Str) (enabled : Bool)
    (interval : ℤ) : Except Err Source × Service :=
  let name := trimSpaces name
  let url := trimSpaces url
  if byteLen name < 1 ∨ byteLen name > 120 ∨ name.any (fun c => c == '\r' || c == '\n' || c.toNat == 0) then
    (.error (.invalid ""), s)
  else
    match if url ≠ [] then validateURL url else none with
    | some e => (.error e, s)
    | none =>
      if ¬ validInterval interval ∨ (url = [] ∧ interval ≠ 0) then (.error scheduleError, s)
      else if s.sources.any (fun x => x.name = name) then (.error .exists, s)
      else s.save o { id := 0, name := name, url := url, enabled := enabled, updateInterval := interval }

/-- `SetSchedule`, from the source on. -/
def Service.setSchedule (s : Service) (o : Outside) (source : Source) (interval : ℤ) : Except Err Source × Service :=
  if ¬ validInterval interval ∨ (source.url = [] ∧ interval ≠ 0) then (.error scheduleError, s)
  else s.save o { source with updateInterval := interval }

/-- `ReplaceLocal`, from the source on. -/
def Service.replaceLocal (s : Service) (o : Outside) (source : Source) (domains : List Str) :
    Except Err Source × Service :=
  if source.url ≠ [] then (.error (.invalid "manual content requires a local source"), s)
  else s.save o { source with domains := domains, lastUpdatedAt := some o.now, lastError := [] }

/-- `FetchHosts`. -/
def fetch (o : Outside) : Except Err (List Str) := o.download >>= parseHosts

/-- `Refresh`, from the source on. After a failed download only the bookkeeping is stored. -/
def Service.refresh (s : Service) (o : Outside) (source : Source) : Except Err Source × Service :=
  if source.url = [] then (.error (.invalid "local sources use manual content"), s)
  else
    let source := { source with lastAttemptAt := some o.now }
    match fetch o with
    | .error _ =>
      let failed := { source with
        lastError := "Download or list validation failed; previous domains retained.".toList
        consecutiveFailures := source.consecutiveFailures + 1 }
      match s.save o failed with
      | (.error _, s) => (.error (.failed "record update failure"), s)
      | (.ok _, s) => (.error (.failed "source update failed"), s)
    | .ok domains =>
      s.save o { source with
        domains := domains, lastUpdatedAt := some o.now, lastError := [], consecutiveFailures := 0 }

/-- `Delete`, from the source on; a result without an error stands for `nil`. -/
def Service.delete (s : Service) (o : Outside) (source : Source) (i : ℕ) : Except Err Source × Service :=
  let candidate := s.sources.eraseIdx i
  match compile s.static candidate with
  | .error e => (.error e, s)
  | .ok matcher =>
    match o.storeFails with
    | some e => (.error e, s)
    | none =>
      match s.repo.deleteSource source.id with
      | .error e => (.error e, s)
      | .ok repo => (.ok source, { s with sources := candidate, current := matcher, published := candidate, repo := repo })

/-- An operation on the source with an ID. -/
def Service.at' (s : Service) (id : ℤ) (f : Source → ℕ → Except Err Source × Service) : Except Err Source × Service :=
  match s.find id with
  | none => (.error .notFound, s)
  | some (source, i) => f source i

/-- One operation: what it returns, and the state it leaves. -/
def Service.step (validateURL : Str → Option Err) (s : Service) (c : Call) (o : Outside) : Except Err Source × Service :=
  match c with
  | .replaceLocal id text =>
    match parseHosts text with
    | .error e => (.error e, s)
    | .ok domains =>
      if o.busy then (.error .busy, s) else s.at' id (fun source _ => s.replaceLocal o source domains)
  | .create name url enabled interval =>
    if o.busy then (.error .busy, s) else s.create validateURL o name url enabled interval
  | .setSchedule id interval =>
    if o.busy then (.error .busy, s) else s.at' id (fun source _ => s.setSchedule o source interval)
  | .setEnabled id enabled =>
    if o.busy then (.error .busy, s) else s.at' id (fun source _ => s.save o { source with enabled := enabled })
  | .refresh id => if o.busy then (.error .busy, s) else s.at' id (fun source _ => s.refresh o source)
  | .delete id => if o.busy then (.error .busy, s) else s.at' id (fun source i => s.delete o source i)

/-! ### Compiling -/

/-- What of a source its matcher depends on. -/
def view (s : Source) : List Str × Bool := (s.domains, s.enabled)

theorem collect_congr : ∀ {l l' : List Source} {total : ℕ} {rules : List Rule}, l.map view = l'.map view →
    collect l total rules = collect l' total rules
  | [], [], _, _, _ => rfl
  | [], x' :: l', _, _, h => by cases h
  | x :: l, [], _, _, h => by cases h
  | x :: l, x' :: l', total, rules, h => by
    simp only [List.map_cons, List.cons.injEq, view, Prod.mk.injEq] at h
    obtain ⟨⟨hd, he⟩, hrest⟩ := h
    unfold collect
    rw [hd, he]
    dsimp only
    split
    · rfl
    · exact collect_congr hrest

/-- The matcher depends on the domains of the lists and on which of them are enabled. -/
theorem compile_congr {static : List Rule} {l l' : List Source} (h : l.map view = l'.map view) :
    compile static l = compile static l' := by
  have hlen : l.length = l'.length := by
    have := congrArg List.length h
    simpa using this
  unfold compile
  rw [hlen, collect_congr h]

/-- The rules that are compiled. -/
theorem collect_ok : ∀ {l : List Source} {total : ℕ} {rules out : List Rule}, collect l total rules = .ok out →
    out = rules ++ l.flatMap (fun s => if s.enabled then listRules s.domains else [])
  | [], _, rules, out, h => by
    cases h
    simp
  | s :: l, total, rules, out, h => by
    unfold collect at h
    dsimp only at h
    split at h
    · cases h
    · rw [collect_ok h, List.flatMap_cons]
      by_cases he : s.enabled = true
      · simp [he]
      · simp [he]

/-- Only the numbers of the domains can stop the loop. -/
theorem collect_isOk : ∀ {l : List Source} {total : ℕ} {rules : List Rule}, total ≤ maxTotalDomains →
    ((∃ out, collect l total rules = .ok out) ↔ (∀ s ∈ l, s.domains.length ≤ maxDomains) ∧
      total + (l.map (fun s => s.domains.length)).sum ≤ maxTotalDomains)
  | [], total, rules, h => by simpa [collect] using h
  | s :: l, total, rules, h => by
    unfold collect
    dsimp only
    rw [List.forall_mem_cons, List.map_cons, List.sum_cons, ← Nat.add_assoc]
    split
    · rename_i hover
      refine ⟨fun ⟨out, hout⟩ => (by cases hout), ?_⟩
      rintro ⟨⟨hs, -⟩, hsum⟩
      omega
    · rename_i hover
      rw [collect_isOk (by omega)]
      refine ⟨fun ⟨hl, hsum⟩ => ⟨⟨by omega, hl⟩, hsum⟩, fun ⟨⟨_, hl⟩, hsum⟩ => ⟨hl, hsum⟩⟩

/-! ### The invariant -/

/-- **The four copies agree.** -/
structure Consistent (s : Service) : Prop where
  compiled : compile s.static s.sources = .ok s.current
  published : s.published = s.sources
  stored : s.sources.map row = s.repo.rows

/-- The rules of the configuration have been compiled. -/
theorem Consistent.static_usable {s : Service} (h : Consistent s) : ∀ r ∈ s.static, Usable r.domain := by
  have hcompiled := h.compiled
  unfold compile at hcompiled
  split at hcompiled
  · cases hcompiled
  obtain ⟨rules, hrules, hnew⟩ := bind_eq_ok.1 hcompiled
  split at hnew
  · rename_i m hm
    intro r hr
    refine new_isSome.1 (by rw [hm]; rfl) r ?_
    rw [collect_ok hrules]
    exact List.mem_append_left _ hr
  · cases hnew

theorem Consistent.nodup {s : Service} (h : Consistent s) : (s.sources.map Source.id).Nodup := by
  have hrows := s.repo.table.nodup
  rw [← h.stored, List.map_map] at hrows
  exact hrows

theorem Consistent.range {s : Service} (h : Consistent s) : ∀ x ∈ s.sources, 0 < x.id ∧ x.id ≤ s.repo.seq := by
  intro x hx
  have hrow : row x ∈ s.repo.rows := by
    rw [← h.stored]
    exact List.mem_map_of_mem hx
  exact s.repo.table.range (row x) hrow

/-- The lists hold only domains a rule may have. -/
def Clean (sources : List Source) : Prop := ∀ x ∈ sources, ∀ d ∈ x.domains, Usable d

/-- Sources compile when their rules can be, unless there are too many of them or of their domains. -/
theorem compile_isOk {static : List Rule} {l : List Source} (hs : ∀ r ∈ static, Usable r.domain) (hc : Clean l) :
    (∃ m, compile static l = .ok m) ↔ l.length ≤ maxSources ∧ (∀ s ∈ l, s.domains.length ≤ maxDomains) ∧
      (l.map (fun s => s.domains.length)).sum ≤ maxTotalDomains := by
  have hcollect := @collect_isOk l 0 static (Nat.zero_le maxTotalDomains)
  rw [Nat.zero_add] at hcollect
  unfold compile
  split
  · rename_i hover
    refine ⟨fun ⟨m, hm⟩ => (by cases hm), fun h => ?_⟩
    omega
  rename_i hlen
  rw [← hcollect]
  constructor
  · rintro ⟨m, hm⟩
    obtain ⟨rules, hrules, -⟩ := bind_eq_ok.1 hm
    exact ⟨not_lt.1 hlen, rules, hrules⟩
  · rintro ⟨-, rules, hrules⟩
    have hsome : (new rules).isSome := by
      rw [new_isSome, collect_ok hrules]
      intro r hr
      rcases List.mem_append.1 hr with hr | hr
      · exact hs r hr
      · obtain ⟨x, hx, hr⟩ := List.mem_flatMap.1 hr
        split at hr
        · obtain ⟨d, hd, rfl⟩ := List.mem_map.1 hr
          exact hc x hx d hd
        · cases hr
    obtain ⟨m, hm⟩ := Option.isSome_iff_exists.1 hsome
    exact ⟨m, bind_eq_ok.2 ⟨rules, hrules, by rw [hm]⟩⟩

/-- What of a source an operation that fails must leave as it is. -/
def kept (s : Source) : ℤ × List Str × Bool := (s.id, s.domains, s.enabled)

/-- No source has other domains or another flag than before, and no name is decided otherwise. -/
structure Alike (s s' : Service) : Prop where
  sources : s'.sources.map kept = s.sources.map kept
  blocked : ∀ n, s'.current.blocked n = s.current.blocked n

theorem Alike.refl (s : Service) : Alike s s := ⟨rfl, fun _ => rfl⟩

theorem counted_id (x : Source) : (counted x).id = x.id := rfl
theorem row_counted (x : Source) : row (counted x) = row x := rfl

/-- A source that may be stored: it is new, or takes the place of one with its ID. -/
def Fits (s : Service) (source : Source) : Prop :=
  source.id = 0 ∨ ∃ (i : ℕ) (old : Source), s.sources[i]? = some old ∧ old.id = source.id

theorem find_eq_some {s : Service} {id : ℤ} {source : Source} {i : ℕ} (h : s.find id = some (source, i)) :
    s.sources[i]? = some source ∧ source.id = id := by
  have hmem := List.mem_of_find?_eq_some h
  have hid := List.find?_some h
  exact ⟨List.mem_zipIdx_iff_getElem?.1 hmem, by simpa using hid⟩

theorem find_isSome {s : Service} {i : ℕ} {source : Source} (h : s.sources[i]? = some source) :
    ∃ x j, s.find source.id = some (x, j) := by
  have hsome : (s.find source.id).isSome := by
    rw [Service.find, List.find?_isSome]
    exact ⟨(source, i), List.mem_zipIdx_iff_getElem?.2 h, by simp⟩
  obtain ⟨⟨x, j⟩, hx⟩ := Option.isSome_iff_exists.1 hsome
  exact ⟨x, j, hx⟩

/-! ### What an operation does -/

theorem put_error {s s' : Service} {o : Outside} {index : Option ℕ} {m : Matcher} {source : Source} {e : Err}
    (h : s.put o index m source = (.error e, s')) : s' = s := by
  unfold Service.put at h
  split at h
  · exact (Prod.mk.inj h).2.symm
  · split at h
    · exact (Prod.mk.inj h).2.symm
    · cases h

/-- A save that fails leaves everything as it was. -/
theorem save_error {s s' : Service} {o : Outside} {source : Source} {e : Err} (h : s.save o source = (.error e, s')) :
    s' = s := by
  unfold Service.save at h
  dsimp only at h
  split at h
  · exact (Prod.mk.inj h).2.symm
  · exact put_error h

theorem delete_error {s s' : Service} {o : Outside} {x : Source} {i : ℕ} {e : Err}
    (h : s.delete o x i = (.error e, s')) : s' = s := by
  unfold Service.delete at h
  dsimp only at h
  split at h
  · exact (Prod.mk.inj h).2.symm
  split at h
  · exact (Prod.mk.inj h).2.symm
  split at h
  · exact (Prod.mk.inj h).2.symm
  · cases h

theorem delete_ok {s s' : Service} {o : Outside} {x y : Source} {i : ℕ} (h : s.delete o x i = (.ok y, s')) :
    y = x ∧ s'.sources = s.sources.eraseIdx i ∧ s.repo.deleteSource x.id = .ok s'.repo := by
  unfold Service.delete at h
  dsimp only at h
  split at h
  · cases h
  split at h
  · cases h
  split at h
  · cases h
  · rename_i hrepo
    cases h
    exact ⟨rfl, rfl, hrepo⟩

/-- What the store makes of a source. -/
theorem saveSource_spec {db db' : Repo} {source saved : Source} (h : db.saveSource source = .ok (saved, db')) :
    (source.id = 0 ∧ saved = { source with id := db.seq + 1 } ∧ db'.rows = db.rows ++ [row saved]) ∨
      (source.id ≠ 0 ∧ saved = source ∧ db'.rows = db.rows.map (fun x => if x.id = source.id then row source else x)) := by
  unfold Repo.saveSource at h
  split at h
  · rename_i hid
    split at h
    · cases h
    · split at h
      · cases h
      · cases h
        exact Or.inl ⟨hid, rfl, rfl⟩
  · rename_i hid
    split at h
    · cases h
    · split at h
      · cases h
      · split at h
        · cases h
        · cases h
          exact Or.inr ⟨hid, rfl, rfl⟩

/-- **A save that succeeds.** -/
theorem save_ok {s s' : Service} {o : Outside} {source saved : Source} (h : Consistent s) (hf : Fits s source)
    (hs : s.save o source = (.ok saved, s')) :
    Consistent s' ∧ s'.static = s.static ∧
      (source.id = 0 ∧ (∃ id, s'.sources = s.sources ++ [counted { source with id := id }]) ∨
        ∃ (i : ℕ) (old : Source), s.sources[i]? = some old ∧ old.id = source.id ∧
          s'.sources = s.sources.set i (counted source)) := by
  unfold Service.save at hs
  dsimp only at hs
  split at hs
  · cases hs
  rename_i m hm
  unfold Service.put at hs
  split at hs
  · cases hs
  split at hs
  · cases hs
  rename_i kept repo hsave
  obtain ⟨-, rfl⟩ := Prod.mk.inj hs
  rcases saveSource_spec hsave with ⟨hid, rfl, hrows⟩ | ⟨hid, rfl, hrows⟩
  · -- a new source: no source has the ID zero, so it comes last
    have hnone : s.index source.id = none := by
      rw [Service.index, Option.map_eq_none_iff, Service.find, List.find?_eq_none]
      rintro ⟨x, j⟩ hx
      have hpos := (h.range x (List.mem_of_getElem? (List.mem_zipIdx_iff_getElem?.1 hx))).1
      have hne : x.id ≠ source.id := by omega
      simpa using hne
    rw [hnone] at hm ⊢
    refine ⟨⟨?_, rfl, ?_⟩, rfl, Or.inl ⟨hid, _, rfl⟩⟩
    · refine (compile_congr ?_).trans hm
      show (s.sources ++ [counted _]).map view = (s.sources ++ [source]).map view
      rw [List.map_append, List.map_append]
      rfl
    · show (s.sources ++ [counted _]).map row = repo.rows
      rw [hrows, List.map_append, h.stored]
      rfl
  · -- a source that is there: the first one with its ID is the only one
    obtain ⟨j, old, hold, holdid⟩ := hf.resolve_left hid
    obtain ⟨x, i, hfind⟩ := find_isSome hold
    rw [holdid] at hfind
    obtain ⟨hx, hxid⟩ := find_eq_some hfind
    have hindex : s.index kept.id = some i := by
      rw [Service.index, hfind]
      rfl
    rw [hindex] at hm ⊢
    refine ⟨⟨?_, rfl, ?_⟩, rfl, Or.inr ⟨i, x, hx, hxid, rfl⟩⟩
    · refine (compile_congr ?_).trans hm
      show (s.sources.set i (counted kept)).map view = (s.sources.set i kept).map view
      rw [List.map_set, List.map_set]
      rfl
    · show (s.sources.set i (counted kept)).map row = repo.rows
      have hset := Keyed.map_replace_eq_set h.nodup hx (a := counted kept) hxid.symm
      rw [hrows, ← hset, ← h.stored, List.map_map, List.map_map]
      refine List.map_congr_left fun y hy => ?_
      simp only [Function.comp, row_id, counted_id]
      by_cases hy : y.id = kept.id
      · simp [hy, row_counted]
      · simp [hy]

/-- Only a new source draws from the sequence. -/
theorem saveSource_seq {db db' : Repo} {source saved : Source} (h : db.saveSource source = .ok (saved, db')) :
    source.id = 0 ∧ saved.id = db.seq + 1 ∧ db'.seq = db.seq + 1 ∨
      source.id ≠ 0 ∧ saved.id = source.id ∧ db'.seq = db.seq := by
  unfold Repo.saveSource at h
  split at h
  · rename_i hid
    split at h
    · cases h
    · split at h
      · cases h
      · cases h
        exact Or.inl ⟨hid, rfl, rfl⟩
  · rename_i hid
    split at h
    · cases h
    · split at h
      · cases h
      · split at h
        · cases h
        · cases h
          exact Or.inr ⟨hid, rfl, rfl⟩

/-- The sources after a save: those that were there, and the one that is saved, with its ID or the next one. -/
theorem save_mem {s s' : Service} {o : Outside} {source saved : Source} (hs : s.save o source = (.ok saved, s')) :
    ∃ id, (source.id = 0 ∧ id = s.repo.seq + 1 ∧ s'.repo.seq = s.repo.seq + 1 ∨
        source.id ≠ 0 ∧ id = source.id ∧ s'.repo.seq = s.repo.seq) ∧
      ∀ x ∈ s'.sources, x ∈ s.sources ∨ x = counted { source with id := id } := by
  unfold Service.save at hs
  dsimp only at hs
  split at hs
  · cases hs
  unfold Service.put at hs
  split at hs
  · cases hs
  split at hs
  · cases hs
  rename_i kept repo hsave
  obtain ⟨-, rfl⟩ := Prod.mk.inj hs
  have hkept : kept = { source with id := kept.id } := by
    rcases saveSource_spec hsave with ⟨-, rfl, -⟩ | ⟨-, rfl, -⟩ <;> rfl
  refine ⟨kept.id, saveSource_seq hsave, fun x hx => ?_⟩
  rw [← hkept]
  dsimp only at hx
  split at hx
  · exact List.mem_or_eq_of_mem_set hx
  · rwa [List.mem_append, List.mem_singleton] at hx

/-- What an operation makes of the source it has found. -/
inductive Edit (o : Outside) : Call → Source → Source → Prop
  | schedule {id interval : ℤ} {x : Source} : x.id = id → validInterval interval = true → (x.url = [] → interval = 0) →
      Edit o (.setSchedule id interval) x { x with updateInterval := interval }
  | enabled {id : ℤ} {b : Bool} {x : Source} : x.id = id → Edit o (.setEnabled id b) x { x with enabled := b }
  | replaced {id : ℤ} {text : Str} {domains : List Str} {x : Source} : x.id = id → parseHosts text = .ok domains →
      x.url = [] →
      Edit o (.replaceLocal id text) x { x with domains := domains, lastUpdatedAt := some o.now, lastError := [] }
  | failed {id : ℤ} {e : Err} {x : Source} : x.id = id → fetch o = .error e → x.url ≠ [] →
      Edit o (.refresh id) x { x with
        lastAttemptAt := some o.now
        lastError := "Download or list validation failed; previous domains retained.".toList
        consecutiveFailures := x.consecutiveFailures + 1 }
  | fetched {id : ℤ} {domains : List Str} {x : Source} : x.id = id → fetch o = .ok domains → x.url ≠ [] →
      Edit o (.refresh id) x { x with
        lastAttemptAt := some o.now, domains := domains, lastUpdatedAt := some o.now, lastError := []
        consecutiveFailures := 0 }

/-- What `Create` stores. -/
def Made (c : Call) (source : Source) : Prop :=
  ∃ name url enabled interval, c = .create name url enabled interval ∧ validInterval interval = true ∧
    source = { id := 0, name := trimSpaces name, url := trimSpaces url, enabled := enabled, updateInterval := interval }

/-- The ways an operation can go: it changes nothing, makes a source, changes one, or deletes one. -/
inductive Went (s : Service) (c : Call) (o : Outside) (s' : Service) : Prop
  | nothing : s' = s → Went s c o s'
  | made {source saved : Source} : Made c source → s.save o source = (.ok saved, s') → Went s c o s'
  | edited {x y saved : Source} {i : ℕ} : s.sources[i]? = some x → Edit o c x y → s.save o y = (.ok saved, s') →
      Went s c o s'
  | deleted {x : Source} {i : ℕ} : s.sources[i]? = some x → s.delete o x i = (.ok x, s') → Went s c o s'

theorem went_save {s : Service} {c : Call} {o : Outside} {source : Source}
    (h : ∀ saved s', s.save o source = (.ok saved, s') → Went s c o s') : Went s c o (s.save o source).2 := by
  obtain ⟨r, s', hs⟩ : ∃ r s', s.save o source = (r, s') := ⟨_, _, rfl⟩
  rw [hs]
  cases r with
  | error e => exact .nothing (save_error hs)
  | ok saved => exact h saved s' hs

theorem went_edit {s : Service} {c : Call} {o : Outside} {x y : Source} {i : ℕ} (hi : s.sources[i]? = some x)
    (he : Edit o c x y) : Went s c o (s.save o y).2 := went_save fun _ _ hs => .edited hi he hs

theorem went_at {s : Service} {c : Call} {o : Outside} {id : ℤ} {f : Source → ℕ → Except Err Source × Service}
    (hf : ∀ x i, s.sources[i]? = some x → x.id = id → Went s c o (f x i).2) : Went s c o (s.at' id f).2 := by
  unfold Service.at'
  split
  · exact .nothing rfl
  · rename_i x i hfind
    exact hf x i (find_eq_some hfind).1 (find_eq_some hfind).2

/-- **One operation.** -/
theorem step_went (validateURL : Str → Option Err) (s : Service) (c : Call) (o : Outside) :
    Went s c o (s.step validateURL c o).2 := by
  cases c with
  | create name url enabled interval =>
    unfold Service.step
    dsimp only
    split
    · exact .nothing rfl
    unfold Service.create
    dsimp only
    split
    · exact .nothing rfl
    split
    · exact .nothing rfl
    split
    · exact .nothing rfl
    rename_i hinterval
    split
    · exact .nothing rfl
    rw [not_or, not_not] at hinterval
    exact went_save fun _ _ hs => .made ⟨name, url, enabled, interval, rfl, hinterval.1, rfl⟩ hs
  | setSchedule id interval =>
    unfold Service.step
    dsimp only
    split
    · exact .nothing rfl
    refine went_at fun x i hi hid => ?_
    unfold Service.setSchedule
    split
    · exact .nothing rfl
    rename_i hinterval
    rw [not_or, not_not, not_and, not_not] at hinterval
    exact went_edit hi (.schedule hid hinterval.1 hinterval.2)
  | setEnabled id enabled =>
    unfold Service.step
    dsimp only
    split
    · exact .nothing rfl
    exact went_at fun x i hi hid => went_edit hi (.enabled hid)
  | replaceLocal id text =>
    unfold Service.step
    dsimp only
    split
    · exact .nothing rfl
    rename_i domains hparse
    split
    · exact .nothing rfl
    refine went_at fun x i hi hid => ?_
    unfold Service.replaceLocal
    split
    · exact .nothing rfl
    rename_i hurl
    exact went_edit hi (.replaced hid hparse (not_not.1 hurl))
  | refresh id =>
    unfold Service.step
    dsimp only
    split
    · exact .nothing rfl
    refine went_at fun x i hi hid => ?_
    unfold Service.refresh
    split
    · exact .nothing rfl
    rename_i hurl
    dsimp only
    split
    · rename_i hfetch
      split
      · rename_i hs
        exact .nothing (save_error hs)
      · rename_i hs
        exact .edited hi (.failed hid hfetch hurl) hs
    · rename_i hfetch
      exact went_edit hi (.fetched hid hfetch hurl)
  | delete id =>
    unfold Service.step
    dsimp only
    split
    · exact .nothing rfl
    refine went_at fun x i hi _ => ?_
    obtain ⟨r, s', hs⟩ : ∃ r s', s.delete o x i = (r, s') := ⟨_, _, rfl⟩
    rw [hs]
    cases r with
    | error e => exact .nothing (delete_error hs)
    | ok y =>
      obtain rfl := (delete_ok hs).1
      exact .deleted hi hs

/-! ### What every operation keeps -/

/-- What every operation does. -/
structure Did (s : Service) (r : Except Err Source × Service) : Prop where
  consistent : Consistent r.2
  failed : ∀ e, r.1 = .error e → Alike s r.2
  clean : Clean s.sources → Clean r.2.sources

theorem did_nothing {s : Service} (h : Consistent s) (e : Err) : Did s (.error e, s) where
  consistent := h
  failed _ _ := Alike.refl s
  clean hc := hc

/-- The sources after a save are clean when the one that is saved is. -/
theorem clean_save {s s' : Service} {o : Outside} {source saved : Source} (h : Consistent s) (hf : Fits s source)
    (hs : s.save o source = (.ok saved, s')) (hc : Clean s.sources) (hd : ∀ d ∈ source.domains, Usable d) :
    Clean s'.sources := by
  intro x hx
  rcases (save_ok h hf hs).2.2 with ⟨-, id, hput⟩ | ⟨i, old, hi, hid, hput⟩
  · rw [hput] at hx
    rcases List.mem_append.1 hx with hx | hx
    · exact hc x hx
    · rw [List.mem_singleton.1 hx]
      exact hd
  · rw [hput] at hx
    rcases List.mem_or_eq_of_mem_set hx with hx | rfl
    · exact hc x hx
    · exact hd

theorem did_save {s : Service} (h : Consistent s) (o : Outside) {source : Source} (hf : Fits s source)
    (hd : Clean s.sources → ∀ d ∈ source.domains, Usable d) : Did s (s.save o source) := by
  obtain ⟨r, s', hs⟩ : ∃ r s', s.save o source = (r, s') := ⟨_, _, rfl⟩
  rw [hs]
  cases r with
  | error e =>
    rw [save_error hs]
    exact did_nothing h e
  | ok saved => exact ⟨(save_ok h hf hs).1, fun e he => (by cases he), fun hc => clean_save h hf hs hc (hd hc)⟩

/-- What a failed download changes is only what is written down about it. -/
theorem alike_of_bookkeeping {s s' : Service} {o : Outside} {source failed saved : Source} {i : ℕ} (h : Consistent s)
    (hi : s.sources[i]? = some source) (hkept : kept failed = kept source)
    (hs : s.save o failed = (.ok saved, s')) : Alike s s' := by
  have hmem : source ∈ s.sources := List.mem_of_getElem? hi
  have hid : failed.id = source.id := congrArg Prod.fst hkept
  obtain ⟨hc, hstatic, hput⟩ := save_ok h (Or.inr ⟨i, source, hi, hid.symm⟩) hs
  have hpos := (h.range source hmem).1
  obtain ⟨j, old, hj, hold, hset⟩ := hput.resolve_left fun hnew => by omega
  -- the IDs are different, so the source that was replaced is the one that was read
  have heq : old = source := List.inj_on_of_nodup_map h.nodup (List.mem_of_getElem? hj) hmem (hold.trans hid)
  have hsources : s'.sources.map kept = s.sources.map kept := by
    rw [hset]
    refine Keyed.map_set hj ?_
    rw [heq, ← hkept]
    rfl
  have hview : s'.sources.map view = s.sources.map view := by
    have hsnd : (s'.sources.map kept).map Prod.snd = (s.sources.map kept).map Prod.snd := by rw [hsources]
    rw [List.map_map, List.map_map] at hsnd
    exact hsnd
  have hcompiled := hc.compiled
  rw [hstatic, compile_congr hview, h.compiled] at hcompiled
  refine ⟨hsources, fun n => ?_⟩
  rw [Except.ok.inj hcompiled]

theorem did_refresh {s : Service} (h : Consistent s) (o : Outside) {source : Source} {i : ℕ}
    (hi : s.sources[i]? = some source) : Did s (s.refresh o source) := by
  have hmem : source ∈ s.sources := List.mem_of_getElem? hi
  unfold Service.refresh
  split
  · exact did_nothing h _
  dsimp only
  split
  · split
    · rename_i hs
      rw [save_error hs]
      exact did_nothing h _
    · rename_i saved s' hs
      have hfits : ∀ failed : Source, failed.id = source.id → Fits s failed :=
        fun failed hid => Or.inr ⟨i, source, hi, hid.symm⟩
      refine ⟨(save_ok h (hfits _ ?_) hs).1, fun _ _ => ?_, fun hc => ?_⟩
      · rfl
      · refine alike_of_bookkeeping h hi ?_ hs
        rfl
      · refine clean_save h (hfits _ ?_) hs hc ?_
        · rfl
        · exact hc source hmem
  · rename_i domains hfetch
    refine did_save h o (Or.inr ⟨i, source, hi, rfl⟩) fun _ => ?_
    obtain ⟨text, -, hparse⟩ := bind_eq_ok.1 hfetch
    exact (parseHosts_spec hparse).2.usable

theorem did_delete {s : Service} (h : Consistent s) (o : Outside) {source : Source} {i : ℕ}
    (hi : s.sources[i]? = some source) : Did s (s.delete o source i) := by
  unfold Service.delete
  dsimp only
  split
  · exact did_nothing h _
  rename_i m hm
  split
  · exact did_nothing h _
  split
  · exact did_nothing h _
  rename_i repo hrepo
  refine ⟨⟨hm, rfl, ?_⟩, fun e he => (by cases he), fun hc x hx => hc x (List.mem_of_mem_eraseIdx hx)⟩
  unfold Repo.deleteSource at hrepo
  split at hrepo
  · cases hrepo
    show (s.sources.eraseIdx i).map row = s.repo.rows.filter (fun x => x.id ≠ source.id)
    rw [← Keyed.filter_ne_eq_eraseIdx h.nodup hi, ← h.stored, List.filter_map]
    rfl
  · cases hrepo

theorem did_at {s : Service} (h : Consistent s) (id : ℤ) {f : Source → ℕ → Except Err Source × Service}
    (hf : ∀ source i, s.sources[i]? = some source → Did s (f source i)) : Did s (s.at' id f) := by
  unfold Service.at'
  split
  · exact did_nothing h _
  · rename_i source i hfind
    exact hf source i (find_eq_some hfind).1

/-- **One operation.** -/
theorem did_step {s : Service} (h : Consistent s) (validateURL : Str → Option Err) (c : Call) (o : Outside) :
    Did s (s.step validateURL c o) := by
  have hold : ∀ (source : Source) (i : ℕ), s.sources[i]? = some source →
      Clean s.sources → ∀ d ∈ source.domains, Usable d :=
    fun source i hi hc => hc source (List.mem_of_getElem? hi)
  cases c with
  | create name url enabled interval =>
    unfold Service.step
    dsimp only
    split
    · exact did_nothing h _
    unfold Service.create
    dsimp only
    split
    · exact did_nothing h _
    split
    · exact did_nothing h _
    split
    · exact did_nothing h _
    split
    · exact did_nothing h _
    exact did_save h o (Or.inl rfl) fun _ => by simp
  | setSchedule id interval =>
    unfold Service.step
    dsimp only
    split
    · exact did_nothing h _
    refine did_at h id fun source i hi => ?_
    unfold Service.setSchedule
    split
    · exact did_nothing h _
    exact did_save h o (Or.inr ⟨i, source, hi, rfl⟩) (hold source i hi)
  | setEnabled id enabled =>
    unfold Service.step
    dsimp only
    split
    · exact did_nothing h _
    refine did_at h id fun source i hi => ?_
    exact did_save h o (Or.inr ⟨i, source, hi, rfl⟩) (hold source i hi)
  | replaceLocal id text =>
    unfold Service.step
    dsimp only
    split
    · exact did_nothing h _
    rename_i domains hparse
    split
    · exact did_nothing h _
    refine did_at h id fun source i hi => ?_
    unfold Service.replaceLocal
    split
    · exact did_nothing h _
    exact did_save h o (Or.inr ⟨i, source, hi, rfl⟩) fun _ => (parseHosts_spec hparse).2.usable
  | refresh id =>
    unfold Service.step
    dsimp only
    split
    · exact did_nothing h _
    exact did_at h id fun source i hi => did_refresh h o hi
  | delete id =>
    unfold Service.step
    dsimp only
    split
    · exact did_nothing h _
    exact did_at h id fun source i hi => did_delete h o hi

/-- `Subset` of clean lists refuses nothing but the rules that are added. -/
theorem subset_ok {static extra : List Rule} {published : List Source} (hs : ∀ r ∈ static, Usable r.domain)
    (hp : Clean published) (he : ∀ r ∈ extra, Usable r.domain) (ids : List ℤ) :
    ∃ m, subset static published ids extra = .ok m := by
  have hsome : (new (static ++ extra ++
      published.flatMap (fun s => if s.id ∈ ids then listRules s.domains else []))).isSome := by
    rw [new_isSome]
    intro r hr
    rcases List.mem_append.1 hr with hr | hr
    · rcases List.mem_append.1 hr with hr | hr
      · exact hs r hr
      · exact he r hr
    · obtain ⟨x, hx, hr⟩ := List.mem_flatMap.1 hr
      split at hr
      · obtain ⟨d, hd, rfl⟩ := List.mem_map.1 hr
        exact hp x hx d hd
      · cases hr
  obtain ⟨m, hm⟩ := Option.isSome_iff_exists.1 hsome
  exact ⟨m, by rw [subset, hm]⟩

/-! ### Runs -/

/-- `NewService` loads the rows. -/
theorem start_ok {static : List Rule} {repo : Repo} {s : Service} (h : start static repo = .ok s) :
    ∃ m, compile static repo.rows = .ok m ∧ s = ⟨static, repo.rows, m, repo.rows, repo⟩ := by
  unfold start at h
  obtain ⟨sources, hload, h⟩ := bind_eq_ok.1 h
  obtain ⟨m, hm, h⟩ := bind_eq_ok.1 h
  have hrows : sources = repo.rows := by
    unfold Repo.loadSources at hload
    split at hload
    · cases hload
    · split at hload
      · cases hload
      · exact (Except.ok.inj hload).symm
  rw [hrows] at hm h
  exact ⟨m, hm, (Except.ok.inj h).symm⟩

/-- A service that has just been made agrees with the store. -/
theorem start_consistent {static : List Rule} {repo : Repo} {s : Service} (h : start static repo = .ok s) : Consistent s := by
  obtain ⟨m, hm, rfl⟩ := start_ok h
  refine ⟨hm, rfl, ?_⟩
  show repo.rows.map row = repo.rows
  conv_rhs => rw [← List.map_id repo.rows]
  exact List.map_congr_left fun x hx => repo.table.read x hx

/-- The state after a sequence of operations. -/
def Service.after (validateURL : Str → Option Err) (s : Service) (es : List (Call × Outside)) : Service :=
  es.foldl (fun s e => (s.step validateURL e.1 e.2).2) s

theorem after_consistent {validateURL : Str → Option Err} {es : List (Call × Outside)} :
    ∀ {s : Service}, Consistent s → Consistent (s.after validateURL es) := by
  induction es with
  | nil => exact fun h => h
  | cons e es ih => exact fun h => ih (did_step h validateURL e.1 e.2).consistent

/-- The lists stay clean. -/
theorem after_clean {validateURL : Str → Option Err} {es : List (Call × Outside)} :
    ∀ {s : Service}, Consistent s → Clean s.sources → Clean (s.after validateURL es).published := by
  induction es with
  | nil =>
    intro s h hc
    show Clean s.published
    rw [h.published]
    exact hc
  | cons e es ih =>
    intro s h hc
    have hd := did_step h validateURL e.1 e.2
    exact ih hd.consistent (hd.clean hc)

/-- **The blocklist service is consistent.** After any operations, whatever the store, the downloads and the other holders of
the lock do, the matcher is the one compiled from the sources, the sources are those published and those stored, and an
operation that fails then changes no source's domains or flag and no decision. -/
theorem service_consistent (validateURL : Str → Option Err) {static : List Rule} {repo : Repo} {s : Service}
    (hs : start static repo = .ok s) (es : List (Call × Outside)) :
    Consistent (s.after validateURL es) ∧
      ∀ c o e, ((s.after validateURL es).step validateURL c o).1 = .error e →
        Alike (s.after validateURL es) ((s.after validateURL es).step validateURL c o).2 := by
  have h := @after_consistent validateURL es _ (start_consistent hs)
  exact ⟨h, fun c o => (did_step h validateURL c o).failed⟩

/-- A store without lists. -/
def noLists : Repo := ⟨[], 0, ⟨List.nodup_nil, le_refl 0, by simp, by simp⟩⟩

/-- A local list is made and filled, and a list from the web is made whose download fails. -/
def listRun : List (Call × Outside) :=
  [(.create "home".toList [] true 0, {}), (.replaceLocal 1 "0.0.0.0 t.example\n".toList, {}),
    (.create "web".toList "https://lists.example/hosts".toList true 3600, {}), (.refresh 2, { now := 5 })]

theorem service_consistent_lists : ∃ s, start adsRules noLists = .ok s ∧
    (s.after (fun _ => none) listRun).sources.map (fun x => (x.id, x.domains, x.consecutiveFailures)) =
      [(1, ["t.example".toList], 0), (2, [], 1)] ∧
    Consistent (s.after (fun _ => none) listRun) ∧
    ∀ c o e, ((s.after (fun _ => none) listRun).step (fun _ => none) c o).1 = .error e →
      Alike (s.after (fun _ => none) listRun) ((s.after (fun _ => none) listRun).step (fun _ => none) c o).2 := by
  have hrun : (start adsRules noLists).toOption.any (fun s =>
      (s.after (fun _ => none) listRun).sources.map (fun x => (x.id, x.domains, x.consecutiveFailures)) =
        [(1, ["t.example".toList], 0), (2, [], 1)]) = true := by
    decide +kernel
  cases hs : start adsRules noLists with
  | error e =>
    rw [hs] at hrun
    cases hrun
  | ok s =>
    rw [hs] at hrun
    have hsources := of_decide_eq_true hrun
    obtain ⟨hc, hf⟩ := service_consistent (fun _ => none) hs listRun
    exact ⟨s, rfl, hsources, hc, hf⟩

end Velora.Filtering
