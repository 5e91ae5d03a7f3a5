import Velora.Filtering.Parser
import Velora.Forwarding.Service
import Velora.Lib.Keyed
import Velora.Lib.Prefix

/-!
# Named clients

`internal/clients/clients.go` over `internal/database/clients.go`: clients own addresses and networks, kept as texts. The
index that queries read is built from these texts after every change; a save and a delete hold the mutex of the service from
their start to their end and are one step here.
-/

namespace Velora.Clients

open Velora.Lib Velora.Lib.Text Velora.Lib.Ip
open Velora.Dns (Map)
open Velora.Zones (byteLen)
open Velora.Forwarding (quoted)

def maxClients : ℕ := 1024
def maxAddresses : ℕ := 16
def maxNameLength : ℕ := 80
def maxGroupLength : ℕ := 60
def maxDescriptionLen : ℕ := 200

inductive Err where
  | invalid (detail : String)
  | notFound
  | exists (detail : String)
  | storage (text : String)
  deriving DecidableEq

structure Client where
  id : ℤ
  name : Str
  addresses : List Str
  group : Str
  description : Str
  enabled : Bool
  deriving DecidableEq

/-! ### Networks in text -/

/-- `ParsePrefix`. -/
def parsePrefix (raw : Str) : Except Err Prefix :=
  let raw := trimSpaces raw
  if '/' ∈ raw then
    match parseNetipPrefix raw with
    | none => .error (.invalid (quoted raw ++ " is not a valid network"))
    | some p => .ok p.unmapped.masked
  else
    match parseAddr raw with
    | none => .error (.invalid (quoted raw ++ " is not a valid IP address or network"))
    | some ip =>
      match Prefix.from' (unmapAddr ip) (8 * (unmapAddr ip).length) with
      | none => .error (.invalid (quoted raw ++ " is not a valid IP address or network"))
      | some p => .ok p

/-- `FormatPrefix`. -/
def formatPrefix (p : Prefix) : Str := if p.isSingleIP then addrString p.addr else p.string

/-- The networks of a client; a text that is none is passed over. -/
def Client.prefixes (c : Client) : List Prefix := c.addresses.filterMap (fun raw => (parsePrefix raw).toOption)

/-! ### The index -/

/-- `netip.Addr`: no address, an IPv4 address, or an IPv6 address with a zone. -/
structure Addr where
  ip : List UInt8
  zone : Str := []
  size : ip = [] ∨ ip.length = 4 ∨ ip.length = 16
  deriving DecidableEq

/-- `Addr.Unmap`; the zone of an IPv4-mapped address is dropped. -/
def Addr.unmap (a : Addr) : Addr :=
  if h : is4In6 a.ip = true then ⟨a.ip.drop 12, [], Or.inr (Or.inl (length_drop_is4In6 h))⟩ else a

/-- The networks by their lengths, and the lengths from the longest on. -/
structure Index where
  byLength : Map ℕ (Map Prefix Client) := ∅
  lengths : List ℕ := []

/-- One network of `build`. -/
def Index.add (idx : Index) (p : Prefix) (c : Client) : Index :=
  match idx.byLength.lookup p.bits with
  | none =>
    { byLength := idx.byLength.insert p.bits ((∅ : Map Prefix Client).insert p c), lengths := idx.lengths ++ [p.bits] }
  | some bucket => { idx with byLength := idx.byLength.insert p.bits (bucket.insert p c) }

/-- One client of `build`. -/
def Index.addClient (idx : Index) (c : Client) : Index :=
  if c.enabled then
    c.addresses.foldl (fun idx raw =>
      match parsePrefix raw with
      | .error _ => idx
      | .ok p => idx.add p c) idx
  else idx

/-- `build`. -/
def build (clients : List Client) : Index :=
  let idx := clients.foldl Index.addClient {}
  { idx with lengths := idx.lengths.insertionSort (fun a b => b ≤ a) }

/-- `Lookup`. -/
def Index.lookup (idx : Index) (a : Addr) : Option Client :=
  let ip := a.unmap.ip
  if ip = [] then none
  else
    idx.lengths.findSome? (fun bits =>
      if bits > 8 * ip.length then none
      else (addrPrefix ip bits).bind (fun p => (idx.byLength.lookup bits).bind (fun bucket => bucket.lookup p)))

/-! ### What a save accepts -/

/-- The check of one field. -/
def checkField (value : Str) (label : String) (max : ℕ) (required : Bool) : Except Err Unit :=
  if (required ∧ value = []) ∨ byteLen value > max ∨ value.any (fun c => c == '\r' || c == '\n' || c.toNat == 0) then
    .error (.invalid (label ++ " must be a single line of at most " ++ toString max ++ " characters"))
  else .ok ()

/-- The loop of `normalize` over the addresses. -/
def normalizeAddresses : List Str → List Prefix → Except Err (List Prefix)
  | [], ps => .ok ps
  | raw :: rest, ps => do
    let p ← parsePrefix raw
    normalizeAddresses rest (if p ∈ ps then ps else ps ++ [p])

/-- `normalize`. -/
def normalize (c : Client) : Except Err (Client × List Prefix) := do
  let name := trimSpaces c.name
  let group := trimSpaces c.group
  let description := trimSpaces c.description
  checkField name "name" maxNameLength true
  checkField group "group" maxGroupLength false
  checkField description "description" maxDescriptionLen false
  if c.addresses.length = 0 ∨ c.addresses.length > maxAddresses then
    .error (.invalid "add between 1 and 16 addresses or networks")
  else do
    let ps ← normalizeAddresses c.addresses []
    .ok ({ c with name := name, group := group, description := description, addresses := ps.map formatPrefix }, ps)

/-! ### The store -/

/-- A row of the table, with the addresses in one text. -/
structure Row where
  id : ℤ
  name : Str
  addresses : Str
  group : Str
  description : Str
  enabled : Bool
  deriving DecidableEq

/-- A client as `SaveClient` writes it. -/
def row (c : Client) : Row :=
  ⟨c.id, c.name, List.intercalate [' '] c.addresses, c.group, c.description, c.enabled⟩

/-- A row as `LoadClients` reads it. -/
def Row.client (r : Row) : Client := ⟨r.id, r.name, Filtering.fields r.addresses, r.group, r.description, r.enabled⟩

/-- What the libraries and the store know of letters. -/
structure Letters where
  /-- `strings.EqualFold` -/
  equalFold : Str → Str → Bool
  /-- `strings.ToLower` -/
  toLower : Str → Str
  /-- two names are one for the unique column -/
  sameName : Str → Str → Bool
  /-- `ORDER BY LOWER(name)` -/
  byName : List Row → List Row
  perm : ∀ rs, (byName rs).Perm rs

/-- The table: its IDs are keys, drawn from a sequence. -/
structure Repo where
  rows : List Row := []
  seq : ℤ := 0
  start : 0 ≤ seq := by decide
  nodup : (rows.map Row.id).Nodup := by decide
  range : ∀ r ∈ rows, 0 < r.id ∧ r.id ≤ seq := by decide

namespace Repo

/-- A table without rows. -/
def new : Repo := {}

/-- `LoadClients`. -/
def loadClients (t : Letters) (db : Repo) : Except Err (List Client) :=
  if db.rows.length > maxClients then .error (.storage "stored client limit exceeded")
  else .ok ((t.byName db.rows).map Row.client)

/-- `INSERT`: an ID is drawn. -/
def insert (db : Repo) (c : Client) : Repo where
  rows := db.rows ++ [row { c with id := db.seq + 1 }]
  seq := db.seq + 1
  start := by
    have := db.start
    omega
  nodup := by
    refine Keyed.nodup_concat db.nodup fun r hr => ?_
    have hle := (db.range r hr).2
    show r.id ≠ db.seq + 1
    omega
  range r hr := by
    have hstart := db.start
    rcases List.mem_append.1 hr with hr | hr
    · have := db.range r hr
      omega
    · rw [List.mem_singleton.1 hr]
      show 0 < db.seq + 1 ∧ db.seq + 1 ≤ db.seq + 1
      omega

/-- `UPDATE`. -/
def update (db : Repo) (c : Client) : Repo where
  rows := db.rows.map (fun r => if r.id = c.id then row c else r)
  seq := db.seq
  start := db.start
  nodup := by
    have hids : (db.rows.map (fun r => if r.id = c.id then row c else r)).map Row.id = db.rows.map Row.id := by
      rw [List.map_map]
      refine List.map_congr_left fun r _ => ?_
      simp only [Function.comp]
      split
      · rename_i hr
        exact hr.symm
      · rfl
    rw [hids]
    exact db.nodup
  range r hr := by
    obtain ⟨x, hx, rfl⟩ := List.mem_map.1 hr
    split
    · rename_i hid
      have := db.range x hx
      rw [hid] at this
      exact this
    · exact db.range x hx

/-- `DELETE`. -/
def delete (db : Repo) (id : ℤ) : Repo where
  rows := db.rows.filter (fun r => r.id ≠ id)
  seq := db.seq
  start := db.start
  nodup := (List.filter_sublist.map Row.id).nodup db.nodup
  range r hr := db.range r (List.mem_of_mem_filter hr)

/-- `SaveClient`. -/
def saveClient (t : Letters) (db : Repo) (c : Client) : Except Err (Client × Repo) :=
  if c.id = 0 then
    if db.rows.any (fun r => t.sameName r.name c.name) then .error (.exists "") else .ok ({ c with id := db.seq + 1 }, db.insert c)
  else if db.rows.any (fun r => r.id ≠ c.id && t.sameName r.name c.name) then .error (.exists "")
  else if ¬ db.rows.any (fun r => r.id = c.id) then .error .notFound
  else .ok (c, db.update c)

/-- `DeleteClient`. -/
def deleteClient (db : Repo) (id : ℤ) : Except Err Repo :=
  if db.rows.any (fun r => r.id = id) then .ok (db.delete id) else .error .notFound

end Repo

/-! ### The service -/

structure Service where
  clients : List Client
  current : Index
  repo : Repo

/-- `NewService`. -/
def start (t : Letters) (db : Repo) : Except Err Service := do
  let clients ← db.loadClients t
  .ok ⟨clients, build clients, db⟩

/-- The place of the client a save replaces. -/
def indexOf (clients : List Client) (id : ℤ) : Option ℕ := if id = 0 then none else clients.findIdx? (fun x => x.id = id)

/-- What the loop of `save` finds in a client that stays. -/
def conflict (t : Letters) (c : Client) (ps : List Prefix) (existing : Client) : Option Err :=
  if t.equalFold existing.name c.name then
    some (.exists ("a client named " ++ quoted existing.name ++ " already exists"))
  else
    existing.addresses.findSome? (fun raw =>
      match parsePrefix raw with
      | .ok other =>
        if other ∈ ps then some (.exists (String.ofList raw ++ " already belongs to " ++ String.ofList existing.name)) else none
      | .error _ => none)

/-- The list a save goes on with, before it is sorted. -/
def place (clients : List Client) (c : Client) : Option ℕ → List Client
  | some i => clients.set i c
  | none => clients ++ [c]

/-- The checks of `save` on the clients of the service. -/
def checkSave (t : Letters) (clients : List Client) (c : Client) (ps : List Prefix) : Except Err (Option ℕ) :=
  match (clients.filter (fun x => !(x.id = c.id && c.id ≠ 0))).findSome? (conflict t c ps) with
  | some e => .error e
  | none =>
    if c.id ≠ 0 ∧ indexOf clients c.id = none then .error .notFound
    else if c.id = 0 ∧ clients.length ≥ maxClients then .error (.invalid "at most 1024 clients")
    else .ok (indexOf clients c.id)

/-- `sort.SliceStable` by the lower case of the names. -/
def sortClients (t : Letters) (clients : List Client) : List Client :=
  clients.insertionSort (fun a b => t.toLower a.name ≤ t.toLower b.name)

/-- `save`; the store may fail. -/
def Service.save (t : Letters) (s : Service) (fails : Option Err) (c : Client) : Except Err Client × Service :=
  match normalize c with
  | .error e => (.error e, s)
  | .ok (normalized, ps) =>
    match checkSave t s.clients normalized ps with
    | .error e => (.error e, s)
    | .ok index =>
      match fails with
      | some e => (.error e, s)
      | none =>
        match s.repo.saveClient t normalized with
        | .error e => (.error e, s)
        | .ok (saved, repo) =>
          let candidate := sortClients t (place s.clients saved index)
          (.ok saved, ⟨candidate, build candidate, repo⟩)

inductive Call where
  | create (c : Client)
  | update (id : ℤ) (c : Client)
  | delete (id : ℤ)

/-- `Delete`, which returns no client. -/
def Service.delete (s : Service) (fails : Option Err) (id : ℤ) : Except Err Unit × Service :=
  match s.clients.findIdx? (fun x => x.id = id) with
  | none => (.error .notFound, s)
  | some i =>
    match fails with
    | some e => (.error e, s)
    | none =>
      match s.repo.deleteClient id with
      | .error e => (.error e, s)
      | .ok repo => (.ok (), ⟨s.clients.eraseIdx i, build (s.clients.eraseIdx i), repo⟩)

/-- The state after a call. -/
def Service.step (t : Letters) (s : Service) (fails : Option Err) : Call → Service
  | .create c => (s.save t fails { c with id := 0 }).2
  | .update id c => if id < 1 then s else (s.save t fails { c with id := id }).2
  | .delete id => (s.delete fails id).2

/-- `Service.Lookup`. -/
def Service.lookup (s : Service) (a : Addr) : Option Client := s.current.lookup a

/-- The states of a service that began with an empty store: any calls, any failures of the store, and new starts. -/
inductive Reachable (t : Letters) : Service → Prop
  | first {s : Service} : start t {} = .ok s → Reachable t s
  | step {s : Service} (fails : Option Err) (c : Call) : Reachable t s → Reachable t (s.step t fails c)
  | restart {s s' : Service} : Reachable t s → start t s.repo = .ok s' → Reachable t s'

end Velora.Clients
