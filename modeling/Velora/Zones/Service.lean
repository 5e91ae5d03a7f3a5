import Velora.Lib.Prog
import Velora.Zones.Snapshot

/-!
# The zone service and its repository

`internal/zones/service.go` over `internal/database/zones.go`. The repository is the two tables as `LoadZones` reads them,
zones and records in the order of their IDs, with the sequences `AUTOINCREMENT` draws from; a call of it is one transaction
and can fail for any reason, which leaves the tables as they were. The operations of the service are programs: what they
read and write between taking and releasing the mutex is one step each.
-/

namespace Velora.Zones

open Velora.Lib Velora.Lib.Text Velora.Wire Velora.Dns

instance : Inhabited Zone := ⟨{ id := 0, name := [], primaryNS := [], contact := [], revision := 0, records := [] }⟩

/-! ### The repository -/

structure Repo where
  zones : List Zone := []
  zoneSeq : ℤ := 0
  recordSeq : ℤ := 0
  deriving DecidableEq

namespace Repo

/-- `LoadZones`. -/
def loadZones (db : Repo) : Except Err (List Zone) :=
  if db.zones.length > maxZones then .error (.storage "stored zones exceed configured service limit")
  else if (db.zones.map (fun z => z.records.length)).sum > maxTotalRecords then
    .error (.storage "stored records exceed service limit")
  else .ok db.zones

/-- The IDs of the records of all zones but one. -/
def recordIDs (db : Repo) (except : ℤ) : List ℤ :=
  (db.zones.filter (fun z => z.id ≠ except)).flatMap (fun z => z.records.map Record.id)

/-- The records as they are inserted: one without an ID gets the next of the sequence, and an ID that is taken fails. -/
def insertRecords (taken : List ℤ) : ℤ → List Record → Except Err (List Record × ℤ)
  | seq, [] => .ok ([], seq)
  | seq, r :: rs =>
    let id := if r.id ≠ 0 then r.id else seq + 1
    if id ∈ taken then .error .exists
    else
      match insertRecords (id :: taken) (max seq id) rs with
      | .error e => .error e
      | .ok (rest, seq) => .ok ({ r with id := id } :: rest, seq)

/-- An instant as it is stored: in whole seconds. -/
def wholeSeconds (t : ℕ) : ℕ := t / 10 ^ 9 * 10 ^ 9

/-- A zone as its row and the rows of its records are read back. -/
def row (z : Zone) : Zone :=
  { z with
    records := z.records.insertionSort (fun a b => a.id ≤ b.id)
    lastTransferAt := z.lastTransferAt.map wholeSeconds
    nextRefreshAt := z.nextRefreshAt.map wholeSeconds }

/-- `SaveZone`; in the table a revision is positive and the name of a zone unique. -/
def saveZone (db : Repo) (z : Zone) (expected : UInt32) : Except Err (Zone × Repo) :=
  if expected = 0 then
    if z.revision = 0 then .error (.storage "CHECK constraint failed: revision > 0")
    else if db.zones.any (fun x => x.name = z.name) then .error .exists
    else
      let id := db.zoneSeq + 1
      match insertRecords (db.recordIDs id) db.recordSeq z.records with
      | .error e => .error e
      | .ok (records, seq) =>
        let saved := { z with id := id, records := records }
        .ok (saved, ⟨db.zones ++ [row saved], id, seq⟩)
  else if !db.zones.any (fun x => x.id = z.id && x.revision = expected) then .error .conflict
  else if z.revision = 0 then .error (.storage "CHECK constraint failed: revision > 0")
  else if db.zones.any (fun x => x.id ≠ z.id && x.name = z.name) then .error .exists
  else
    match insertRecords (db.recordIDs z.id) db.recordSeq z.records with
    | .error e => .error e
    | .ok (records, seq) =>
      let saved := { z with records := records }
      .ok (saved, ⟨db.zones.map (fun x => if x.id = z.id then row saved else x), db.zoneSeq, seq⟩)

/-- `DeleteZone`; the rows of the records go with the zone. -/
def deleteZone (db : Repo) (id : ℤ) (expected : UInt32) : Except Err Repo :=
  if db.zones.any (fun x => x.id = id && x.revision = expected) then
    .ok { db with zones := db.zones.filter (fun x => x.id ≠ id) }
  else .error .conflict

end Repo

/-! ### The service -/

/-- `List`: the zones by name. -/
def Snapshot.list (s : Snapshot) : List Zone := (s.byID.entries.map Sigma.snd).insertionSort (fun a b => a.name ≤ b.name)

/-- `delete(next.byID, id); next.byID[saved.ID] = saved; next.byName[saved.Name].zone = saved`. -/
def Snapshot.replace (s : Snapshot) (id : ℤ) (saved : Zone) : Snapshot where
  byID := (s.byID.erase id).insert saved.id saved
  byName := match s.byName.lookup saved.name with
    | some v => s.byName.insert saved.name { v with zone := saved }
    | none => s.byName

/-- What an operation does between taking and releasing the mutex. -/
inductive Op where
  /-- `s.state.Load()` -/
  | load
  | saveZone (z : Zone) (expected : UInt32)
  | deleteZone (id : ℤ) (expected : UInt32)
  /-- `s.state.Store(next)` -/
  | store (next : Snapshot)
  | invalidate

abbrev Ans : Op → Type
  | .load => Snapshot
  | .saveZone _ _ => Except Err Zone
  | .deleteZone _ _ => Except Err Unit
  | .store _ => Unit
  | .invalidate => Unit

abbrev Script := Prog Op Ans (Except Err Zone)

section

variable (lib : Miekg)

/-- `save`. -/
def save (z : Zone) (expected : UInt32) : Script := do
  let state : Snapshot ← Prog.ask Op.load
  let all := state.list.eraseP (fun old => old.id = z.id) ++ [z]
  match compile lib all with
  | .error e => return .error e
  | .ok next =>
    let r : Except Err Zone ← Prog.ask (Op.saveZone ((next.byID.lookup z.id).getD default) expected)
    match r with
    | .error e => return .error e
    | .ok saved =>
      let _ : Unit ← Prog.ask (Op.store (next.replace z.id saved))
      let _ : Unit ← Prog.ask Op.invalidate
      return .ok saved

/-- `Create`. -/
def create (z : Zone) : Script :=
  if z.id ≠ 0 ∨ z.revision ≠ 0 then .done (.error (.invalid "IDs and revision are assigned by the server"))
  else if z.records.any (fun r => r.id ≠ 0) then .done (.error (.invalid "new records cannot supply IDs"))
  else save lib { z with revision := 1 } 0

/-- `math.MaxUint32`. -/
def maxUint32 : UInt32 := 4294967295

/-- `Update`. -/
def update (id : ℤ) (revision : UInt32) (z : Zone) : Script := do
  let state : Snapshot ← Prog.ask Op.load
  match state.byID.lookup id with
  | none => return .error .notFound
  | some old =>
    if old.revision ≠ revision ∨ revision = maxUint32 then return .error .conflict
    else if z.records.any (fun r => r.id ≠ 0 && !old.records.any (fun o => o.id = r.id)) then
      return .error (.invalid "record ID does not belong to this zone")
    else save lib { z with id := id, revision := revision + 1 } revision

/-- `Delete`; a result without an error stands for `nil`. -/
def delete (id : ℤ) (revision : UInt32) : Script := do
  let state : Snapshot ← Prog.ask Op.load
  match state.byID.lookup id with
  | none => return .error .notFound
  | some z =>
    if z.revision ≠ revision then return .error .conflict
    else
      match compile lib (state.list.eraseP (fun z => z.id = id)) with
      | .error e => return .error e
      | .ok next =>
        let r : Except Err Unit ← Prog.ask (Op.deleteZone id revision)
        match r with
        | .error e => return .error e
        | .ok _ =>
          let _ : Unit ← Prog.ask (Op.store next)
          let _ : Unit ← Prog.ask Op.invalidate
          return .ok z

end

/-- `New`: the snapshot a service starts with. -/
def start (lib : Miekg) (db : Repo) : Except Err Snapshot := do
  let all ← db.loadZones
  compile lib all

/-! ### Running it -/

/-- The state of the service: what it has published, the tables, and how often the cache was flushed. -/
structure Store where
  published : Snapshot
  repo : Repo
  flushes : ℕ := 0

/-- One step. The outside can make a call of the repository fail. -/
def act : (op : Op) → Option Err → Store → Option (Ans op × Store)
  | .load, _, st => some (st.published, st)
  | .saveZone _ _, some e, st => some (.error e, st)
  | .saveZone z expected, none, st =>
    match st.repo.saveZone z expected with
    | .error e => some (.error e, st)
    | .ok (saved, repo) => some (.ok saved, { st with repo := repo })
  | .deleteZone _ _, some e, st => some (.error e, st)
  | .deleteZone id expected, none, st =>
    match st.repo.deleteZone id expected with
    | .error e => some (.error e, st)
    | .ok repo => some (.ok (), { st with repo := repo })
  | .store next, _, st => some ((), { st with published := next })
  | .invalidate, _, st => some ((), { st with flushes := st.flushes + 1 })

/-- The operations that change zones. -/
inductive Call where
  | create (z : Zone)
  | update (id : ℤ) (revision : UInt32) (z : Zone)
  | delete (id : ℤ) (revision : UInt32)
  deriving DecidableEq

def Call.body (lib : Miekg) : Call → Script
  | .create z => Zones.create lib z
  | .update id revision z => Zones.update lib id revision z
  | .delete id revision => Zones.delete lib id revision

/-- The service with its mutex and the calls that use it. -/
abbrev Service := Monitor Store Call Op Ans (Except Err Zone)

/-- One step of the service. -/
def Service.step (lib : Miekg) : Service → Monitor.Event Call (Option Err) → Option Service :=
  Monitor.step (Call.body lib) act

end Velora.Zones
