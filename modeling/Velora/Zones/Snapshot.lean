import Velora.Dns.Base
import Velora.Lib.Ip

/-!
# Local zones

`internal/zones`: the records of a zone as the administrator writes them (`Record`), their normal form
(`normalize`), the wire records made from them (`recordRR`), the index of all zones (`compile`) and the lookup that
answers from it (`Snapshot.lookup`). A zone that owns a name answers for it, also that it does not exist; an alias is
followed from zone to zone.
-/

namespace Velora.Zones

open Velora.Lib Velora.Lib.Text Velora.Lib.Ip Velora.Wire Velora.Dns

def maxZones : ℕ := 256
def maxRecords : ℕ := 1000
def maxTotalRecords : ℕ := 10000

/-- The errors of the package; `invalid` wraps `ErrInvalid` around a message, `storage` is an error of the database. -/
inductive Err where
  | notFound | conflict | exists | invalid (message : String) | storage (text : String)
  deriving DecidableEq

structure Record where
  id : ℤ
  name : Str
  type : Str
  ttl : UInt32
  value : Str
  priority : UInt16
  deriving DecidableEq

/-- A zone; the last fields are for the transfers of a secondary zone, with instants in nanoseconds from the beginning of the
year 1. -/
structure Zone where
  id : ℤ
  name : Str
  primaryNS : Str
  contact : Str
  revision : UInt32
  records : List Record
  zoneType : Str := []
  primaryAddress : Str := []
  transferTSIGKey : Str := []
  transferInterval : ℤ := 0
  lastTransferAt : Option ℕ := none
  nextRefreshAt : Option ℕ := none
  lastTransferSerial : UInt32 := 0
  deriving DecidableEq

/-! ### Names and records -/

/-- The number of bytes of a text. -/
def byteLen (s : Str) : ℕ := (s.map Char.utf8Size).sum

/-- The characters of a label. -/
def labelChar (c : Char) : Bool := ('a' ≤ c && c ≤ 'z') || c.isDigit || c == '-' || c == '_'

/-- The check of one label: an error, or nothing. -/
def checkLabel (label : Str) : Except Err Unit :=
  if label = [] ∨ byteLen label > 63 ∨ label.head? = some '-' ∨ label.getLast? = some '-' then
    .error (.invalid "invalid domain label")
  else if label.all labelChar then .ok ()
  else .error (.invalid "names must use ASCII labels without wildcards or escapes")

/-- `domain`: a host name, fully qualified and in lower case. -/
def domain (value : Str) : Except Err Str :=
  let value := lower (trimDot value)
  if value = [] ∨ byteLen value > 253 then .error (.invalid "name must contain 1–253 ASCII characters")
  else do
    (splitDots value).forM checkLabel
    return value ++ ['.']

/-- Cut a text into pieces of at most 255 bytes, never inside a character; `room` bytes are left in the piece `cur`. -/
def splitText : ℕ → Str → Str → List Str
  | _, cur, [] => [cur]
  | room, cur, c :: cs =>
    if c.utf8Size ≤ room then splitText (room - c.utf8Size) (cur ++ [c]) cs
    else cur :: splitText (255 - c.utf8Size) [c] cs

/-- `recordRR`. -/
def recordRR (r : Record) : Except Err RR :=
  let h : Header := ⟨r.name, classINET, r.ttl⟩
  if r.type = "A".toList then
    match (parseIP r.value).bind to4 with
    | some ip => .ok ⟨h, .a ip⟩
    | none => .error (.invalid "A requires an IPv4 address")
  else if r.type = "AAAA".toList then
    match parseIP r.value with
    | some ip => if (to4 ip).isSome then .error (.invalid "AAAA requires an IPv6 address") else .ok ⟨h, .aaaa ip⟩
    | none => .error (.invalid "AAAA requires an IPv6 address")
  else if r.type = "CNAME".toList then .ok ⟨h, .cname r.value⟩
  else if r.type = "MX".toList then .ok ⟨h, .mx r.priority r.value⟩
  else if r.type = "NS".toList then .ok ⟨h, .ns r.value⟩
  else if r.type = "PTR".toList then .ok ⟨h, .ptr r.value⟩
  else if r.type = "TXT".toList then
    if byteLen r.value > 2048 then .error (.invalid "TXT requires valid UTF-8 of at most 2048 bytes")
    else .ok ⟨h, .txt (splitText 255 [] r.value)⟩
  else .error (.invalid "unsupported record type")

/-- The name of a record inside its zone. -/
def qualify (zone name : Str) : Str :=
  if name = ['@'] ∨ name = [] then zone
  else if name.getLast? = some '.' then name
  else name ++ '.' :: zone

/-- The value of a record in normal form. -/
def normalizeValue (type value : Str) : Except Err Str :=
  if type ∈ ["CNAME".toList, "MX".toList, "NS".toList, "PTR".toList] then domain value
  else if type ∈ ["A".toList, "AAAA".toList] then
    match parseIP value with
    | some ip => .ok (ipString ip)
    | none => .error (.invalid "invalid IP address")
  else .ok value

/-- One turn of the loop of `normalize`. -/
def normalizeRecord (zone : Str) (record : Record) : Except Err Record := do
  let name ← domain (qualify zone record.name)
  if !isSubDomain zone name then throw (.invalid "record name is outside its zone")
  let type := upper record.type
  if record.ttl > 86400 then throw (.invalid "TTL must be between 0 and 86400 seconds")
  if type ≠ "MX".toList ∧ record.priority ≠ 0 then throw (.invalid "priority is only valid for MX records")
  let value ← normalizeValue type record.value
  if type = "CNAME".toList ∧ name = zone then throw (.invalid "zone apex cannot contain a CNAME")
  if type = "NS".toList ∧ name ≠ zone then
    throw (.invalid "only apex NS records are supported; delegations are not implemented")
  let record := { record with name := name, type := type, value := value }
  let _ ← recordRR record
  return record

/-- `normalize`. -/
def normalize (z : Zone) : Except Err Zone := do
  let name ← domain z.name
  let primaryNS ← domain (if z.primaryNS = [] then "ns.".toList ++ name else z.primaryNS)
  let contact ← domain (if z.contact = [] then "hostmaster.".toList ++ name else z.contact)
  if z.records.length > maxRecords then throw (.invalid "zone exceeds 1000 records")
  let records ← z.records.mapM (normalizeRecord name)
  return { z with name := name, primaryNS := primaryNS, contact := contact, records := records }

/-! ### The index -/

/-- A zone, its wire records by owner and the names that exist in it. -/
structure View where
  zone : Zone
  records : Map Str (List RR) := ∅
  «exists» : Map Str Bool

structure Snapshot where
  byID : Map ℤ Zone := ∅
  byName : Map Str View := ∅

/-- `find`: the closest zone that encloses a name. -/
def Snapshot.find (s : Snapshot) (name : Str) : Option View := (suffixes name).findSome? s.byName.lookup

namespace View

/-- `v.records[name]`. -/
def at' (v : View) (name : Str) : List RR := (v.records.lookup name).getD []

/-- `soa`. -/
def soa (v : View) : RR :=
  ⟨⟨v.zone.name, classINET, 60⟩,
    .soa ⟨v.zone.primaryNS, v.zone.contact, v.zone.revision, 3600, 600, 604800, 60⟩⟩

/-- `lookup`. -/
def lookup (v : View) (name : Str) (kind : UInt16) : List RR :=
  if name = v.zone.name ∧ kind = typeSOA then [v.soa]
  else
    let answer := (v.at' name).filter (fun rr => rr.rrtype = kind)
    if name = v.zone.name ∧ kind = typeNS ∧ answer = [] then
      [⟨⟨name, classINET, 300⟩, .ns v.zone.primaryNS⟩]
    else answer

/-- Two records of one name clash: an alias is alone, and an RRset has one TTL. -/
def clash (existing rr : RR) (ttl : UInt32) : Option Err :=
  if existing.rrtype = typeCNAME ∨ rr.rrtype = typeCNAME then
    some (.invalid "CNAME cannot coexist with other records")
  else if existing.rrtype = rr.rrtype ∧ existing.ttl ≠ ttl then
    some (.invalid "records in one RRset must use the same TTL")
  else none

end View

/-- What `compile` keeps while it reads the records of one zone. -/
structure Build where
  view : View
  ids : List ℤ := []
  unique : List String := []

/-- One turn of the record loop of `compile`. -/
def addRecord (lib : Miekg) (b : Build) (r : Record) : Except Err Build := do
  if r.id < 0 ∨ (r.id > 0 ∧ r.id ∈ b.ids) then throw (.invalid "invalid or duplicate record ID")
  let rr ← recordRR r
  if lib.rrString rr ∈ b.unique then throw (.invalid "duplicate record")
  match (b.view.at' r.name).findSome? (fun existing => View.clash existing rr r.ttl) with
  | some e => throw e
  | none =>
    let above := (suffixes r.name).takeWhile (fun name => isSubDomain b.view.zone.name name)
    return {
      view := { b.view with
        records := b.view.records.insert r.name (b.view.at' r.name ++ [rr])
        «exists» := above.foldl (fun m name => m.insert name true) b.view.exists }
      ids := r.id :: b.ids
      unique := lib.rrString rr :: b.unique }

/-- The alias a zone has for a name. -/
def View.alias (v : View) (name : Str) : Option Str := ((v.at' name).findSome? RR.cname?).filter (· ≠ [])

/-- The walk along the aliases from a name: it ends, within the given number of names, outside the zones or at a name
without an alias. -/
def Snapshot.ends (s : Snapshot) : ℕ → List Str → Str → Bool
  | 0, _, _ => false
  | n + 1, seen, target =>
    if seen.contains target then false
    else
      match (s.find target).bind (fun owner => owner.alias target) with
      | none => true
      | some next => s.ends n (target :: seen) next

/-- No alias of the zones is on a loop or on a chain of more than sixteen names. -/
def Snapshot.loopFree (s : Snapshot) : Bool :=
  s.byName.entries.all (fun v => v.2.records.entries.all (fun e =>
    e.2.all (fun rr => rr.cname?.isNone || s.ends 16 [] e.1)))

/-- One turn of the zone loop of `compile`; the second component counts the records. -/
def addZone (lib : Miekg) (acc : Snapshot × ℕ) (input : Zone) : Except Err (Snapshot × ℕ) := do
  let z ← normalize input
  if (acc.1.byName.lookup z.name).isSome then throw .exists
  let total := acc.2 + z.records.length
  if total > maxTotalRecords then throw (.invalid "maximum total record count reached")
  let start : Build := { view := { zone := z, «exists» := (∅ : Map Str Bool).insert z.name true } }
  let b ← z.records.foldlM (addRecord lib) start
  return ({ byID := acc.1.byID.insert z.id z, byName := acc.1.byName.insert z.name b.view }, total)

/-- `compile`. -/
def compile (lib : Miekg) (all : List Zone) : Except Err Snapshot := do
  if all.length > maxZones then throw (.invalid "maximum zone count reached")
  let (s, _) ← all.foldlM (addZone lib) ({}, 0)
  if s.loopFree then return s
  else throw (.invalid "CNAME loop or chain longer than 16 names")

/-! ### Lookup -/

/-- The loop of `Lookup`, with the turns that are left. -/
def Snapshot.chase (s : Snapshot) (kind : UInt16) : ℕ → Str → Msg → Msg
  | 0, _, m => { m with answer := [], rcode := rcodeServerFailure }
  | n + 1, name, m =>
    match s.find name with
    | none => m
    | some owner =>
      if owner.lookup name kind ≠ [] then { m with answer := m.answer ++ owner.lookup name kind }
      else
        match owner.lookup name typeCNAME with
        | rr :: rest => s.chase kind n (rr.cname?.getD []) { m with answer := m.answer ++ rr :: rest }
        | [] =>
          { m with
            rcode := if (owner.exists.lookup name).getD false then m.rcode else rcodeNameError
            ns := [owner.soa] }

/-- `Service.Lookup`. -/
def Snapshot.lookup (s : Snapshot) (q : Msg) : Option Msg :=
  if q.question.length ≠ 1 ∨ q.question0.qclass ≠ classINET then none
  else
    let name := lower q.question0.name
    match s.find name with
    | none => none
    | some _ =>
      some (s.chase q.question0.qtype 16 name { setReply q with authoritative := true, recursionAvailable := true })

/-- A question of the Internet class is looked up in the zone that encloses its name. -/
theorem Snapshot.lookup_eq {s : Snapshot} {q : Msg} (h : q.question.length = 1 ∧ q.question0.qclass = classINET) :
    s.lookup q = (s.find (lower q.question0.name)).map (fun _ =>
      s.chase q.question0.qtype 16 (lower q.question0.name)
        { setReply q with authoritative := true, recursionAvailable := true }) := by
  simp only [Snapshot.lookup]
  rw [if_neg (by simpa using h)]
  cases s.find (lower q.question0.name) <;> rfl

/-- `Service.ZoneFor`. -/
def Snapshot.zoneFor (s : Snapshot) (name : Str) : Option Str :=
  (s.find (lower (fqdn name))).map (fun v => v.zone.name)

end Velora.Zones
