import Velora.Dns.Base

/-!
# The answer cache

`internal/cache/cache.go`. The cache is a map from formatted keys to elements of a list in order of use. An element has
an identity of its own, as a `*list.Element` has: the map holds identities, and `Cache.element` follows one. Times are
nanoseconds of a clock that does not run backwards; a message is a value, so `Copy` does nothing here.
-/

namespace Velora

open Velora.Lib Velora.Lib.Text Velora.Wire Velora.Dns

structure Cache.Entry where
  key : Str
  message : Msg
  stored : ℕ
  expires : ℕ
  deriving DecidableEq

/-- A `*list.Element` and its value. -/
structure Cache.Elem where
  id : ℕ
  value : Cache.Entry
  deriving DecidableEq

/-- The cache; `next` is the identity the next list element gets. -/
structure Cache where
  items : Map Str ℕ := ∅
  lru : List Cache.Elem := []
  next : ℕ := 0
  max : ℕ
  hits : UInt64 := 0
  misses : UInt64 := 0
  upstreamTTL : UInt32 := 0

namespace Cache

/-- `time.Second`. -/
def second : ℕ := 1000000000

/-- `New`. -/
def new (max : ℤ) : Cache := { max := max.toNat }

/-! ### Keys -/

/-- The DO bit of the first OPT record; the second component says whether its version is supported. -/
def keyDO (q : Msg) : Bool × Bool :=
  match q.extra.find? (fun rr => rr.rrtype == typeOPT) with
  | some opt => (opt.optDo, opt.optVersion == 0)
  | none => (false, true)

/-- The format `%s/%d/%d/%t/%t/%t`. -/
def format (name : Str) (qtype qclass : UInt16) (rd cd dnssecOK : Bool) : Str :=
  name ++ '/' :: (decimal qtype.toNat ++ '/' :: (decimal qclass.toNat ++ '/' :: (truth rd ++ '/' ::
    (truth cd ++ '/' :: truth dnssecOK))))

/-- `Key`. -/
def key (q : Msg) : Option Str :=
  if q.question.length ≠ 1 ∨ q.opcode ≠ opcodeQuery ∨ q.answer ≠ [] ∨ q.ns ≠ [] ∨ (keyDO q).2 = false then none
  else
    some (format (lower q.question0.name) q.question0.qtype q.question0.qclass q.recursionDesired q.checkingDisabled
      (keyDO q).1)

/-! ### Lifetimes -/

/-- Apply `f` to the TTL of every record that is not an OPT record. -/
def mapTTL (f : UInt32 → UInt32) (m : Msg) : Msg :=
  m.mapRecords (fun rr => if rr.rrtype = typeOPT then rr else rr.setTTL (f rr.ttl))

/-- The smaller of `ttl` and the TTLs of the records. -/
def lowest (ttl : UInt32) (records : List RR) : UInt32 :=
  records.foldl (fun t rr => if rr.ttl < t then rr.ttl else t) ttl

/-- The first SOA record of the authority section. -/
def firstSOA (m : Msg) : Option (Typed SOA) := m.ns.findSome? (fun rr => rr.soa?.map (Typed.mk rr.hdr))

/-- Every answer record is an alias or a signature. -/
def aliasOnly (m : Msg) : Bool := m.answer.all (fun rr => rr.rrtype == typeCNAME || rr.rrtype == typeRRSIG)

/-- The response is a negative one. -/
def negative (m : Msg) : Bool :=
  (firstSOA m).isSome &&
    (m.rcode == rcodeNameError || m.rcode == rcodeSuccess && (m.answer.isEmpty || aliasOnly m))

def maxTTL : UInt32 := 86400

/-- `cacheTTL`: the lifetime of a message in seconds, and whether it is negative. -/
def cacheTTL (m : Msg) : UInt32 × Bool :=
  match firstSOA m with
  | some soa =>
    if negative m then (lowest (min (min soa.hdr.ttl soa.rd.minttl) maxTTL) m.answer, true)
    else positive m
  | none => positive m
where
  positive (m : Msg) : UInt32 × Bool :=
    if m.rcode = rcodeSuccess ∧ m.answer ≠ [] then
      (lowest 604800 (m.sections.filter (fun rr => rr.rrtype ≠ typeOPT)), false)
    else (0, false)

/-- `clampNegativeSOA`. -/
def clampNegativeSOA (m : Msg) (ttl : UInt32) : Msg :=
  { m with ns := m.ns.map (fun rr => if rr.soa?.isSome then rr.setTTL ttl else rr) }

/-- `NormalizeNegativeTTL`. -/
def normalizeNegativeTTL (m : Msg) : Msg :=
  if (cacheTTL m).2 then clampNegativeSOA m (cacheTTL m).1 else m

/-- `aged`: the stored message for the query `q`, its TTLs reduced by the entry's age. -/
def aged (e : Entry) (q : Msg) (now : ℕ) : Msg :=
  let age := UInt32.ofNat ((now - e.stored) / second)
  mapTTL (· - age) { e.message with id := q.id, question := q.question }

/-! ### Operations -/

/-- The list element with an identity. -/
def element (c : Cache) (id : ℕ) : Option Elem := c.lru.find? (fun el => el.id = id)

/-- `c.items[key]`, followed to the list element. -/
def lookup (c : Cache) (k : Str) : Option Elem := (c.items.lookup k).bind c.element

/-- `remove`. -/
def remove (c : Cache) (el : Elem) : Cache :=
  { c with items := c.items.erase el.value.key, lru := c.lru.filter (fun x => x.id ≠ el.id) }

/-- `lru.MoveToFront(el)`. -/
def moveToFront (c : Cache) (el : Elem) : Cache :=
  { c with lru := el :: c.lru.filter (fun x => x.id ≠ el.id) }

/-- `items[e.key] = lru.PushFront(e)`. -/
def pushFront (c : Cache) (e : Entry) : Cache :=
  { c with items := c.items.insert e.key c.next, lru := ⟨c.next, e⟩ :: c.lru, next := c.next + 1 }

/-- `remove(lru.Back())`. -/
def removeBack (c : Cache) : Cache :=
  match c.lru.getLast? with
  | some el => c.remove el
  | none => c

/-- `if old := items[key]; old != nil { remove(old) }`. -/
def removeKey (c : Cache) (k : Str) : Cache :=
  match c.lookup k with
  | some old => c.remove old
  | none => c

/-- `if len(items) >= max { remove(lru.Back()) }`. -/
def makeRoom (c : Cache) : Cache := if c.max ≤ c.items.entries.length then c.removeBack else c

/-- `Get`. -/
def get (c : Cache) (q : Msg) (now : ℕ) : Cache × Option Msg :=
  match (key q).bind c.lookup with
  | none => ({ c with misses := c.misses + 1 }, none)
  | some el =>
    if now < el.value.expires then
      ({ c with hits := c.hits + 1 }.moveToFront el, some (aged el.value q now))
    else ({ c with misses := c.misses + 1 }.remove el, none)

/-- `Peek`, with the seconds until expiry. -/
def peek (c : Cache) (q : Msg) (now : ℕ) : Option (Msg × UInt32) :=
  match (key q).bind c.lookup with
  | none => none
  | some el =>
    if now < el.value.expires then
      some (aged el.value q now, UInt32.ofNat ((el.value.expires - now) / second))
    else none

/-- The entry `Put` stores, if it stores one. -/
def entryOf (lib : Miekg) (max : ℕ) (q m : Msg) (now : ℕ) : Option Entry :=
  match key q with
  | none => none
  | some k =>
    if max = 0 ∨ m.truncated = true ∨ lib.len m > 16384 then none
    else if (cacheTTL m).1 = 0 then none
    else
      let stored := if (cacheTTL m).2 then clampNegativeSOA m (cacheTTL m).1 else m
      some { key := k, message := stored, stored := now, expires := now + (cacheTTL m).1.toNat * second }

/-- `Put`. -/
def put (lib : Miekg) (c : Cache) (q m : Msg) (now : ℕ) : Cache :=
  match entryOf lib c.max q m now with
  | none => c
  | some e => ((c.removeKey e.key).makeRoom).pushFront e

/-- One turn of the loops over the map: the element is removed, and counted, if its entry has `p`. -/
def visit (p : Entry → Bool) (r : Cache × ℕ) (id : ℕ) : Cache × ℕ :=
  match r.1.element id with
  | some el => if p el.value then (r.1.remove el, r.2 + 1) else r
  | none => r

/-- Visit the elements the map holds and remove those with `p`; how many were removed. -/
def removeWhere (p : Entry → Bool) (c : Cache) : Cache × ℕ :=
  (c.items.entries.map Sigma.snd).foldl (visit p) (c, 0)

/-- `expire`. -/
def expire (c : Cache) (now : ℕ) : Cache := (c.removeWhere (fun e => !decide (now < e.expires))).1

/-- `Flush`. -/
def flush (c : Cache) : Cache := { c with items := ∅, lru := [] }

/-- `SetUpstreamTTL`. -/
def setUpstreamTTL (c : Cache) (seconds : UInt32) : Cache :=
  if c.upstreamTTL = seconds then c else { c with upstreamTTL := seconds }.flush

/-- `NormalizeUpstreamTTL`. -/
def normalizeUpstreamTTL (c : Cache) (m : Msg) : Msg :=
  if c.upstreamTTL = 0 ∨ m.truncated = true ∨ m.authenticatedData = true ∨ m.rcode ≠ rcodeSuccess ∨ m.answer = [] then m
  else if m.sections.any (fun rr => rr.rrtype == typeRRSIG || (rr.rrtype != typeOPT && rr.ttl == 0)) then m
  else mapTTL (fun _ => c.upstreamTTL) m

/-- `Invalidate`, with the number of removed entries. The source reads `Question[0]` of the stored message. -/
def invalidate (c : Cache) (name : Str) (qtype : UInt16) (includeSubdomains : Bool) : Cache × ℕ :=
  let target := lower (fqdn (trimSpace name))
  c.removeWhere (fun e =>
    let question := e.message.question0
    let owner := lower question.name
    (qtype == 0 || question.qtype == qtype) &&
      (owner == target || includeSubdomains && ('.' :: target).isSuffixOf owner))

/-! ### Only the lifetimes change -/

theorem retimed_mapTTL (f : UInt32 → UInt32) (m : Msg) : m.Retimed (mapTTL f m) := by
  refine Msg.Retimed.mapRecords (fun rr => ?_) m
  split <;> rfl

theorem retimed_normalizeNegativeTTL (m : Msg) : m.Retimed (normalizeNegativeTTL m) := by
  unfold normalizeNegativeTTL
  split
  · refine ⟨rfl, rfl, untimed_map (fun rr => ?_) m.ns, rfl⟩
    split <;> rfl
  · exact Msg.Retimed.refl m

theorem retimed_normalizeUpstreamTTL (c : Cache) (m : Msg) : m.Retimed (c.normalizeUpstreamTTL m) := by
  unfold normalizeUpstreamTTL
  split
  · exact Msg.Retimed.refl m
  split
  · exact Msg.Retimed.refl m
  · exact retimed_mapTTL _ m

theorem retimed_aged (e : Entry) (q : Msg) (now : ℕ) : e.message.Retimed (aged e q now) := by
  obtain ⟨had, hanswer, hns, hextra⟩ := retimed_mapTTL (· - UInt32.ofNat ((now - e.stored) / second))
    { e.message with id := q.id, question := q.question }
  exact ⟨had, hanswer, hns, hextra⟩

end Cache

end Velora
