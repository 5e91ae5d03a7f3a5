import Velora.Wire.Name

/-!
# Resource records and messages

The part of `github.com/miekg/dns` the program's data is made of. A record is a header and typed data;
its type is the type of its data (`RR.rrtype`), so a record whose header says one thing and whose data is
another cannot be built: the library makes both from the same sixteen bits of the wire. Types the program
never looks into are `RData.other`.
-/

namespace Velora.Wire

open Velora.Lib Velora.Lib.Text

/-! ### Numbers of the protocol -/

abbrev typeA : UInt16 := 1
abbrev typeNS : UInt16 := 2
abbrev typeCNAME : UInt16 := 5
abbrev typeSOA : UInt16 := 6
abbrev typePTR : UInt16 := 12
abbrev typeMX : UInt16 := 15
abbrev typeTXT : UInt16 := 16
abbrev typeAAAA : UInt16 := 28
abbrev typeOPT : UInt16 := 41
abbrev typeDS : UInt16 := 43
abbrev typeRRSIG : UInt16 := 46
abbrev typeNSEC : UInt16 := 47
abbrev typeDNSKEY : UInt16 := 48
abbrev typeNSEC3 : UInt16 := 50

abbrev classINET : UInt16 := 1

abbrev rcodeSuccess : ℕ := 0
abbrev rcodeServerFailure : ℕ := 2
abbrev rcodeNameError : ℕ := 3
abbrev rcodeRefused : ℕ := 5

abbrev opcodeQuery : ℕ := 0

/-- The types with a constructor of their own in `RData`. -/
def typedRecords : List UInt16 :=
  [typeA, typeNS, typeCNAME, typeSOA, typePTR, typeMX, typeTXT, typeAAAA, typeOPT, typeDS, typeRRSIG,
    typeNSEC, typeDNSKEY, typeNSEC3]

/-! ### Records -/

structure Header where
  name : Str
  class' : UInt16
  ttl : UInt32
  deriving DecidableEq, Inhabited

structure SOA where
  ns : Str
  mbox : Str
  serial : UInt32
  refresh : UInt32
  retry : UInt32
  expire : UInt32
  minttl : UInt32
  deriving DecidableEq

structure RRSIG where
  typeCovered : UInt16
  algorithm : UInt8
  labels : UInt8
  origTtl : UInt32
  expiration : UInt32
  inception : UInt32
  keyTag : UInt16
  signerName : Str
  signature : Str
  deriving DecidableEq

structure DNSKEY where
  flags : UInt16
  protocol : UInt8
  algorithm : UInt8
  publicKey : Str
  deriving DecidableEq

structure DS where
  keyTag : UInt16
  algorithm : UInt8
  digestType : UInt8
  digest : Str
  deriving DecidableEq

structure NSEC where
  nextDomain : Str
  typeBitMap : List UInt16
  deriving DecidableEq

structure NSEC3 where
  hash : UInt8
  flags : UInt8
  iterations : UInt16
  salt : Str
  nextDomain : Str
  typeBitMap : List UInt16
  deriving DecidableEq

/-- A record type without a constructor of its own. -/
structure OtherType where
  code : UInt16
  untyped : typedRecords.contains code = false
  deriving DecidableEq

inductive RData where
  | a (ip : List UInt8) | aaaa (ip : List UInt8)
  | ns (host : Str) | cname (target : Str) | ptr (host : Str)
  | mx (preference : UInt16) (host : Str) | txt (parts : List Str)
  | soa (d : SOA) | opt (options : List (UInt16 × List UInt8))
  | rrsig (d : RRSIG) | dnskey (d : DNSKEY) | ds (d : DS)
  | nsec (d : NSEC) | nsec3 (d : NSEC3)
  | other (t : OtherType) (bytes : List UInt8)
  deriving DecidableEq

def RData.rrtype : RData → UInt16
  | .a _ => typeA | .aaaa _ => typeAAAA
  | .ns _ => typeNS | .cname _ => typeCNAME | .ptr _ => typePTR
  | .mx _ _ => typeMX | .txt _ => typeTXT
  | .soa _ => typeSOA | .opt _ => typeOPT
  | .rrsig _ => typeRRSIG | .dnskey _ => typeDNSKEY | .ds _ => typeDS
  | .nsec _ => typeNSEC | .nsec3 _ => typeNSEC3
  | .other t _ => t.code

structure RR where
  hdr : Header
  data : RData
  deriving DecidableEq

/-- `rr.Header().Rrtype`. -/
def RR.rrtype (rr : RR) : UInt16 := rr.data.rrtype

def RR.name (rr : RR) : Str := rr.hdr.name
def RR.ttl (rr : RR) : UInt32 := rr.hdr.ttl
def RR.setTTL (rr : RR) (ttl : UInt32) : RR := { rr with hdr := { rr.hdr with ttl := ttl } }

@[simp] theorem RR.setTTL_ttl (rr : RR) (t : UInt32) : (rr.setTTL t).ttl = t := rfl
/-- A record with the data of one type, what a Go type assertion gives. -/
structure Typed (α : Type) where
  hdr : Header
  rd : α
  deriving DecidableEq

def RR.cname? (rr : RR) : Option Str := match rr.data with | .cname t => some t | _ => none
def RR.soa? (rr : RR) : Option SOA := match rr.data with | .soa d => some d | _ => none
def RR.rrsig? (rr : RR) : Option (Typed RRSIG) :=
  match rr.data with | .rrsig d => some ⟨rr.hdr, d⟩ | _ => none
def RR.dnskey? (rr : RR) : Option (Typed DNSKEY) :=
  match rr.data with | .dnskey d => some ⟨rr.hdr, d⟩ | _ => none
def RR.ds? (rr : RR) : Option (Typed DS) := match rr.data with | .ds d => some ⟨rr.hdr, d⟩ | _ => none
def RR.nsec? (rr : RR) : Option (Typed NSEC) := match rr.data with | .nsec d => some ⟨rr.hdr, d⟩ | _ => none
def RR.nsec3? (rr : RR) : Option (Typed NSEC3) :=
  match rr.data with | .nsec3 d => some ⟨rr.hdr, d⟩ | _ => none

theorem OtherType.code_ne (t : OtherType) {k : UInt16} (hk : k ∈ typedRecords) : t.code ≠ k := by
  rintro rfl
  have h := t.untyped
  simp [hk] at h

/-- A type assertion to `*CNAME` succeeds exactly on the records whose header says CNAME. -/
theorem RR.cname?_isSome_iff (rr : RR) : rr.cname?.isSome ↔ rr.rrtype = typeCNAME := by
  obtain ⟨hdr, data⟩ := rr
  cases data with
  | other t b => simpa [RR.cname?, RR.rrtype, RData.rrtype] using t.code_ne (by decide)
  | _ => simp [RR.cname?, RR.rrtype, RData.rrtype] <;> decide

theorem RR.soa?_isSome_iff (rr : RR) : rr.soa?.isSome ↔ rr.rrtype = typeSOA := by
  obtain ⟨hdr, data⟩ := rr
  cases data with
  | other t b => simpa [RR.soa?, RR.rrtype, RData.rrtype] using t.code_ne (by decide)
  | _ => simp [RR.soa?, RR.rrtype, RData.rrtype] <;> decide

/-! ### Messages -/

structure Question where
  name : Str
  qtype : UInt16
  qclass : UInt16
  deriving DecidableEq, Inhabited

structure Msg where
  id : UInt16 := 0
  response : Bool := false
  opcode : ℕ := opcodeQuery
  authoritative : Bool := false
  truncated : Bool := false
  recursionDesired : Bool := false
  recursionAvailable : Bool := false
  authenticatedData : Bool := false
  checkingDisabled : Bool := false
  rcode : ℕ := rcodeSuccess
  question : List Question := []
  answer : List RR := []
  ns : List RR := []
  extra : List RR := []
  deriving DecidableEq, Inhabited

/-- `q.Question[0]`. -/
def Msg.question0 (q : Msg) : Question := q.question.headI

/-- `SetReply`: a new reply to `q`. AD is not copied. -/
def setReply (q : Msg) : Msg :=
  { id := q.id
    response := true
    opcode := q.opcode
    recursionDesired := q.opcode == opcodeQuery && q.recursionDesired
    checkingDisabled := q.opcode == opcodeQuery && q.checkingDisabled
    question := q.question.take 1 }

/-- `SetRcode`. -/
def setRcode (q : Msg) (rcode : ℕ) : Msg := { setReply q with rcode := rcode }

/-- `SetQuestion`; the identifier it draws is the argument `id`. -/
def setQuestion (id : UInt16) (name : Str) (qtype : UInt16) : Msg :=
  { id := id, recursionDesired := true, question := [⟨name, qtype, classINET⟩] }

/-! ### EDNS -/

/-- `IsEdns0`: the last OPT record of the additional section. -/
def Msg.isEdns0 (m : Msg) : Option RR := m.extra.reverse.find? (fun rr => rr.rrtype == typeOPT)

/-- The DO bit, kept in the TTL of an OPT record. -/
def doBit : UInt32 := 0x8000

/-- `OPT.Do`. -/
def RR.optDo (opt : RR) : Bool := opt.ttl &&& doBit == doBit

/-- `OPT.Version`. -/
def RR.optVersion (opt : RR) : UInt32 := (opt.ttl >>> 16) &&& 0xff

/-- `SetEdns0`: append an OPT record with the payload size and the DO bit. -/
def Msg.setEdns0 (m : Msg) (size : UInt16) (dnssecOK : Bool) : Msg :=
  { m with extra := m.extra ++ [⟨⟨root, size, if dnssecOK then doBit else 0⟩, .opt []⟩] }

/-- The three record sections, in the order the program walks them. -/
def Msg.sections (m : Msg) : List RR := m.answer ++ m.ns ++ m.extra

/-- Apply `f` to every record of the three sections. -/
def Msg.mapRecords (m : Msg) (f : RR → RR) : Msg :=
  { m with answer := m.answer.map f, ns := m.ns.map f, extra := m.extra.map f }

/-! ### Messages up to lifetimes -/

/-- The records without their TTLs. -/
def untimed (records : List RR) : List RR := records.map (fun rr => rr.setTTL 0)

theorem untimed_map {f : RR → RR} (hf : ∀ rr, (f rr).setTTL 0 = rr.setTTL 0) (records : List RR) :
    untimed (records.map f) = untimed records := by
  unfold untimed
  rw [List.map_map]
  exact List.map_congr_left fun rr _ => hf rr

/-- What does not depend on TTLs is the same for records that are equal up to TTLs. -/
theorem map_eq_of_untimed {α : Type} {g : RR → α} (hg : ∀ rr t, g (rr.setTTL t) = g rr) {l l' : List RR}
    (h : untimed l' = untimed l) : l'.map g = l.map g := by
  have hmap : ∀ k : List RR, k.map g = (untimed k).map g := by
    intro k
    rw [untimed, List.map_map]
    exact List.map_congr_left fun rr _ => (hg rr 0).symm
  rw [hmap l', h, ← hmap l]

/-- `m'` is `m` with other TTLs, and possibly another identifier and question. -/
structure Msg.Retimed (m m' : Msg) : Prop where
  ad : m'.authenticatedData = m.authenticatedData
  answer : untimed m'.answer = untimed m.answer
  ns : untimed m'.ns = untimed m.ns
  extra : untimed m'.extra = untimed m.extra

namespace Msg.Retimed

theorem refl (m : Msg) : Retimed m m := ⟨rfl, rfl, rfl, rfl⟩

theorem trans {m₁ m₂ m₃ : Msg} (h : Retimed m₁ m₂) (h' : Retimed m₂ m₃) : Retimed m₁ m₃ :=
  ⟨h'.ad.trans h.ad, h'.answer.trans h.answer, h'.ns.trans h.ns, h'.extra.trans h.extra⟩

theorem mapRecords {f : RR → RR} (hf : ∀ rr, (f rr).setTTL 0 = rr.setTTL 0) (m : Msg) : Retimed m (m.mapRecords f) :=
  ⟨rfl, untimed_map hf _, untimed_map hf _, untimed_map hf _⟩

end Msg.Retimed

end Velora.Wire
