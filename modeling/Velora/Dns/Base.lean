import Velora.Wire.Msg

/-!
# What the resolver's files share

The errors of the package, the functions of `github.com/miekg/dns` that are not about the shape of a
message (signatures, digests, hashed denial, printing), the client's address and the context of a query.
-/

namespace Velora.Dns

open Velora.Lib Velora.Lib.Text Velora.Wire

/-- A Go map. -/
abbrev Map (κ α : Type) := AList (fun _ : κ => α)

/-! ### Errors -/

/-- The errors of the package. `context` and `transport` carry the text of an error made elsewhere. -/
inductive Err where
  | depthExceeded
  | context (text : String)
  | transport (text : String)
  | delegationLoop
  | noDNSKEY
  | dsMismatch
  | missingRRSIG (name : Str) (kind : String)
  | lacksDenial
  | validateDS (zone : Str) (e : Err)
  | validateDNSKEY (zone : Str) (e : Err)
  | bogus (e : Err)
  | coolingDown
  | invalidResponse
  | questionCount
  | unrelatedAnswer
  | cnameAfterTerminal
  | invalidChain
  | upstreamResponse (rcode : String)
  | allFailed (last : String)
  deriving DecidableEq

/-- `err.Error()`. -/
def Err.text : Err → String
  | .depthExceeded => "CNAME resolution depth exceeded"
  | .context t => t
  | .transport t => t
  | .delegationLoop => "DNSSEC delegation loop"
  | .noDNSKEY => "secure zone returned no DNSKEY"
  | .dsMismatch => "DNSKEY does not match trusted DS"
  | .missingRRSIG name kind => "missing or invalid RRSIG for " ++ String.ofList name ++ " " ++ kind
  | .lacksDenial => "negative response lacks authenticated denial"
  | .validateDS zone e => "validate DS for " ++ String.ofList zone ++ ": " ++ e.text
  | .validateDNSKEY zone e => "validate DNSKEY for " ++ String.ofList zone ++ ": " ++ e.text
  | .bogus e => "DNSSEC bogus: " ++ e.text
  | .coolingDown => "unhealthy upstreams are cooling down"
  | .invalidResponse => "invalid upstream response"
  | .questionCount => "invalid question count"
  | .unrelatedAnswer => "unrelated answer record"
  | .cnameAfterTerminal => "CNAME follows terminal answer"
  | .invalidChain => "invalid CNAME chain"
  | .upstreamResponse rcode => "upstream response " ++ rcode
  | .allFailed last => "all upstream attempts failed: " ++ last

/-! ### The library -/

/-- The functions of the DNS library that the program calls and that are not about the shape of a message. -/
structure Miekg where
  /-- `sig.Verify(key, rrset) == nil` -/
  verify : Typed RRSIG → Typed DNSKEY → List RR → Bool
  /-- `sig.ValidityPeriod(now)` -/
  validityPeriod : Typed RRSIG → ℕ → Bool
  /-- `key.ToDS(digestType)` -/
  toDS : Typed DNSKEY → UInt8 → Option (Typed DS)
  /-- `nsec3.Match(name)` -/
  nsec3Match : Typed NSEC3 → Str → Bool
  /-- `nsec3.Cover(name)` -/
  nsec3Cover : Typed NSEC3 → Str → Bool
  /-- `m.Len()`, the packed size of a message -/
  len : Msg → ℕ
  typeToString : UInt16 → String
  rcodeToString : ℕ → String
  rrString : RR → String

/-- A library in which exactly the listed signatures verify, as with a scheme nobody can forge. -/
def Miekg.ideal (genuine : List (Typed RRSIG × Typed DNSKEY × List RR)) : Miekg where
  verify sig key set := genuine.contains (sig, key, set)
  validityPeriod sig now :=
    sig.rd.inception.toNat * 1000000000 ≤ now && now ≤ sig.rd.expiration.toNat * 1000000000
  toDS key digestType := some ⟨key.hdr, ⟨7, key.rd.algorithm, digestType, key.rd.publicKey⟩⟩
  nsec3Match _ _ := false
  nsec3Cover _ _ := false
  len m := 12 + 16 * m.sections.length
  typeToString t := toString t.toNat
  rcodeToString n := toString n
  rrString rr := String.ofList rr.name

/-! ### What an explanation is made of -/

/-- A rule, zone, policy or list behind a decision. -/
structure RuleRef where
  id : ℤ := 0
  name : Str
  detail : Str := []
  deriving DecidableEq

/-- The stages of the resolver; `local` stands for the local layer when it fails. -/
inductive Stage where
  | filter | rewrite | zone | cache | forwarding | upstream | refused | local
  deriving DecidableEq

/-- A local answer, the layer that gave it and the rules behind it. -/
structure LocalMatch where
  msg : Msg
  stage : Stage
  rules : List RuleRef
  deriving DecidableEq

/-! ### Addresses and contexts -/

/-- A valid `netip.Addr`; the zero `Addr` is `none`. -/
inductive Addr where
  | v4 (bits : BitVec 32)
  | v6 (bits : BitVec 128) (zone : Str)
  deriving DecidableEq

/-- `Addr.Unmap`: an IPv4-mapped IPv6 address as the IPv4 address. -/
def Addr.unmap : Addr → Addr
  | .v4 b => .v4 b
  | .v6 b z => if b.extractLsb' 32 96 = 0xffff#96 then .v4 (b.extractLsb' 0 32) else .v6 b z

/-- The context of one query in a world with states `σ`: the client `WithClient` recorded, `ctx.Err()`, and
how many zones the key walk of a validation visits before the deadline of the context cuts it off. -/
structure Ctx (σ : Type) where
  client : Option Addr
  err : σ → Option Err
  walk : ℕ

/-- `WithClient`. -/
def Ctx.withClient {σ : Type} (ctx : Ctx σ) (client : Addr) : Ctx σ := { ctx with client := some client }

end Velora.Dns
