import Velora.Dns.Base

/-!
# DNSSEC validation (`internal/dns/dnssec.go`)

`Validate` decides by the records of a response and by what an *exchange* answers to the DNSKEY and DS
queries of the key walk. The exchange is any function with a state of its own, so an upstream may answer
the same question differently each time. `validatedKeys` walks from the zone a message names as its signer
towards a configured anchor; each level asks the network, and the deadline of the context ends the walk
after `walk` levels.
-/

namespace Velora.Dns

open Velora.Lib Velora.Lib.Text Velora.Wire

inductive DNSSECStatus where
  | insecure
  | secure
  deriving DecidableEq

/-- `dnssecExchange`, with the state of the upstream written out. -/
abbrev Exchange (τ : Type) := Msg → τ → Except Err Msg × τ

/-! ### RRsets and signatures -/

/-- The records of `name` and `kind`. -/
def rrset (records : List RR) (name : Str) (kind : UInt16) : List RR :=
  records.filter (fun rr => equalFold rr.name name && rr.rrtype == kind)

/-- The signatures over the records of `name` and `kind`. -/
def signatures (records : List RR) (name : Str) (kind : UInt16) : List (Typed RRSIG) :=
  (records.filterMap RR.rrsig?).filter (fun sig => equalFold sig.hdr.name name && sig.rd.typeCovered == kind)

section

variable (lib : Miekg)

/-- `verifyRRSet`. -/
def verifyRRSet (records : List RR) (name : Str) (kind : UInt16) (keys : List (Typed DNSKEY)) (now : ℕ) :
    Except Err Unit :=
  let set := rrset records name kind
  if (signatures records name kind).any (fun sig =>
      lib.validityPeriod sig now && keys.any (fun key => lib.verify sig key set)) then .ok ()
  else .error (.missingRRSIG name (lib.typeToString kind))

/-- `dnskeys`. -/
def dnskeys (records : List RR) (name : Str) : List (Typed DNSKEY) :=
  (records.filterMap RR.dnskey?).filter (fun key => equalFold key.hdr.name name)

/-- `dsRecords`. -/
def dsRecords (records : List RR) (name : Str) : List (Typed DS) :=
  (records.filterMap RR.ds?).filter (fun ds => equalFold ds.hdr.name name)

/-- The digest of `key` is the one of `ds`. -/
def dsMatches (key : Typed DNSKEY) (ds : Typed DS) : Bool :=
  match lib.toDS key ds.rd.digestType with
  | none => false
  | some candidate =>
    candidate.rd.keyTag == ds.rd.keyTag && candidate.rd.algorithm == ds.rd.algorithm &&
      equalFold candidate.rd.digest ds.rd.digest

/-- `matchDS`. -/
def matchDS (keys : List (Typed DNSKEY)) (records : List (Typed DS)) : List (Typed DNSKEY) :=
  keys.filter (fun key => records.any (dsMatches lib key))

/-! ### Denial of existence -/

/-- `nsecCovers`: by the order of the texts. -/
def nsecCovers (nsec : Typed NSEC) (name : Str) : Bool :=
  let owner := canonicalName nsec.hdr.name
  let next := canonicalName nsec.rd.nextDomain
  let target := canonicalName name
  if owner < next then decide (owner < target) && decide (target < next)
  else decide (owner < target) || decide (target < next)

def coveredByNSEC (proofs : List (Typed NSEC)) (name : Str) : Bool := proofs.any (nsecCovers · name)

def coveredByNSEC3 (proofs : List (Typed NSEC3)) (name : Str) : Bool := proofs.any (lib.nsec3Cover · name)

/-- The proper ancestors of a name with these labels, the closest first and the root last. -/
def ancestors : List Str → List Str
  | [] => []
  | _ :: rest => rest.tails.map (fun ls => if ls = [] then root else joinLabels ls)

/-- `closestEncloser`; the empty text it returns for "none" is `none`. -/
def closestEncloser (name : Str) (existing : Str → Bool) : Option Str :=
  (ancestors (splitDomainName name)).find? existing

/-- `"*." + closest`. -/
def wildcardOf (closest : Str) : Str := '*' :: '.' :: closest

/-- `validNSECNXDomain`. -/
def validNSECNXDomain (name : Str) (proofs : List (Typed NSEC)) : Bool :=
  match closestEncloser name (fun candidate => proofs.any (fun p => equalFold p.hdr.name candidate)) with
  | none => false
  | some closest => coveredByNSEC proofs name && coveredByNSEC proofs (wildcardOf closest)

/-- The ancestor of `name` one label longer than `closest`. -/
def nextCloser (name closest : Str) : Str :=
  let labels := splitDomainName name
  let closestLabels := countLabel closest
  if labels.length > closestLabels then joinLabels (labels.drop (labels.length - closestLabels - 1)) else name

/-- `validNSEC3NXDomain`. -/
def validNSEC3NXDomain (name : Str) (proofs : List (Typed NSEC3)) : Bool :=
  match closestEncloser name (fun candidate => proofs.any (lib.nsec3Match · candidate)) with
  | none => false
  | some closest =>
    coveredByNSEC3 lib proofs (nextCloser name closest) && coveredByNSEC3 lib proofs (wildcardOf closest)

/-- A record of the authority section that says `q.name` has no records of type `q.qtype`. -/
def deniesType (q : Question) (rr : RR) : Bool :=
  match rr.data with
  | .nsec d => equalFold rr.name q.name && !d.typeBitMap.contains q.qtype
  | .nsec3 d => lib.nsec3Match ⟨rr.hdr, d⟩ q.name && !d.typeBitMap.contains q.qtype
  | _ => false

/-- `validateDenial`. -/
def validateDenial (q : Question) (response : Msg) : Except Err Unit :=
  let nsecs := response.ns.filterMap RR.nsec?
  let nsec3s := response.ns.filterMap RR.nsec3?
  if response.rcode == rcodeSuccess && response.ns.any (deniesType lib q) then .ok ()
  else if response.rcode == rcodeNameError &&
      (validNSECNXDomain q.name nsecs || validNSEC3NXDomain lib q.name nsec3s) then .ok ()
  else .error .lacksDenial

/-! ### Messages -/

/-- The types `validateMessage` does not check. -/
def unchecked (t : UInt16) : Bool := t == typeRRSIG || t == typeOPT || t == typeNS

/-- The key `validateMessage` groups a record under. -/
def rrsetKey (rr : RR) : Str := canonicalName rr.name ++ '/' :: decimal rr.rrtype.toNat

/-- The grouping loop of `validateMessage`. -/
def rrsets (records : List RR) : Map Str (List RR) :=
  (records.filter (fun rr => !unchecked rr.rrtype)).foldl
    (fun sets rr => sets.insert (rrsetKey rr) ((sets.lookup (rrsetKey rr)).getD [] ++ [rr])) ∅

/-- The check of one group, by its first record. -/
def verifySet (records : List RR) (keys : List (Typed DNSKEY)) (now : ℕ) (set : List RR) : Except Err Unit :=
  match set with
  | [] => .ok ()
  | rr :: _ => verifyRRSet lib records rr.name rr.rrtype keys now

/-- `validateMessage`. -/
def validateMessage (q response : Msg) (keys : List (Typed DNSKEY)) (now : ℕ) : Except Err Unit :=
  let records := response.answer ++ response.ns
  match (rrsets records).entries.findSome? (fun e =>
      match verifySet lib records keys now e.2 with
      | .ok _ => none
      | .error err => some err) with
  | some err => .error err
  | none =>
    if response.rcode == rcodeNameError || (response.rcode == rcodeSuccess && response.answer.isEmpty) then
      validateDenial lib q.question0 response
    else .ok ()

/-- `responseSigner`: the signer of the first RRSIG of the answer and authority sections, `[]` for none. -/
def responseSigner (response : Msg) : Str :=
  match (response.answer ++ response.ns).findSome? RR.rrsig? with
  | some sig => canonicalName sig.rd.signerName
  | none => []

/-- `question`. The identifier is drawn by the forwarder that sends it. -/
def question (name : Str) (kind : UInt16) : Msg :=
  ({ setQuestion 0 name kind with checkingDisabled := true } : Msg).setEdns0 1232 true

/-! ### The key walk -/

/-- The end of `validatedKeys`: the keys of the response, when a key `trustedDS` vouches for signs them. -/
def checkKeys (now : ℕ) (keyResponse : Msg) (zone : Str) (trustedDS : List (Typed DS)) :
    Except Err (Option (List (Typed DNSKEY))) :=
  let keys := dnskeys keyResponse.answer zone
  let trustedKeys := matchDS lib keys trustedDS
  if trustedKeys.isEmpty then .error .dsMismatch
  else
    match verifyRRSet lib keyResponse.answer zone typeDNSKEY trustedKeys now with
    | .error e => .error (.validateDNSKEY zone e)
    | .ok _ => .ok (some keys)

variable (anchors : Map Str (List (Typed DS))) (now : ℕ) {τ : Type} (exchange : Exchange τ)

/-- `v.anchors[zone]`. -/
def anchorsOf (zone : Str) : List (Typed DS) := (anchors.lookup zone).getD []

/-- `validatedKeys`: `some keys` for a secure zone, `none` for an insecure one. -/
def validatedKeys : ℕ → List Str → Str → τ → Except Err (Option (List (Typed DNSKEY))) × τ
  | 0, _, _, s => (.error (.context "context deadline exceeded"), s)
  | walk + 1, visiting, name, s =>
    let zone := canonicalName name
    if visiting.contains zone then (.error .delegationLoop, s)
    else
      match exchange (question zone typeDNSKEY) s with
      | (.error e, s) => (.error e, s)
      | (.ok keyResponse, s) =>
        if (dnskeys keyResponse.answer zone).isEmpty then (.error .noDNSKEY, s)
        else if !(anchorsOf anchors zone).isEmpty then
          (checkKeys lib now keyResponse zone (anchorsOf anchors zone), s)
        else
          match exchange (question zone typeDS) s with
          | (.error e, s) => (.error e, s)
          | (.ok dsResponse, s) =>
            let parentSigner := responseSigner dsResponse
            if parentSigner == [] || equalFold parentSigner zone then (.ok none, s)
            else
              match validatedKeys walk (zone :: visiting) parentSigner s with
              | (.error e, s) => (.error e, s)
              | (.ok none, s) => (.ok none, s)
              | (.ok (some parentKeys), s) =>
                match validateMessage lib (question zone typeDS) dsResponse parentKeys now with
                | .error e => (.error (.validateDS zone e), s)
                | .ok _ =>
                  if (dsRecords dsResponse.answer zone).isEmpty then (.ok none, s)
                  else (checkKeys lib now keyResponse zone (dsRecords dsResponse.answer zone), s)

/-- `Validate`. -/
def validate (walk : ℕ) (q response : Msg) (s : τ) : Except Err DNSSECStatus × τ :=
  if response.rcode ≠ rcodeSuccess ∧ response.rcode ≠ rcodeNameError then (.ok .insecure, s)
  else
    let signer := responseSigner response
    if signer = [] then (.ok .insecure, s)
    else
      match validatedKeys lib anchors now exchange walk [] signer s with
      | (.error e, s) => (.error e, s)
      | (.ok none, s) => (.ok .insecure, s)
      | (.ok (some keys), s) =>
        match validateMessage lib q response keys now with
        | .error e => (.error e, s)
        | .ok _ => (.ok .secure, s)

end

end Velora.Dns
