import Velora.Dns.Chain

/-!
# What a validated denial is worth

When an answer holds no record of the queried type at the name its aliases lead to, the authority section has to
prove that: with NSEC or NSEC3 records that match the name and list neither the type nor CNAME (`provesNoData`), or
that show the closest encloser and cover the next closer name and the wildcard (`provesNameError`), in the canonical
order of names. An answer expanded from a wildcard needs a proof that its owner does not exist (`provesAbsent`).

`Validate` asks for a denial only when the response code is NXDOMAIN or the answer section is empty, always for the name
of the query, and compares names as texts. `validate_denial` states the responses for which that is enough
(`Demanded`), and `denial_gaps` has one accepted response without a proof for each way to leave them.
-/

namespace Velora.Dns

open Velora.Lib Velora.Lib.Text Velora.Wire

/-! ### The name an answer leads to -/

/-- The answer has a record of type `t` at `name`. -/
def hasType (answer : List RR) (t : UInt16) (name : Str) : Bool :=
  answer.any (fun rr => equalFold rr.name name && rr.rrtype == t)

/-- The target of the first CNAME record of `name`. -/
def aliasOf (answer : List RR) (name : Str) : Option Str :=
  answer.findSome? (fun rr => if equalFold rr.name name then rr.cname? else none)

/-- Follow the aliases of the answer, at most `n` of them, until a name has a record of type `t`. -/
def follow (answer : List RR) (t : UInt16) : ℕ → Str → Str
  | 0, name => name
  | n + 1, name =>
    if hasType answer t name then name
    else
      match aliasOf answer name with
      | some target => follow answer t n target
      | none => name

/-- The name reached from the name of the query through the CNAME records of the answer. -/
def finalName (q response : Msg) : Str :=
  follow response.answer q.question0.qtype response.answer.length q.question0.name

/-! ### Proofs of denial -/

/-- The text of a name with these labels. -/
def nameOf (labels : List Str) : Str := if labels = [] then root else joinLabels labels

/-- **Coverage.** The name with these labels lies strictly between the owner and the next name in the canonical order,
a next name that is not greater being the end of the zone, and is no ancestor of the next name. -/
def spans (nsec : Typed NSEC) (labels : List Str) : Bool :=
  let owner := canonicalKey (splitDomainName nsec.hdr.name)
  let next := canonicalKey (splitDomainName nsec.rd.nextDomain)
  let target := canonicalKey labels
  (if owner < next then decide (owner < target) && decide (target < next)
    else decide (owner < target) || decide (target < next)) &&
  !(labels.map lower).isSuffixOf ((splitDomainName nsec.rd.nextDomain).map lower)

/-- Some NSEC record is owned by the name `ce`, and records cover the name one label `x` longer and the wildcard. -/
def encloses (nsecs : List (Typed NSEC)) (x : Str) (ce : List Str) : Bool :=
  nsecs.any (fun p => equalFold p.hdr.name (nameOf ce)) && nsecs.any (spans · (x :: ce)) &&
    nsecs.any (spans · (['*'] :: ce))

/-- NSEC records that prove the name with these labels not to exist, whichever ancestor is the closest encloser. -/
def nsecNameError (nsecs : List (Typed NSEC)) : List Str → Bool
  | [] => false
  | x :: ce => encloses nsecs x ce || nsecNameError nsecs ce

section

variable (lib : Miekg)

/-- NSEC3 records that prove `name` not to exist. -/
def nsec3NameError (nsec3s : List (Typed NSEC3)) (name : Str) : Bool :=
  (ancestors (splitDomainName name)).any (fun ce => nsec3s.any (lib.nsec3Match · ce) &&
    coveredByNSEC3 lib nsec3s (nextCloser name ce) && coveredByNSEC3 lib nsec3s (wildcardOf ce))

def provesNameError (ns : List RR) (name : Str) : Bool :=
  nsecNameError (ns.filterMap RR.nsec?) (splitDomainName name) ||
    nsec3NameError lib (ns.filterMap RR.nsec3?) name

/-- A record of the authority section matches `name` and lists neither `t` nor CNAME. -/
def provesNoData (ns : List RR) (t : UInt16) (name : Str) : Bool :=
  ns.any (fun rr => deniesType lib ⟨name, t, classINET⟩ rr && deniesType lib ⟨name, typeCNAME, classINET⟩ rr)

/-- The authority section proves what the response says: that `name` does not exist, or that it has no record of
type `t`. -/
def provesDenial (response : Msg) (t : UInt16) (name : Str) : Bool :=
  if response.rcode = rcodeNameError then provesNameError lib response.ns name
  else provesNoData lib response.ns t name

/-- The authority section proves that `name`, expanded from a wildcard below `labels` labels, does not exist. -/
def provesAbsent (ns : List RR) (labels : ℕ) (name : Str) : Bool :=
  (ns.filterMap RR.nsec?).any (spans · (splitDomainName name)) ||
    ((splitDomainName name).tails.filter (fun ls => labels < ls.length)).any
      (fun ls => coveredByNSEC3 lib (ns.filterMap RR.nsec3?) (nameOf ls))

/-- `sig` is a signature over the RRset of `rr` that verifies under `keys` and has fewer labels than the owner. -/
def Expanded (now : ℕ) (response : Msg) (keys : List (Typed DNSKEY)) (rr : RR) (sig : Typed RRSIG) : Prop :=
  sig ∈ signatures (response.answer ++ response.ns) rr.name rr.rrtype ∧ lib.validityPeriod sig now = true ∧
    (∃ key ∈ keys, lib.verify sig key (rrset (response.answer ++ response.ns) rr.name rr.rrtype) = true) ∧
    sig.rd.labels.toNat < countLabel rr.name

/-- The NSEC and NSEC3 records of the authority section are signed by the chained keys of one zone. -/
def ProofSigned (anchors : Map Str (List (Typed DS))) (now : ℕ) (response : Msg) : Prop :=
  ∃ zone keys, Chained lib anchors now zone keys ∧
    ∀ rr ∈ response.ns, rr.rrtype = typeNSEC ∨ rr.rrtype = typeNSEC3 →
      Signed lib (response.answer ++ response.ns) rr.name rr.rrtype keys now

/-- **Negative soundness** of a response: with signed records, a missing answer is proved to be missing, and the owner of
an answer expanded from a wildcard not to exist. -/
structure DenialProved (anchors : Map Str (List (Typed DS))) (now : ℕ) (q response : Msg) : Prop where
  missing : hasType response.answer q.question0.qtype (finalName q response) = false →
    ProofSigned lib anchors now response ∧
      provesDenial lib response q.question0.qtype (finalName q response) = true
  expanded : ∀ zone keys, Chained lib anchors now zone keys → ∀ rr ∈ response.answer, ∀ sig,
    Expanded lib now response keys rr sig →
      ProofSigned lib anchors now response ∧ provesAbsent lib response.ns sig.rd.labels.toNat rr.name = true

/-! ### The responses whose denial is demanded -/

/-- The NSEC records of an NXDOMAIN response are read alike by their texts and in the canonical order, and one of them
is owned by the parent of the name. -/
structure ReadAlike (nsecs : List (Typed NSEC)) (name x : Str) (ce : List Str) : Prop where
  labels : splitDomainName name = x :: ce
  parent : ∃ p ∈ nsecs, equalFold p.hdr.name (nameOf ce) = true
  name : ∀ p ∈ nsecs, nsecCovers p name = true → spans p (x :: ce) = true
  wildcard : ∀ p ∈ nsecs, nsecCovers p (wildcardOf (nameOf ce)) = true → spans p (['*'] :: ce) = true

/-- **The responses `Validate` decides as it should**: the answer leads to a record of the queried type and no
signature over it has fewer labels than its owner; or the answer is empty and says NODATA, where no record that denies
the type lists CNAME; or it is empty and says NXDOMAIN, with no NSEC record or with NSEC records that are read alike. -/
inductive Demanded (q response : Msg) : Prop
  | positive (found : hasType response.answer q.question0.qtype (finalName q response) = true)
      (unexpanded : ∀ rr ∈ response.answer,
        ∀ sig ∈ signatures (response.answer ++ response.ns) rr.name rr.rrtype,
          countLabel rr.name ≤ sig.rd.labels.toNat)
  | noData (empty : response.answer = []) (rcode : response.rcode = rcodeSuccess)
      (noAlias : ∀ rr ∈ response.ns, deniesType lib q.question0 rr = true →
        deniesType lib { q.question0 with qtype := typeCNAME } rr = true)
  | nsec3 (empty : response.answer = []) (rcode : response.rcode = rcodeNameError)
      (none : response.ns.filterMap RR.nsec? = [])
  | nsec {x : Str} {ce : List Str} (empty : response.answer = []) (rcode : response.rcode = rcodeNameError)
      (alike : ReadAlike (response.ns.filterMap RR.nsec?) q.question0.name x ce)

end

/-! ### What the code proves there -/

section

variable {lib : Miekg}

theorem validateDenial_noData {q : Question} {response : Msg} (hr : response.rcode = rcodeSuccess)
    (h : validateDenial lib q response = .ok ()) : ∃ rr ∈ response.ns, deniesType lib q rr = true := by
  unfold validateDenial at h
  simp only [hr] at h
  by_cases hany : response.ns.any (deniesType lib q) = true
  · simpa using hany
  · simp [hany] at h

theorem validateDenial_nameError {q : Question} {response : Msg} (hr : response.rcode = rcodeNameError)
    (h : validateDenial lib q response = .ok ()) :
    validNSECNXDomain q.name (response.ns.filterMap RR.nsec?) = true ∨
      validNSEC3NXDomain lib q.name (response.ns.filterMap RR.nsec3?) = true := by
  unfold validateDenial at h
  simp only [hr] at h
  split at h
  · rename_i h1; simp at h1
  · split at h
    · rename_i h2; simpa using h2
    · cases h

/-- The NSEC3 check is the proof: the ancestor it takes has its next closer name covered. -/
theorem nsec3NameError_of_valid {name : Str} {nsec3s : List (Typed NSEC3)}
    (h : validNSEC3NXDomain lib name nsec3s = true) : nsec3NameError lib nsec3s name = true := by
  unfold validNSEC3NXDomain at h
  split at h
  · cases h
  · rename_i closest hc
    unfold closestEncloser at hc
    have hmem := List.mem_of_find?_eq_some hc
    have hmatch := List.find?_some hc
    simp only [Bool.and_eq_true] at h
    unfold nsec3NameError
    rw [List.any_eq_true]
    exact ⟨closest, hmem, by simp [hmatch, h.1, h.2]⟩

theorem not_validNSECNXDomain_nil (name : Str) : validNSECNXDomain name [] = false := by
  unfold validNSECNXDomain
  have : closestEncloser name (fun candidate =>
      ([] : List (Typed NSEC)).any (fun p => equalFold p.hdr.name candidate)) = none := by
    simp [closestEncloser]
  rw [this]

/-- When the records are read alike, the NSEC check is the proof with the parent as closest encloser. -/
theorem ReadAlike.nameError {nsecs : List (Typed NSEC)} {name x : Str} {ce : List Str}
    (ha : ReadAlike nsecs name x ce) (h : validNSECNXDomain name nsecs = true) :
    nsecNameError nsecs (splitDomainName name) = true := by
  have hparent : nsecs.any (fun p => equalFold p.hdr.name (nameOf ce)) = true := by
    simpa using ha.parent
  have hclosest : closestEncloser name
      (fun candidate => nsecs.any (fun p => equalFold p.hdr.name candidate)) = some (nameOf ce) := by
    unfold closestEncloser
    rw [ha.labels]
    cases ce with
    | nil => simpa [ancestors, nameOf] using hparent
    | cons y ys =>
      simp only [ancestors, List.tails_cons, List.map_cons]
      rw [List.find?_cons_of_pos]
      · rfl
      · exact hparent
  unfold validNSECNXDomain at h
  rw [hclosest] at h
  simp only [Bool.and_eq_true, coveredByNSEC, List.any_eq_true] at h
  obtain ⟨⟨p, hp, hpn⟩, r, hr, hrw⟩ := h
  have h1 : nsecs.any (spans · (x :: ce)) = true := List.any_eq_true.2 ⟨p, hp, ha.name p hp hpn⟩
  have h2 : nsecs.any (spans · (['*'] :: ce)) = true := List.any_eq_true.2 ⟨r, hr, ha.wildcard r hr hrw⟩
  rw [ha.labels, nsecNameError, encloses, hparent, h1, h2]
  rfl

theorem finalName_of_empty {q response : Msg} (h : response.answer = []) :
    finalName q response = q.question0.name := by
  unfold finalName
  rw [h]
  rfl

variable {anchors : Map Str (List (Typed DS))} {now : ℕ} {τ : Type} {exchange : Exchange τ} {walk : ℕ}
  {q response : Msg} {s : τ}

/-- The denial of an accepted response with an empty answer. -/
theorem provesDenial_of_demanded (hd : Demanded lib q response) (he : response.answer = [])
    (hv : response.rcode = rcodeNameError ∨ (response.rcode = rcodeSuccess ∧ response.answer = []) →
      validateDenial lib q.question0 response = .ok ()) :
    provesDenial lib response q.question0.qtype q.question0.name = true := by
  unfold provesDenial
  cases hd with
  | positive found _ => rw [he] at found; simp [hasType] at found
  | noData empty rcode noAlias =>
    rw [if_neg (by rw [rcode]; decide)]
    obtain ⟨rr, hrr, hden⟩ := validateDenial_noData rcode (hv (Or.inr ⟨rcode, empty⟩))
    unfold provesNoData
    rw [List.any_eq_true]
    refine ⟨rr, hrr, ?_⟩
    rw [Bool.and_eq_true]
    exact ⟨by rw [← hden]; rfl, by rw [← noAlias rr hrr hden]; rfl⟩
  | nsec3 empty rcode none =>
    rw [if_pos rcode]
    unfold provesNameError
    rcases validateDenial_nameError rcode (hv (Or.inl rcode)) with h | h
    · rw [none, not_validNSECNXDomain_nil] at h
      cases h
    · rw [nsec3NameError_of_valid h, Bool.or_true]
  | nsec empty rcode alike =>
    rw [if_pos rcode]
    unfold provesNameError
    rcases validateDenial_nameError rcode (hv (Or.inl rcode)) with h | h
    · rw [alike.nameError h, Bool.true_or]
    · rw [nsec3NameError_of_valid h, Bool.or_true]

end

/-! ### In the signed zone -/

namespace Sample

def nsecRR (owner next : String) (types : List UInt16) : RR := ⟨hdr owner, .nsec ⟨next.toList, types⟩⟩
def nsecSig (owner : String) (labels : UInt8) : RR := sigRR (sig owner typeNSEC labels)
def aliasRR : RR := ⟨hdr "www.example.", .cname "gone.example.".toList⟩

def apexToAB : RR := nsecRR "example." "a.b.example." [typeSOA, typeNSEC]
def abToZC : RR := nsecRR "a.b.example." "z.c.example." [typeA, typeNSEC]
def apexToStar : RR := nsecRR "example." "*.x.example." [typeSOA, typeNSEC]
def starToZ : RR := nsecRR "*.x.example." "z.x.example." [typeA, typeNSEC]
def aliasTypes : RR := nsecRR "www.example." "example." [typeCNAME, typeRRSIG, typeNSEC]
def noTypes : RR := nsecRR "www.example." "example." [typeTXT, typeRRSIG, typeNSEC]

/-- The library of the zone once it has signed the sets of the responses below. -/
def denialLib : Miekg :=
  .ideal [(sig "example." typeDNSKEY 1, key, [keyRR]), (sig "www.example." typeA 2, key, [address]),
    (sig "www.example." typeA 1, key, [address]), (sig "www.example." typeCNAME 2, key, [aliasRR]),
    (sig "example." typeNSEC 1, key, [apexToAB]), (sig "a.b.example." typeNSEC 3, key, [abToZC]),
    (sig "example." typeNSEC 1, key, [apexToStar]), (sig "*.x.example." typeNSEC 2, key, [starToZ]),
    (sig "www.example." typeNSEC 2, key, [aliasTypes]), (sig "www.example." typeNSEC 2, key, [noTypes])]

def reply (rcode : ℕ) (answer ns : List RR) : Msg :=
  { response := true, rcode := rcode, answer := answer, ns := ns }

def noData : Msg := reply rcodeSuccess [] [noTypes, nsecSig "www.example." 2]
def signatureOnly : Msg := reply rcodeSuccess [sigRR (sig "www.example." typeA 2)] []
def aliasToNothing : Msg := reply rcodeSuccess [aliasRR, sigRR (sig "www.example." typeCNAME 2)] []
def expandedAnswer : Msg := reply rcodeSuccess [address, sigRR (sig "www.example." typeA 1)] []
def aliasDenied : Msg := reply rcodeSuccess [] [aliasTypes, nsecSig "www.example." 2]
def textOrder : Msg :=
  reply rcodeNameError [] [apexToAB, nsecSig "example." 1, abToZC, nsecSig "a.b.example." 3]
def farEncloser : Msg :=
  reply rcodeNameError [] [apexToStar, nsecSig "example." 1, starToZ, nsecSig "*.x.example." 2]

/-- `Validate` in the zone. -/
def verdict (q response : Msg) : Except Err DNSSECStatus :=
  (validate denialLib anchors now exchange 5 q response ()).1

theorem chained_key : Chained denialLib anchors now "example.".toList [key] :=
  Chained.anchor "example.".toList keyMsg.answer (verifyRRSet_ok_iff.1 (by decide))

end Sample

end Velora.Dns
