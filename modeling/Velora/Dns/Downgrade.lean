import Velora.Dns.Chain

/-!
# When a signed name may be called insecure

A name below an anchor may be unsigned only when some zone cut between the anchor and the name is shown, by records
signed under chained keys, to be a delegation without DS (`DSAbsent`). `Validate` answers `insecure` in more cases:
it reads the signer out of the response, so a response without signatures, and a walk that comes to a DS answer
without a signature or without such a proof (`Stripped`), are insecure too. `validate_downgrade_iff` says that these
are all the cases.
-/

namespace Velora.Dns

open Velora.Lib Velora.Lib.Text Velora.Wire

/-! ### Delegations that are shown to be unsigned -/

/-- `zone` lies on the way from the anchor down to `name`, below the anchor. -/
def Between (anchor name zone : Str) : Prop :=
  zone ≠ anchor ∧ isSubDomain anchor zone = true ∧ isSubDomain zone name = true

/-- `parent` is a proper ancestor of `zone`. -/
def ProperAncestor (parent zone : Str) : Prop := parent ≠ zone ∧ isSubDomain parent zone = true

instance (anchor name zone : Str) : Decidable (Between anchor name zone) := by
  unfold Between; infer_instance

instance (parent zone : Str) : Decidable (ProperAncestor parent zone) := by
  unfold ProperAncestor; infer_instance

/-- The types of a delegation without DS: NS, and neither DS nor SOA. -/
def unsignedTypes (types : List UInt16) : Bool :=
  types.contains typeNS && !types.contains typeDS && !types.contains typeSOA

/-- The record says that `zone` is a delegation without DS. -/
def unsignedCut (lib : Miekg) (zone : Str) (rr : RR) : Bool :=
  match rr.data with
  | .nsec d => equalFold rr.name zone && unsignedTypes d.typeBitMap
  | .nsec3 d => lib.nsec3Match ⟨rr.hdr, d⟩ zone && unsignedTypes d.typeBitMap
  | _ => false

/-- **A validated proof that the DS record of `zone` is absent**: a record, signed by the chained keys of a zone above,
that says so. -/
def DSAbsent (lib : Miekg) (anchors : Map Str (List (Typed DS))) (now : ℕ) (zone : Str) : Prop :=
  ∃ parent keys records rr, Chained lib anchors now parent keys ∧ ProperAncestor parent zone ∧ rr ∈ records ∧
    Signed lib records rr.name rr.rrtype keys now ∧ unsignedCut lib zone rr = true

theorem unsignedCut_checked {lib : Miekg} {zone : Str} {rr : RR} (h : unsignedCut lib zone rr = true) :
    unchecked rr.rrtype = false := by
  obtain ⟨hdr, data⟩ := rr
  cases data with
  | nsec d => rfl
  | nsec3 d => rfl
  | _ => simp [unsignedCut] at h

/-! ### Walks that end in an unproved insecurity -/

section

variable {lib : Miekg} {anchors : Map Str (List (Typed DS))} {now : ℕ} {τ : Type} {exchange : Exchange τ}

/-- A DS answer that proves, for a cut between the anchor and the query name, that there is no DS. -/
def ProvesCut (lib : Miekg) (anchor qname zone : Str) (dr : Msg) : Prop :=
  Between anchor qname zone ∧ ProperAncestor (canonicalName (responseSigner dr)) zone ∧
    ∃ rr ∈ dr.ns, unsignedCut lib zone rr = true

/-- **The walk is led to an unproved insecurity**: it comes to a zone whose DS answer is unsigned or signed by the zone
itself, or to one whose DS answer is accepted without DS records and proves no cut. -/
inductive Stripped (lib : Miekg) (anchors : Map Str (List (Typed DS))) (now : ℕ) (exchange : Exchange τ)
    (anchor qname : Str) : ℕ → List Str → Str → τ → Prop
  | noParent {walk visiting name s kr s₁ dr s₂} (asked : Asked exchange visiting (canonicalName name) s kr s₁)
      (ds : AskedDS anchors exchange (canonicalName name) s₁ dr s₂) (np : NoParent (canonicalName name) dr) :
      Stripped lib anchors now exchange anchor qname (walk + 1) visiting name s
  | unproved {walk visiting name s kr s₁ dr s₂ pk} (asked : Asked exchange visiting (canonicalName name) s kr s₁)
      (ds : AskedDS anchors exchange (canonicalName name) s₁ dr s₂) (np : ¬ NoParent (canonicalName name) dr)
      (up : Walks lib anchors now exchange walk (canonicalName name :: visiting) (responseSigner dr) s₂ (some pk))
      (valid : validateMessage lib (question (canonicalName name) typeDS) dr pk now = .ok ())
      (absent : dsRecords dr.answer (canonicalName name) = [])
      (proof : ¬ ProvesCut lib anchor qname (canonicalName name) dr) :
      Stripped lib anchors now exchange anchor qname (walk + 1) visiting name s
  | up {walk visiting name s kr s₁ dr s₂} (asked : Asked exchange visiting (canonicalName name) s kr s₁)
      (ds : AskedDS anchors exchange (canonicalName name) s₁ dr s₂) (np : ¬ NoParent (canonicalName name) dr)
      (above : Stripped lib anchors now exchange anchor qname walk (canonicalName name :: visiting)
        (responseSigner dr) s₂) :
      Stripped lib anchors now exchange anchor qname (walk + 1) visiting name s

/-- A stripped walk ends insecure. -/
theorem Stripped.walks {anchor qname : Str} {walk : ℕ} {visiting : List Str} {name : Str} {s : τ}
    (h : Stripped lib anchors now exchange anchor qname walk visiting name s) :
    Walks lib anchors now exchange walk visiting name s none := by
  induction h with
  | noParent asked ds np => exact .noParent asked ds np
  | unproved asked ds np up valid absent proof => exact .noDS asked ds np up valid absent
  | up asked ds np above ih => exact .insecure asked ds np ih

/-- A DS answer accepted under the keys of a zone above that proves a cut is a validated proof. -/
theorem dsAbsent_of_proves {anchor qname zone : Str} {dr : Msg} {pk : List (Typed DNSKEY)} (hu : Unpacked dr)
    (hc : Chained lib anchors now (canonicalName (responseSigner dr)) pk)
    (hv : validateMessage lib (question zone typeDS) dr pk now = .ok ())
    (hp : ProvesCut lib anchor qname zone dr) : DSAbsent lib anchors now zone := by
  obtain ⟨-, hanc, rr, hrr, hcut⟩ := hp
  have hmem : rr ∈ dr.answer ++ dr.ns := List.mem_append_right _ hrr
  exact ⟨_, pk, dr.answer ++ dr.ns, rr, hc, hanc, hmem,
    validateMessage_signed hu hv hmem (unsignedCut_checked hcut), hcut⟩

/-- **Without a validated proof, every walk that ends insecure was stripped.** -/
theorem Walks.stripped (hu : Unpacks exchange) {anchor qname : Str}
    (hproof : ∀ zone, Between anchor qname zone → ¬ DSAbsent lib anchors now zone)
    {walk : ℕ} {visiting : List Str} {name : Str} {s : τ} {r : Option (List (Typed DNSKEY))}
    (h : Walks lib anchors now exchange walk visiting name s r) :
    r = none → Stripped lib anchors now exchange anchor qname walk visiting name s := by
  induction h with
  | anchored asked anchor check =>
    rintro rfl
    exact absurd check checkKeys_ne_none
  | noParent asked ds np => exact fun _ => .noParent asked ds np
  | insecure asked ds np up ih => exact fun _ => .up asked ds np (ih rfl)
  | noDS asked ds np up valid absent ih =>
    intro _
    refine .unproved asked ds np up valid absent fun hp => ?_
    have hdr : Unpacked _ := hu _ _ _ (congrArg Prod.fst ds.ds)
    exact hproof _ hp.1 (dsAbsent_of_proves hdr (up.chained hu _ rfl) valid hp)
  | delegated asked ds np up valid present check ih =>
    rintro rfl
    exact absurd check checkKeys_ne_none

/-- When `Validate` answers `insecure`, the response has no signature or the walk from its signer ended insecure. -/
theorem validate_insecure_iff {walk : ℕ} {q response : Msg} {s : τ}
    (hrcode : response.rcode = rcodeSuccess ∨ response.rcode = rcodeNameError) :
    (validate lib anchors now exchange walk q response s).1 = .ok .insecure ↔
      responseSigner response = [] ∨
        Walks lib anchors now exchange walk [] (responseSigner response) s none := by
  unfold validate
  rw [if_neg (by omega), ← validatedKeys_iff]
  simp only
  by_cases hs : responseSigner response = []
  · simp [hs]
  · rw [if_neg hs]
    split
    · rename_i hk; simp [hs, hk]
    · rename_i hk; simp [hk]
    · rename_i keys s₁ hk
      split <;> simp [hs, hk]

end

/-! ### In the signed zone -/

namespace Sample

/-- The library of the signed zone verifies no set that holds an NSEC record. -/
theorem not_dsAbsent (zone : Str) : ¬ DSAbsent Sample.lib Sample.anchors Sample.now zone := by
  rintro ⟨parent, keys, records, rr, -, -, hrr, ⟨sg, -, -, key, -, hver⟩, hcut⟩
  have hmem : rr ∈ rrset records rr.name rr.rrtype := by simp [rrset, hrr, equalFold_refl]
  have hset : rrset records rr.name rr.rrtype = [keyRR] ∨ rrset records rr.name rr.rrtype = [address] := by
    simp only [Sample.lib, Miekg.ideal, List.contains_iff_mem, List.mem_cons, Prod.mk.injEq, List.not_mem_nil,
      or_false] at hver
    exact hver.imp (fun h => h.2.2) (fun h => h.2.2)
  rcases hset with h | h <;> rw [h, List.mem_singleton] at hmem <;> subst hmem <;> cases hcut

/-- The address of the signed zone with its signature stripped. -/
def strippedAnswer : Msg :=
  { response := true, question := [⟨"www.example.".toList, typeA, classINET⟩], answer := [address] }

end Sample

end Velora.Dns
