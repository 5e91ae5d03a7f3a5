import Velora.Dns.Dnssec

/-!
# What a validated answer is worth

`Chained zone keys` says what it is for the keys of a zone to be reached from a configured anchor: the DNSKEY
RRset is signed by a key that a trusted DS set vouches for, and a DS set is trusted when it is an anchor or an
RRset signed by the keys of a zone that is itself chained. It mentions neither the walk nor the exchange.

* `validatedKeys_chained`: the keys the walk returns are chained.
* `validateMessage_signed`: every record `validateMessage` checks belongs to a signed RRset.
* `answer_covered_iff`: a response on which `Validate` answers `secure` has its whole Answer covered by chained
  signatures exactly when its NS records are, the one type of data the grouping loop passes over.
-/

namespace Velora.Dns

open Velora.Lib Velora.Lib.Text Velora.Wire

/-! ### Signed RRsets and chained keys -/

section

variable (lib : Miekg)

/-- Among `records`, the RRset of `name` and `kind` carries a signature that is within its validity period and
verifies under one of `keys`. -/
def Signed (records : List RR) (name : Str) (kind : UInt16) (keys : List (Typed DNSKEY)) (now : ℕ) : Prop :=
  ∃ sig ∈ signatures records name kind, lib.validityPeriod sig now = true ∧
    ∃ key ∈ keys, lib.verify sig key (rrset records name kind) = true

/-- **Keys reached from an anchor.** -/
inductive Chained (anchors : Map Str (List (Typed DS))) (now : ℕ) : Str → List (Typed DNSKEY) → Prop
  | anchor (zone : Str) (records : List RR) :
      Signed lib records zone typeDNSKEY (matchDS lib (dnskeys records zone) (anchorsOf anchors zone)) now →
      Chained anchors now zone (dnskeys records zone)
  | delegation (zone parent : Str) (parentKeys : List (Typed DNSKEY)) (dsAnswer dsNs records : List RR) :
      Chained anchors now parent parentKeys → Signed lib (dsAnswer ++ dsNs) zone typeDS parentKeys now →
      Signed lib records zone typeDNSKEY (matchDS lib (dnskeys records zone) (dsRecords dsAnswer zone)) now →
      Chained anchors now zone (dnskeys records zone)

/-- The RRset of `rr` in the response is signed by a chained key. -/
def Covered (anchors : Map Str (List (Typed DS))) (now : ℕ) (response : Msg) (rr : RR) : Prop :=
  ∃ zone keys, Chained lib anchors now zone keys ∧
    Signed lib (response.answer ++ response.ns) rr.name rr.rrtype keys now

end

/-- What unpacking a message guarantees: every owner name is fully qualified. -/
def Unpacked (m : Msg) : Prop := ∀ rr ∈ m.sections, isFqdn rr.name = true

instance (m : Msg) : Decidable (Unpacked m) := by unfold Unpacked; infer_instance

theorem Unpacked.answer_ns {m : Msg} (h : Unpacked m) {rr : RR} (hrr : rr ∈ m.answer ++ m.ns) :
    isFqdn rr.name = true :=
  h rr (List.mem_append_left _ hrr)

/-! ### One RRset -/

section Sets

variable {lib : Miekg} {records : List RR} {keys : List (Typed DNSKEY)} {now : ℕ}

theorem rrset_congr {a b : Str} (h : lower a = lower b) (kind : UInt16) :
    rrset records a kind = rrset records b kind := by
  simp only [rrset, equalFold, h]

theorem signatures_congr {a b : Str} (h : lower a = lower b) (kind : UInt16) :
    signatures records a kind = signatures records b kind := by
  simp only [signatures, equalFold, h]

theorem signed_congr {a b : Str} (h : lower a = lower b) (kind : UInt16) :
    Signed lib records a kind keys now ↔ Signed lib records b kind keys now := by
  unfold Signed
  rw [rrset_congr h, signatures_congr h]

theorem verifyRRSet_ok_iff {name : Str} {kind : UInt16} :
    verifyRRSet lib records name kind keys now = .ok () ↔ Signed lib records name kind keys now := by
  unfold verifyRRSet Signed
  simp only [List.any_eq_true, Bool.and_eq_true]
  split
  · rename_i h; simpa using h
  · rename_i h; simpa using h

theorem verifySet_ok_iff {rr : RR} {set : List RR} :
    verifySet lib records keys now (rr :: set) = .ok () ↔
      Signed lib records rr.name rr.rrtype keys now :=
  verifyRRSet_ok_iff

/-- The key of a group determines the type and, for fully qualified owners, the owner up to case. -/
theorem rrsetKey_inj {a b : RR} (ha : isFqdn a.name = true) (hb : isFqdn b.name = true)
    (h : rrsetKey a = rrsetKey b) : lower a.name = lower b.name ∧ a.rrtype = b.rrtype := by
  have hd : ∀ n : ℕ, '/' ∉ decimal n := notMem_decimal (by decide)
  obtain ⟨h1, h2⟩ := append_sep_inj (hd _) (hd _) h
  refine ⟨?_, UInt16.toNat_inj.1 (decimal_inj h2)⟩
  simpa [canonicalName, fqdn, ha, hb] using h1

/-! ### The groups of a message -/

/-- The grouping loop, started from groups already made. -/
theorem lookup_foldl_groups (k : Str) : ∀ (l : List RR) (sets : Map Str (List RR)),
    ((l.foldl (fun sets rr => sets.insert (rrsetKey rr) ((sets.lookup (rrsetKey rr)).getD [] ++ [rr]))
      sets).lookup k).getD [] = (sets.lookup k).getD [] ++ l.filter (fun rr => rrsetKey rr = k) := by
  intro l
  induction l with
  | nil => intro sets; simp
  | cons rr l ih =>
    intro sets
    rw [List.foldl_cons, ih]
    by_cases hk : rrsetKey rr = k
    · subst hk
      simp
    · rw [AList.lookup_insert_ne (Ne.symm hk), List.filter_cons_of_neg (by simpa using hk)]

theorem lookup_rrsets (k : Str) :
    ((rrsets records).lookup k).getD [] =
      (records.filter (fun rr => !unchecked rr.rrtype)).filter (fun rr => rrsetKey rr = k) := by
  unfold rrsets
  rw [lookup_foldl_groups]
  simp

/-- Every record that is checked lies in a group, whose first record has the same key and is one of `records`. -/
theorem exists_group {rr : RR} (hrr : rr ∈ records) (hc : unchecked rr.rrtype = false) :
    ∃ first rest, (rrsets records).lookup (rrsetKey rr) = some (first :: rest) ∧
      rrsetKey first = rrsetKey rr ∧ first ∈ records := by
  have h : ((rrsets records).lookup (rrsetKey rr)).getD [] = _ := lookup_rrsets (rrsetKey rr)
  have hmem : rr ∈ (records.filter (fun rr => !unchecked rr.rrtype)).filter
      (fun r => rrsetKey r = rrsetKey rr) := by
    simp [hrr, hc]
  rw [← h] at hmem
  cases hl : (rrsets records).lookup (rrsetKey rr) with
  | none => rw [hl] at hmem; simp at hmem
  | some set =>
    rw [hl, Option.getD_some] at h hmem
    cases set with
    | nil => simp at hmem
    | cons first rest =>
      have hf : first ∈ (records.filter (fun rr => !unchecked rr.rrtype)).filter
          (fun r => rrsetKey r = rrsetKey rr) := by rw [← h]; simp
      simp only [List.mem_filter, decide_eq_true_eq] at hf
      exact ⟨first, rest, rfl, hf.2, hf.1.1⟩

end Sets

/-! ### One message -/

section Message

variable {lib : Miekg} {q response : Msg} {keys : List (Typed DNSKEY)} {now : ℕ}

/-- When `validateMessage` accepts, no group failed and the denial was proved where it is asked for. -/
theorem validateMessage_ok (h : validateMessage lib q response keys now = .ok ()) :
    (∀ e ∈ (rrsets (response.answer ++ response.ns)).entries,
      verifySet lib (response.answer ++ response.ns) keys now e.2 = .ok ()) ∧
    (response.rcode = rcodeNameError ∨ (response.rcode = rcodeSuccess ∧ response.answer = []) →
      validateDenial lib q.question0 response = .ok ()) := by
  unfold validateMessage at h
  simp only at h
  split at h
  · cases h
  · rename_i hnone
    refine ⟨fun e he => ?_, fun hneg => ?_⟩
    · have := List.findSome?_eq_none_iff.1 hnone e he
      split at this
      · rename_i heq; exact heq
      · cases this
    · rw [if_pos (by simpa [List.isEmpty_iff] using hneg)] at h
      exact h

/-- **Every checked record is signed**, whichever of its group the loop looked at. -/
theorem validateMessage_signed (hu : Unpacked response)
    (h : validateMessage lib q response keys now = .ok ()) {rr : RR}
    (hrr : rr ∈ response.answer ++ response.ns) (hc : unchecked rr.rrtype = false) :
    Signed lib (response.answer ++ response.ns) rr.name rr.rrtype keys now := by
  obtain ⟨first, rest, hl, hkey, hfirst⟩ := exists_group hrr hc
  have hset := (validateMessage_ok h).1 ⟨_, _⟩ (AList.mem_lookup_iff.1 hl)
  rw [verifySet_ok_iff] at hset
  obtain ⟨hname, htype⟩ := rrsetKey_inj (hu.answer_ns hfirst) (hu.answer_ns hrr) hkey
  rwa [htype, signed_congr hname] at hset

theorem mem_dsRecords {records : List RR} {zone : Str} (h : dsRecords records zone ≠ []) :
    ∃ rr ∈ records, rr.rrtype = typeDS ∧ lower rr.name = lower zone := by
  obtain ⟨ds, hds⟩ := List.exists_mem_of_ne_nil _ h
  simp only [dsRecords, List.mem_filter, List.mem_filterMap] at hds
  obtain ⟨⟨rr, hrr, hd⟩, hz⟩ := hds
  refine ⟨rr, hrr, ?_⟩
  obtain ⟨hdr, data⟩ := rr
  cases data with
  | ds d =>
    simp only [RR.ds?, Option.some.injEq] at hd
    subst hd
    exact ⟨rfl, equalFold_iff.1 hz⟩
  | _ => simp [RR.ds?] at hd

/-- A validated DS answer that holds DS records of the zone has them signed. -/
theorem validateMessage_signed_ds (hu : Unpacked response)
    (h : validateMessage lib q response keys now = .ok ()) {zone : Str}
    (hds : dsRecords response.answer zone ≠ []) :
    Signed lib (response.answer ++ response.ns) zone typeDS keys now := by
  obtain ⟨rr, hrr, ht, hn⟩ := mem_dsRecords hds
  have hs := validateMessage_signed hu h (List.mem_append_left _ hrr) (by rw [ht]; decide)
  rwa [ht, signed_congr hn] at hs

end Message

/-! ### The walk -/

section Walk

variable {lib : Miekg} {anchors : Map Str (List (Typed DS))} {now : ℕ} {τ : Type} {exchange : Exchange τ}

/-- Every answer of the exchange is a message that was unpacked. -/
def Unpacks (exchange : Exchange τ) : Prop := ∀ q s m, (exchange q s).1 = .ok m → Unpacked m

theorem checkKeys_some {keyResponse : Msg} {zone : Str} {ds : List (Typed DS)} {keys : List (Typed DNSKEY)}
    (h : checkKeys lib now keyResponse zone ds = .ok (some keys)) :
    keys = dnskeys keyResponse.answer zone ∧
      Signed lib keyResponse.answer zone typeDNSKEY (matchDS lib (dnskeys keyResponse.answer zone) ds) now := by
  unfold checkKeys at h
  simp only at h
  split at h
  · cases h
  · split at h
    · cases h
    · rename_i hv
      simp only [Except.ok.injEq, Option.some.injEq] at h
      exact ⟨h.symm, verifyRRSet_ok_iff.1 hv⟩

theorem checkKeys_ne_none {keyResponse : Msg} {zone : Str} {ds : List (Typed DS)} :
    checkKeys lib now keyResponse zone ds ≠ .ok none := by
  unfold checkKeys
  simp only
  split
  · simp
  · split <;> simp

/-- The first question of a level: a zone not yet visited answers with keys. -/
structure Asked (exchange : Exchange τ) (visiting : List Str) (zone : Str) (s : τ) (kr : Msg) (s₁ : τ) : Prop where
  fresh : visiting.contains zone = false
  keys : exchange (question zone typeDNSKEY) s = (.ok kr, s₁)
  nonempty : dnskeys kr.answer zone ≠ []

/-- The second question, asked of a zone without an anchor. -/
structure AskedDS (anchors : Map Str (List (Typed DS))) (exchange : Exchange τ) (zone : Str) (s₁ : τ) (dr : Msg)
    (s₂ : τ) : Prop where
  unanchored : anchorsOf anchors zone = []
  ds : exchange (question zone typeDS) s₁ = (.ok dr, s₂)

/-- A DS answer that names no signer above the zone: unsigned, or signed by the zone itself. -/
def NoParent (zone : Str) (dr : Msg) : Prop :=
  responseSigner dr = [] ∨ equalFold (responseSigner dr) zone = true

instance (zone : Str) (dr : Msg) : Decidable (NoParent zone dr) := by unfold NoParent; infer_instance

theorem noParent_iff {zone : Str} {dr : Msg} :
    (responseSigner dr == [] || equalFold (responseSigner dr) zone) = true ↔ NoParent zone dr := by
  simp [NoParent]

/-- **The walk, level by level**: `Walks walk visiting name s r` says that a walk from `name` in state `s` ends with
the answer `r`, and how. -/
inductive Walks (lib : Miekg) (anchors : Map Str (List (Typed DS))) (now : ℕ) (exchange : Exchange τ) :
    ℕ → List Str → Str → τ → Option (List (Typed DNSKEY)) → Prop
  | anchored {walk visiting name s kr s₁ r} (asked : Asked exchange visiting (canonicalName name) s kr s₁)
      (anchor : anchorsOf anchors (canonicalName name) ≠ [])
      (check : checkKeys lib now kr (canonicalName name) (anchorsOf anchors (canonicalName name)) = .ok r) :
      Walks lib anchors now exchange (walk + 1) visiting name s r
  | noParent {walk visiting name s kr s₁ dr s₂} (asked : Asked exchange visiting (canonicalName name) s kr s₁)
      (ds : AskedDS anchors exchange (canonicalName name) s₁ dr s₂) (np : NoParent (canonicalName name) dr) :
      Walks lib anchors now exchange (walk + 1) visiting name s none
  | insecure {walk visiting name s kr s₁ dr s₂} (asked : Asked exchange visiting (canonicalName name) s kr s₁)
      (ds : AskedDS anchors exchange (canonicalName name) s₁ dr s₂) (np : ¬ NoParent (canonicalName name) dr)
      (up : Walks lib anchors now exchange walk (canonicalName name :: visiting) (responseSigner dr) s₂ none) :
      Walks lib anchors now exchange (walk + 1) visiting name s none
  | noDS {walk visiting name s kr s₁ dr s₂ pk} (asked : Asked exchange visiting (canonicalName name) s kr s₁)
      (ds : AskedDS anchors exchange (canonicalName name) s₁ dr s₂) (np : ¬ NoParent (canonicalName name) dr)
      (up : Walks lib anchors now exchange walk (canonicalName name :: visiting) (responseSigner dr) s₂ (some pk))
      (valid : validateMessage lib (question (canonicalName name) typeDS) dr pk now = .ok ())
      (absent : dsRecords dr.answer (canonicalName name) = []) :
      Walks lib anchors now exchange (walk + 1) visiting name s none
  | delegated {walk visiting name s kr s₁ dr s₂ pk r} (asked : Asked exchange visiting (canonicalName name) s kr s₁)
      (ds : AskedDS anchors exchange (canonicalName name) s₁ dr s₂) (np : ¬ NoParent (canonicalName name) dr)
      (up : Walks lib anchors now exchange walk (canonicalName name :: visiting) (responseSigner dr) s₂ (some pk))
      (valid : validateMessage lib (question (canonicalName name) typeDS) dr pk now = .ok ())
      (present : dsRecords dr.answer (canonicalName name) ≠ [])
      (check : checkKeys lib now kr (canonicalName name) (dsRecords dr.answer (canonicalName name)) = .ok r) :
      Walks lib anchors now exchange (walk + 1) visiting name s r

theorem walks_of_validatedKeys : ∀ {walk : ℕ} {visiting : List Str} {name : Str} {s : τ}
    {r : Option (List (Typed DNSKEY))},
    (validatedKeys lib anchors now exchange walk visiting name s).1 = .ok r →
      Walks lib anchors now exchange walk visiting name s r := by
  intro walk
  induction walk with
  | zero => intro visiting name s r h; simp [validatedKeys] at h
  | succ walk ih =>
    intro visiting name s r h
    rw [validatedKeys] at h
    simp only at h
    split at h
    · cases h
    rename_i hfresh
    split at h
    · cases h
    rename_i kr s₁ hkr
    split at h
    · cases h
    rename_i hkeys
    have asked : Asked exchange visiting (canonicalName name) s kr s₁ :=
      ⟨by simpa using hfresh, hkr, by simpa using hkeys⟩
    split at h
    · rename_i hanchor
      exact .anchored asked (by simpa using hanchor) h
    rename_i hanchor
    split at h
    · cases h
    rename_i dr s₂ hdr
    have ds : AskedDS anchors exchange (canonicalName name) s₁ dr s₂ := ⟨by simpa using hanchor, hdr⟩
    split at h
    · rename_i hnp
      simp only [Except.ok.injEq] at h
      subst h
      exact .noParent asked ds (noParent_iff.1 hnp)
    rename_i hnp
    have np : ¬ NoParent (canonicalName name) dr := fun h => hnp (noParent_iff.2 h)
    split at h
    · cases h
    · -- the parent is insecure
      rename_i s₃ hup
      simp only [Except.ok.injEq] at h
      subst h
      exact .insecure asked ds np (ih (by rw [hup]))
    · rename_i pk s₃ hup
      have up := ih (r := some pk) (by rw [hup])
      split at h
      · cases h
      rename_i hvalid
      split at h
      · rename_i hnone
        simp only [Except.ok.injEq] at h
        subst h
        exact .noDS asked ds np up hvalid (by simpa using hnone)
      · rename_i hsome
        exact .delegated asked ds np up hvalid (by simpa using hsome) h

/-- The opening of a level, once its first two questions are answered and the DS answer names a parent. -/
theorem validatedKeys_up {walk : ℕ} {visiting : List Str} {name : Str} {s : τ} {kr : Msg} {s₁ : τ} {dr : Msg} {s₂ : τ}
    (asked : Asked exchange visiting (canonicalName name) s kr s₁)
    (ds : AskedDS anchors exchange (canonicalName name) s₁ dr s₂) (np : ¬ NoParent (canonicalName name) dr) :
    validatedKeys lib anchors now exchange (walk + 1) visiting name s =
      match validatedKeys lib anchors now exchange walk (canonicalName name :: visiting) (responseSigner dr) s₂ with
      | (.error e, s) => (.error e, s)
      | (.ok none, s) => (.ok none, s)
      | (.ok (some parentKeys), s) =>
        match validateMessage lib (question (canonicalName name) typeDS) dr parentKeys now with
        | .error e => (.error (.validateDS (canonicalName name) e), s)
        | .ok _ =>
          if (dsRecords dr.answer (canonicalName name)).isEmpty then (.ok none, s)
          else (checkKeys lib now kr (canonicalName name) (dsRecords dr.answer (canonicalName name)), s) := by
  rw [validatedKeys]
  simp only [asked.fresh, asked.keys, List.isEmpty_iff, asked.nonempty, ds.unanchored, ds.ds, noParent_iff, np]
  -- none of the four early returns is taken
  exact (if_neg Bool.false_ne_true).trans ((if_neg id).trans ((if_neg (by simp)).trans (if_neg id)))

/-- **The walk is `validatedKeys`.** -/
theorem validatedKeys_iff {walk : ℕ} {visiting : List Str} {name : Str} {s : τ}
    {r : Option (List (Typed DNSKEY))} :
    (validatedKeys lib anchors now exchange walk visiting name s).1 = .ok r ↔
      Walks lib anchors now exchange walk visiting name s r := by
  refine ⟨walks_of_validatedKeys, fun h => ?_⟩
  induction h with
  | anchored asked anchor check =>
    rw [validatedKeys]
    simp only [asked.fresh, asked.keys]
    simp [asked.nonempty, anchor, check]
  | noParent asked ds np =>
    rw [validatedKeys]
    simp only [asked.fresh, asked.keys, List.isEmpty_iff, asked.nonempty, ds.unanchored, ds.ds, noParent_iff, np]
    simp
  | insecure asked ds np up ih =>
    rw [validatedKeys_up asked ds np]
    split <;> simp_all
  | noDS asked ds np up valid absent ih =>
    rw [validatedKeys_up asked ds np]
    split <;> simp_all
  | delegated asked ds np up valid present check ih =>
    rw [validatedKeys_up asked ds np]
    split <;> simp_all

/-- **The keys of a secure zone are chained.** -/
theorem Walks.chained (hu : Unpacks exchange) {walk : ℕ} {visiting : List Str} {name : Str} {s : τ}
    {r : Option (List (Typed DNSKEY))} (h : Walks lib anchors now exchange walk visiting name s r) :
    ∀ keys, r = some keys → Chained lib anchors now (canonicalName name) keys := by
  induction h with
  | anchored asked anchor check =>
    rintro keys rfl
    obtain ⟨rfl, hs⟩ := checkKeys_some check
    exact .anchor _ _ hs
  | noParent => rintro keys ⟨⟩
  | insecure => rintro keys ⟨⟩
  | noDS => rintro keys ⟨⟩
  | delegated asked ds np up valid present check ih =>
    rintro keys rfl
    obtain ⟨rfl, hs⟩ := checkKeys_some check
    have hdr : Unpacked _ := hu _ _ _ (congrArg Prod.fst ds.ds)
    exact .delegation _ _ _ _ _ _ (ih _ rfl) (validateMessage_signed_ds hdr valid present) hs

/-- What `Validate` did on a response it calls secure. -/
theorem validate_secure {walk : ℕ} {q response : Msg} {s : τ}
    (h : (validate lib anchors now exchange walk q response s).1 = .ok .secure) :
    ∃ keys, Walks lib anchors now exchange walk [] (responseSigner response) s (some keys) ∧
      validateMessage lib q response keys now = .ok () := by
  unfold validate at h
  simp only at h
  split at h
  · cases h
  split at h
  · cases h
  split at h
  · cases h
  · cases h
  · rename_i keys s₁ hk
    split at h
    · cases h
    · rename_i hv
      exact ⟨keys, walks_of_validatedKeys (by rw [hk]), hv⟩

end Walk

/-! ### The answer of a secure response -/

section Answer

variable {lib : Miekg} {anchors : Map Str (List (Typed DS))} {now : ℕ} {τ : Type} {exchange : Exchange τ}
  {walk : ℕ} {q response : Msg} {s : τ}

/-- Records of the types that `validateMessage` checks are covered, in the answer and in the authority section. -/
theorem validate_covered (hr : Unpacked response) (hu : Unpacks exchange)
    (h : (validate lib anchors now exchange walk q response s).1 = .ok .secure) {rr : RR}
    (hrr : rr ∈ response.answer ++ response.ns) (hc : unchecked rr.rrtype = false) :
    Covered lib anchors now response rr := by
  obtain ⟨keys, hw, hv⟩ := validate_secure h
  exact ⟨_, keys, hw.chained hu keys rfl, validateMessage_signed hr hv hrr hc⟩

/-- **Positive soundness, and where it stops.** On a response that `Validate` calls secure, every record of the
answer other than RRSIG and OPT is covered by a chained signature if and only if the NS records of the answer are:
`validateMessage` leaves out the NS type in both sections. -/
theorem answer_covered_iff (hr : Unpacked response) (hu : Unpacks exchange)
    (h : (validate lib anchors now exchange walk q response s).1 = .ok .secure) :
    (∀ rr ∈ response.answer, rr.rrtype ≠ typeRRSIG → rr.rrtype ≠ typeOPT →
      Covered lib anchors now response rr) ↔
    (∀ rr ∈ response.answer, rr.rrtype = typeNS → Covered lib anchors now response rr) := by
  constructor
  · intro hall rr hrr hns
    exact hall rr hrr (by rw [hns]; decide) (by rw [hns]; decide)
  · intro hns rr hrr h1 h2
    by_cases h3 : rr.rrtype = typeNS
    · exact hns rr hrr h3
    · exact validate_covered hr hu h (List.mem_append_left _ hrr) (by simp [unchecked, h1, h2, h3])

end Answer

/-! ### A signed zone

The zone `example.` with one key, which is the anchor, and one signed address. Only the listed signatures verify, as
with a signature scheme nobody can forge. -/

namespace Sample

def hdr (name : String) : Header := ⟨name.toList, classINET, 300⟩
def key : Typed DNSKEY := ⟨hdr "example.", ⟨257, 3, 13, "key".toList⟩⟩
def keyRR : RR := ⟨key.hdr, .dnskey key.rd⟩
def address : RR := ⟨hdr "www.example.", .a [192, 0, 2, 1]⟩

/-- The signature of the zone over the RRset of `name` and `kind`. -/
def sig (name : String) (kind : UInt16) (labels : UInt8) : Typed RRSIG :=
  ⟨hdr name, ⟨kind, 13, labels, 300, 2000, 1000, 7, "example.".toList, "signature".toList⟩⟩

def sigRR (s : Typed RRSIG) : RR := ⟨s.hdr, .rrsig s.rd⟩

def lib : Miekg :=
  .ideal [(sig "example." typeDNSKEY 1, key, [keyRR]), (sig "www.example." typeA 2, key, [address])]

def anchors : Map Str (List (Typed DS)) :=
  (∅ : Map Str (List (Typed DS))).insert "example.".toList [⟨hdr "example.", ⟨7, 13, 2, "key".toList⟩⟩]

def now : ℕ := 1500 * 1000000000

def keyMsg : Msg := { response := true, answer := [keyRR, sigRR (sig "example." typeDNSKEY 1)] }

/-- An upstream that serves the keys of the zone. -/
def exchange : Exchange Unit := fun q s =>
  if q.question0.qtype = typeDNSKEY then (.ok keyMsg, s) else (.error (.transport "i/o timeout"), s)

theorem unpacks_exchange : Unpacks exchange := by
  intro q s m h
  unfold exchange at h
  split at h
  · simp only [Except.ok.injEq] at h
    subst h
    decide
  · cases h

def query (name : String) (kind : UInt16) : Msg := setQuestion 7 name.toList kind

def signedAnswer : Msg :=
  { response := true, question := [⟨"www.example.".toList, typeA, classINET⟩]
    answer := [address, sigRR (sig "www.example." typeA 2)] }

/-- An NS answer for the zone with a forged name server and a signature over something else. -/
def forgedNS : Msg :=
  { response := true, question := [⟨"example.".toList, typeNS, classINET⟩]
    answer := [⟨hdr "example.", .ns "ns.attacker.".toList⟩, sigRR (sig "www.example." typeA 2)] }

end Sample

open Sample in
theorem signedAnswer_covered :
    (validate Sample.lib Sample.anchors Sample.now Sample.exchange 5 (query "www.example." typeA) signedAnswer ()).1 =
        .ok .secure ∧
      Covered Sample.lib Sample.anchors Sample.now signedAnswer address := by
  have hsecure : (validate Sample.lib Sample.anchors Sample.now Sample.exchange 5 (query "www.example." typeA)
      signedAnswer ()).1 = .ok .secure := by decide
  have hns : ∀ rr ∈ signedAnswer.answer, rr.rrtype ≠ typeNS := by decide
  refine ⟨hsecure, (answer_covered_iff (by decide) unpacks_exchange hsecure).2 ?_ address List.mem_cons_self (by decide)
    (by decide)⟩
  intro rr hrr h
  exact absurd h (hns rr hrr)

open Sample in
/-- The forged NS record is accepted as secure, and nothing covers it. -/
theorem forgedNS_secure_uncovered :
    (validate Sample.lib Sample.anchors Sample.now Sample.exchange 5 (query "example." typeNS) forgedNS ()).1 =
        .ok .secure ∧
      ∃ rr ∈ forgedNS.answer, rr.rrtype ≠ typeRRSIG ∧ rr.rrtype ≠ typeOPT ∧
        ¬ Covered Sample.lib Sample.anchors Sample.now forgedNS rr := by
  refine ⟨by decide, _, List.mem_cons_self .., by decide, by decide, ?_⟩
  rintro ⟨zone, keys, -, sg, hsg, -⟩
  have : signatures (forgedNS.answer ++ forgedNS.ns) "example.".toList typeNS = [] := by decide
  simp only [show (⟨hdr "example.", RData.ns "ns.attacker.".toList⟩ : RR).name = "example.".toList from rfl,
    show (⟨hdr "example.", RData.ns "ns.attacker.".toList⟩ : RR).rrtype = typeNS from rfl] at hsg
  rw [this] at hsg
  cases hsg

end Velora.Dns
