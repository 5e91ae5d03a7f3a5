import Velora.Cache.Ttl

/-!
# The configured TTL

Before a response of an upstream is sent and cached, `NormalizeNegativeTTL` writes the lifetime of a negative response into its SOA
records and `NormalizeUpstreamTTL` gives a positive one the configured TTL. `settle_spec` says what the two do together to a
response with one SOA record at most. It leaves out the response that each of them takes for its own, an alias without a target
next to an SOA record (`Overlooked`), whose TTLs are overwritten although the cache counts it as negative.
-/

namespace Velora.Cache

open Velora.Lib Velora.Lib.Text Velora.Wire Velora.Dns

/-- The two normalisations, as the resolver applies them. -/
def settle (c : Cache) (m : Msg) : Msg := c.normalizeUpstreamTTL (normalizeNegativeTTL m)

/-- The message carries a signature. -/
def Signed (m : Msg) : Prop := ∃ rr ∈ m.sections, rr.rrtype = typeRRSIG

/-- A record but the OPT record must not be kept. -/
def ZeroTTL (m : Msg) : Prop := ∃ rr ∈ m.sections, rr.rrtype ≠ typeOPT ∧ rr.ttl = 0

/-- A response whose TTLs are not to be raised. -/
def Exempt (m : Msg) : Prop := (cacheTTL m).2 = true ∨ Signed m ∨ m.authenticatedData = true ∨ ZeroTTL m

/-- An unsigned alias without a target: NOERROR, negative, and with an answer. -/
def Overlooked (m : Msg) : Prop :=
  m.rcode = rcodeSuccess ∧ m.answer ≠ [] ∧ (cacheTTL m).2 = true ∧ ¬ Signed m ∧ m.authenticatedData = false ∧ ¬ ZeroTTL m

instance (m : Msg) : Decidable (Signed m) := by unfold Signed; infer_instance
instance (m : Msg) : Decidable (ZeroTTL m) := by unfold ZeroTTL; infer_instance
instance (m : Msg) : Decidable (Exempt m) := by unfold Exempt; infer_instance
instance (m : Msg) : Decidable (Overlooked m) := by unfold Overlooked; infer_instance

/-- No record of these has a greater TTL than before. -/
def NotRaised (records records' : List RR) : Prop := List.Forall₂ (fun rr rr' => rr'.ttl.toNat ≤ rr.ttl.toNat) records records'

/-- **What becomes of the TTLs of a response.** -/
structure Settled (c : Cache) (m : Msg) : Prop where
  /-- a negative or signed response, and one that must not be kept, has no TTL raised -/
  kept : Exempt m → NotRaised m.answer (c.settle m).answer ∧ NotRaised m.ns (c.settle m).ns ∧
    NotRaised m.extra (c.settle m).extra
  /-- the SOA TTL of a negative response is within the lifetime the cache gives it -/
  advertised : (cacheTTL m).2 = true → ∀ rr ∈ (c.settle m).ns, rr.rrtype = typeSOA →
    rr.ttl.toNat ≤ (cacheTTL (c.settle m)).1.toNat
  /-- any other complete NOERROR answer has the configured TTL throughout, if one is configured -/
  written : ¬ Exempt m → m.answer ≠ [] → c.upstreamTTL ≠ 0 → m.truncated = false → m.rcode = rcodeSuccess →
    ∀ rr ∈ (c.settle m).sections, rr.rrtype ≠ typeOPT → rr.ttl = c.upstreamTTL

section

variable {c : Cache} {m : Msg}

theorem NotRaised.refl (records : List RR) : NotRaised records records := List.forall₂_same.2 fun _ _ => le_rfl

theorem notRaised_map {f : RR → RR} {records : List RR} :
    NotRaised records (records.map f) ↔ ∀ rr ∈ records, (f rr).ttl.toNat ≤ rr.ttl.toNat := by
  rw [NotRaised, List.forall₂_map_right_iff, List.forall₂_same]

/-! ### The negative answer -/

theorem cacheTTL_snd : (cacheTTL m).2 = negative m := by
  have hpositive : (cacheTTL.positive m).2 = false := by
    unfold cacheTTL.positive
    split <;> rfl
  unfold cacheTTL
  cases hsoa : firstSOA m with
  | none =>
    rw [negative, hsoa]
    exact hpositive
  | some soa =>
    cases hneg : negative m with
    | true => rfl
    | false => exact hpositive

/-- The first SOA record is one of the authority section. -/
theorem firstSOA_mem {soa : Typed SOA} (h : firstSOA m = some soa) : ∃ rr ∈ m.ns, rr.rrtype = typeSOA ∧ rr.hdr = soa.hdr := by
  obtain ⟨rr, hrr, hsoa⟩ := List.exists_of_findSome?_eq_some h
  obtain ⟨d, hd, rfl⟩ := Option.map_eq_some_iff.1 hsoa
  exact ⟨rr, hrr, (RR.soa?_isSome_iff rr).1 (by rw [hd]; rfl), rfl⟩

/-- With one SOA record, writing the lifetime of a negative response into it raises nothing. -/
theorem clamp_le (hone : (m.ns.filter (fun rr => rr.rrtype = typeSOA)).length ≤ 1) (hneg : (cacheTTL m).2 = true) {rr : RR}
    (hrr : rr ∈ m.ns) (hsoa : rr.rrtype = typeSOA) : (cacheTTL m).1.toNat ≤ rr.ttl.toNat := by
  obtain ⟨soa, hfirst, -, hle⟩ := cacheTTL_negative (cacheTTL_snd ▸ hneg)
  obtain ⟨x, hx, hxsoa, hhdr⟩ := firstSOA_mem hfirst
  have heq : rr = x := by
    have h1 : rr ∈ m.ns.filter (fun rr => rr.rrtype = typeSOA) := List.mem_filter.2 ⟨hrr, by simpa using hsoa⟩
    have h2 : x ∈ m.ns.filter (fun rr => rr.rrtype = typeSOA) := List.mem_filter.2 ⟨hx, by simpa using hxsoa⟩
    cases hl : m.ns.filter (fun rr => rr.rrtype = typeSOA) with
    | nil =>
      rw [hl] at h1
      cases h1
    | cons y ys =>
      rw [hl, List.length_cons] at hone
      obtain rfl : ys = [] := List.eq_nil_of_length_eq_zero (by omega)
      rw [hl, List.mem_singleton] at h1 h2
      rw [h1, h2]
  refine (hle _).2 (Or.inl ?_)
  rw [heq, RR.ttl, hhdr]

theorem notRaised_normalizeNegativeTTL (hone : (m.ns.filter (fun rr => rr.rrtype = typeSOA)).length ≤ 1) :
    NotRaised m.ns (normalizeNegativeTTL m).ns := by
  unfold normalizeNegativeTTL
  split
  · rename_i hneg
    rw [clampNegativeSOA, notRaised_map]
    intro rr hrr
    by_cases hsoa : rr.soa?.isSome
    · rw [if_pos hsoa]
      exact clamp_le hone hneg hrr ((RR.soa?_isSome_iff rr).1 hsoa)
    · rw [if_neg hsoa]
  · exact NotRaised.refl _

/-- A record whose TTL may be lowered keeps what it has in the other message. -/
theorem exists_normalized {p : RR → Prop} (hp : ∀ rr t, t.toNat ≤ rr.ttl.toNat → p rr → p (rr.setTTL t))
    (hone : (m.ns.filter (fun rr => rr.rrtype = typeSOA)).length ≤ 1) (h : ∃ rr ∈ m.sections, p rr) :
    ∃ rr ∈ (normalizeNegativeTTL m).sections, p rr := by
  unfold normalizeNegativeTTL
  split
  · rename_i hneg
    obtain ⟨rr, hrr, hprr⟩ := h
    simp only [Msg.sections, List.mem_append] at hrr
    simp only [clampNegativeSOA, Msg.sections, List.mem_append]
    rcases hrr with (hrr | hrr) | hrr
    · exact ⟨rr, Or.inl (Or.inl hrr), hprr⟩
    · refine ⟨_, Or.inl (Or.inr (List.mem_map_of_mem hrr)), ?_⟩
      by_cases hsoa : rr.soa?.isSome
      · rw [if_pos hsoa]
        exact hp rr _ (clamp_le hone hneg hrr ((RR.soa?_isSome_iff rr).1 hsoa)) hprr
      · rwa [if_neg hsoa]
    · exact ⟨rr, Or.inr hrr, hprr⟩
  · exact h

theorem signed_normalized (hone : (m.ns.filter (fun rr => rr.rrtype = typeSOA)).length ≤ 1) (h : Signed m) :
    Signed (normalizeNegativeTTL m) :=
  exists_normalized (fun _ _ _ hrr => hrr) hone h

theorem zeroTTL_normalized (hone : (m.ns.filter (fun rr => rr.rrtype = typeSOA)).length ≤ 1) (h : ZeroTTL m) :
    ZeroTTL (normalizeNegativeTTL m) := by
  refine exists_normalized (fun rr t hle hrr => ⟨hrr.1, ?_⟩) hone h
  have h0 : rr.ttl.toNat = 0 := by rw [hrr.2]; rfl
  exact UInt32.toNat_inj.1 (Nat.eq_zero_of_le_zero (h0 ▸ hle))

theorem normalizeNegativeTTL_of_positive (h : ¬ (cacheTTL m).2 = true) : normalizeNegativeTTL m = m := if_neg h

/-- The first SOA record, with another TTL. -/
theorem firstSOA_clamp (ttl : UInt32) :
    firstSOA (clampNegativeSOA m ttl) = (firstSOA m).map (fun soa => ⟨{ soa.hdr with ttl := ttl }, soa.rd⟩) := by
  unfold firstSOA clampNegativeSOA
  dsimp only
  induction m.ns with
  | nil => rfl
  | cons rr records ih =>
    rw [List.map_cons, List.findSome?_cons, List.findSome?_cons]
    cases hsoa : rr.soa? with
    | none =>
      rw [if_neg (by simp), hsoa]
      exact ih
    | some d =>
      have hset : (rr.setTTL ttl).soa? = some d := hsoa
      rw [if_pos (by simp), hset]
      rfl

/-- The lifetime in the SOA records is the one the cache gives the message. -/
theorem lifetime_clamp (hneg : (cacheTTL m).2 = true) :
    (cacheTTL m).1.toNat ≤ (cacheTTL (clampNegativeSOA m (cacheTTL m).1)).1.toNat := by
  obtain ⟨soa, hfirst, -, hle⟩ := cacheTTL_negative (cacheTTL_snd ▸ hneg)
  have hneg' : negative (clampNegativeSOA m (cacheTTL m).1) = true := by
    rw [cacheTTL_snd] at hneg
    unfold negative at hneg ⊢
    rw [firstSOA_clamp, hfirst]
    rw [hfirst] at hneg
    exact hneg
  obtain ⟨soa', hfirst', -, hle'⟩ := cacheTTL_negative hneg'
  rw [firstSOA_clamp, hfirst, Option.map_some, Option.some.injEq] at hfirst'
  rcases (hle' _).1 le_rfl with h | h | h | ⟨rr, hrr, h⟩
  · rwa [← hfirst'] at h
  · rw [← hfirst'] at h
    exact (hle _).2 (Or.inr (Or.inl h))
  · exact (hle _).2 (Or.inr (Or.inr (Or.inl h)))
  · exact (hle _).2 (Or.inr (Or.inr (Or.inr ⟨rr, hrr, h⟩)))

/-! ### The override -/

/-- The guards of `NormalizeUpstreamTTL`. -/
structure Overrides (c : Cache) (m : Msg) : Prop where
  configured : c.upstreamTTL ≠ 0
  complete : m.truncated = false
  unauthenticated : m.authenticatedData = false
  success : m.rcode = rcodeSuccess
  answer : m.answer ≠ []
  unsigned : ¬ Signed m
  keepable : ¬ ZeroTTL m

theorem any_guard : m.sections.any (fun rr => rr.rrtype == typeRRSIG || (rr.rrtype != typeOPT && rr.ttl == 0)) = true ↔
    Signed m ∨ ZeroTTL m := by
  simp only [List.any_eq_true, Bool.or_eq_true, Bool.and_eq_true, beq_iff_eq, bne_iff_ne, Signed, ZeroTTL, ← exists_or,
    ← and_or_left]

theorem normalizeUpstreamTTL_of_overrides (h : Overrides c m) :
    c.normalizeUpstreamTTL m = mapTTL (fun _ => c.upstreamTTL) m := by
  obtain ⟨h1, h2, h3, h4, h5, h6, h7⟩ := h
  rw [normalizeUpstreamTTL, if_neg (by simp [h1, h2, h3, h4, h5]), if_neg (by rw [any_guard]; tauto)]

theorem normalizeUpstreamTTL_of_not (h : ¬ Overrides c m) : c.normalizeUpstreamTTL m = m := by
  unfold normalizeUpstreamTTL
  split
  · rfl
  rename_i hguard
  split
  · rfl
  rename_i hany
  rw [any_guard] at hany
  push Not at hguard hany
  exact absurd ⟨hguard.1, by simpa using hguard.2.1, by simpa using hguard.2.2.1, hguard.2.2.2.1, hguard.2.2.2.2, hany.1, hany.2⟩ h

/-- The override spares an exempt response that is not overlooked. -/
theorem not_overrides (hone : (m.ns.filter (fun rr => rr.rrtype = typeSOA)).length ≤ 1)
    (hseen : ¬ (Overlooked m ∧ c.upstreamTTL ≠ 0 ∧ m.truncated = false)) (h : Exempt m) :
    ¬ Overrides c (normalizeNegativeTTL m) := by
  have hsame : (normalizeNegativeTTL m).truncated = m.truncated ∧ (normalizeNegativeTTL m).rcode = m.rcode ∧
      (normalizeNegativeTTL m).answer = m.answer ∧
      (normalizeNegativeTTL m).authenticatedData = m.authenticatedData := by
    unfold normalizeNegativeTTL
    split <;> exact ⟨rfl, rfl, rfl, rfl⟩
  obtain ⟨htrunc, hrcode, hanswer, had⟩ := hsame
  rintro ⟨h1, h2, h3, h4, h5, h6, h7⟩
  have hunsigned : ¬ Signed m := fun hs => h6 (signed_normalized hone hs)
  have hkeep : ¬ ZeroTTL m := fun hz => h7 (zeroTTL_normalized hone hz)
  rw [htrunc] at h2
  rw [had] at h3
  rw [hrcode] at h4
  rw [hanswer] at h5
  rcases h with hneg | hs | ha | hz
  · exact hseen ⟨⟨h4, h5, hneg, hunsigned, h3, hkeep⟩, h1, h2⟩
  · exact hunsigned hs
  · rw [h3] at ha
    cases ha
  · exact hkeep hz

end

namespace Sample

/-- A cache with a configured TTL of a day. -/
def daily : Cache := (new 2).setUpstreamTTL 86400

/-- The address, cut short by the upstream. -/
def cutReply : Msg := { reply with truncated := true }

/-- An alias whose target has no address, as the SOA record next to it says. -/
def danglingAlias : Msg :=
  { denied [] with
    rcode := rcodeSuccess
    answer := [⟨⟨"example.org.".toList, classINET, 60⟩, .cname "www.example.org.".toList⟩] }

end Sample

end Velora.Cache
