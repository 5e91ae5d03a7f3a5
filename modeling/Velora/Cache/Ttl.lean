import Velora.Cache.Refine

/-!
# Ageing

A stored message is returned with its TTLs lowered by the seconds since it was stored. The subtraction is one of
32-bit words; it is exact as long as the entry lives no longer than the record (`agedBy_iff`). The lifetime of a
positive message is the smallest TTL of all its records. The lifetime of a negative one is taken from its SOA record and
its answer, while the other records of the authority section and the additional section are aged too:
`ageing_exact_iff` says exactly when these live long enough, and `ageing_wraps` is a message where one does not.
-/

namespace Velora.Cache

open Velora.Lib Velora.Lib.Text Velora.Wire Velora.Dns

/-! ### Lifetimes -/

theorem lowest_le_iff (n : ℕ) (ttl : UInt32) (records : List RR) :
    (lowest ttl records).toNat ≤ n ↔ ttl.toNat ≤ n ∨ ∃ rr ∈ records, rr.ttl.toNat ≤ n := by
  unfold lowest
  induction records generalizing ttl with
  | nil => simp
  | cons rr records ih =>
    rw [List.foldl_cons, ih]
    by_cases h : rr.ttl < ttl
    · have h' := UInt32.lt_iff_toNat_lt.1 h
      rw [if_pos h]
      constructor
      · rintro (hr | ⟨x, hx, hn⟩)
        · exact Or.inr ⟨rr, List.mem_cons_self, hr⟩
        · exact Or.inr ⟨x, List.mem_cons_of_mem _ hx, hn⟩
      · rintro (hr | ⟨x, hx, hn⟩)
        · exact Or.inl (by omega)
        · rcases List.mem_cons.1 hx with rfl | hx
          · exact Or.inl hn
          · exact Or.inr ⟨x, hx, hn⟩
    · have h' : ttl.toNat ≤ rr.ttl.toNat := not_lt.1 fun hlt => h (UInt32.lt_iff_toNat_lt.2 hlt)
      rw [if_neg h]
      constructor
      · rintro (hr | ⟨x, hx, hn⟩)
        · exact Or.inl hr
        · exact Or.inr ⟨x, List.mem_cons_of_mem _ hx, hn⟩
      · rintro (hr | ⟨x, hx, hn⟩)
        · exact Or.inl hr
        · rcases List.mem_cons.1 hx with rfl | hx
          · exact Or.inl (h'.trans hn)
          · exact Or.inr ⟨x, hx, hn⟩

theorem toNat_min_le_iff (n : ℕ) (a b : UInt32) : (min a b).toNat ≤ n ↔ a.toNat ≤ n ∨ b.toNat ≤ n := by
  rw [show min a b = if a ≤ b then a else b from rfl]
  split
  · rename_i h
    have := UInt32.le_iff_toNat_le.1 h
    omega
  · rename_i h
    have : ¬ a.toNat ≤ b.toNat := fun hle => h (UInt32.le_iff_toNat_le.2 hle)
    omega

/-- The lifetime of a negative message is the smallest of the TTL and the minimum of its SOA record, one day and the
TTLs of its answer. -/
theorem cacheTTL_negative {m : Msg} (h : negative m = true) :
    ∃ soa, firstSOA m = some soa ∧ (cacheTTL m).2 = true ∧ ∀ n, (cacheTTL m).1.toNat ≤ n ↔
      soa.hdr.ttl.toNat ≤ n ∨ soa.rd.minttl.toNat ≤ n ∨ 86400 ≤ n ∨ ∃ rr ∈ m.answer, rr.ttl.toNat ≤ n := by
  have hsoa : (firstSOA m).isSome = true := by
    unfold negative at h
    rw [Bool.and_eq_true] at h
    exact h.1
  obtain ⟨soa, hs⟩ := Option.isSome_iff_exists.1 hsoa
  refine ⟨soa, hs, ?_, fun n => ?_⟩
  · simp [cacheTTL, hs, h]
  · have hmax : maxTTL.toNat = 86400 := rfl
    simp only [cacheTTL, hs, h, if_true, lowest_le_iff, toNat_min_le_iff, hmax, or_assoc]

/-- Otherwise it is at most the TTL of every record but the OPT record, or nothing is cached. -/
theorem cacheTTL_positive {m : Msg} (h : negative m = false) (h0 : (cacheTTL m).1 ≠ 0) :
    (cacheTTL m).2 = false ∧ ∀ rr ∈ m.sections, rr.rrtype ≠ typeOPT → (cacheTTL m).1.toNat ≤ rr.ttl.toNat := by
  have heq : cacheTTL m = cacheTTL.positive m := by
    unfold cacheTTL
    cases firstSOA m <;> simp [h]
  rw [heq] at h0 ⊢
  unfold cacheTTL.positive at h0 ⊢
  split
  · refine ⟨rfl, fun rr hrr hopt => ?_⟩
    refine (lowest_le_iff _ _ _).2 (Or.inr ⟨rr, ?_, le_rfl⟩)
    exact List.mem_filter.2 ⟨hrr, by simpa using hopt⟩
  · rename_i hno
    simp [hno] at h0

/-! ### The returned message -/

/-- The records are returned in their order, each with its TTL less the elapsed seconds and none below zero. -/
def Lowered (elapsed : ℕ) (stored returned : List RR) : Prop :=
  List.Forall₂ (fun s r => s.rrtype ≠ typeOPT → elapsed ≤ s.ttl.toNat ∧ r.ttl.toNat = s.ttl.toNat - elapsed)
    stored returned

/-- Every record of the three sections but the OPT record is exactly `elapsed` seconds older. -/
def AgedBy (elapsed : ℕ) (stored returned : Msg) : Prop :=
  Lowered elapsed stored.answer returned.answer ∧ Lowered elapsed stored.ns returned.ns ∧
    Lowered elapsed stored.extra returned.extra

theorem lowered_map_iff (elapsed : ℕ) (l : List RR) :
    Lowered elapsed l (l.map (fun rr => if rr.rrtype = typeOPT then rr
        else rr.setTTL (rr.ttl - UInt32.ofNat elapsed))) ↔
      ∀ rr ∈ l, rr.rrtype ≠ typeOPT → elapsed ≤ rr.ttl.toNat := by
  rw [Lowered, List.forall₂_map_right_iff, List.forall₂_same]
  refine forall₂_congr fun rr _ => imp_congr_right fun hopt => ⟨And.left, fun hle => ⟨hle, ?_⟩⟩
  have hlt : elapsed < UInt32.size := lt_of_le_of_lt hle rr.ttl.toNat_lt_size
  have hof : (UInt32.ofNat elapsed).toNat = elapsed := UInt32.toNat_ofNat_of_lt hlt
  rw [if_neg hopt, RR.setTTL_ttl, UInt32.toNat_sub_of_le _ _ (UInt32.le_iff_toNat_le.2 (hof.le.trans hle)), hof]

/-- The subtraction is exact when no record is younger than the entry. -/
theorem agedBy_iff (e : Entry) (q : Msg) (now : ℕ) :
    AgedBy ((now - e.stored) / second) e.message (aged e q now) ↔
      ∀ rr ∈ e.message.sections, rr.rrtype ≠ typeOPT → (now - e.stored) / second ≤ rr.ttl.toNat := by
  simp only [AgedBy, aged, mapTTL, Msg.mapRecords, lowered_map_iff, Msg.sections, List.mem_append, or_imp, forall_and]
  tauto

/-- Reading a live entry returns it aged. -/
theorem read_entry {c : Cache} (hc : Inv c) {e : Entry} {q : Msg} {now : ℕ} (he : e ∈ values c)
    (hk : key q = some e.key) (hlive : now < e.expires) :
    (c.get q now).2 = some (aged e q now) ∧ (c.peek q now).map Prod.fst = some (aged e q now) := by
  obtain ⟨el, hel, rfl⟩ := List.mem_map.1 he
  have hprobe : (key q).bind c.lookup = some el := by
    rw [hk]
    exact hc.lookup_iff.2 ⟨hel, rfl⟩
  have hget := (get_hit hc hprobe hlive).2.1
  exact ⟨hget, get_eq_peek c q now ▸ hget⟩

/-! ### When ageing is exact -/

/-- A negative message is not cached for more than a second longer than the record lives: the TTL or the minimum of
the SOA record, one day, or the TTL of some answer record ends it. -/
def Outlives (m : Msg) (rr : RR) : Prop :=
  ∃ soa, firstSOA m = some soa ∧ (soa.hdr.ttl.toNat ≤ rr.ttl.toNat + 1 ∨ soa.rd.minttl.toNat ≤ rr.ttl.toNat + 1 ∨
    86400 ≤ rr.ttl.toNat + 1 ∨ ∃ a ∈ m.answer, a.ttl.toNat ≤ rr.ttl.toNat + 1)

/-- In a negative message, the records its lifetime is not computed from live as long as the entry. -/
def Ageable (m : Msg) : Prop :=
  negative m = true →
    (∀ rr ∈ m.ns, rr.rrtype ≠ typeOPT → rr.rrtype ≠ typeSOA → Outlives m rr) ∧
      ∀ rr ∈ m.extra, rr.rrtype ≠ typeOPT → Outlives m rr

theorem outlives_iff {m : Msg} (h : negative m = true) (rr : RR) :
    Outlives m rr ↔ (cacheTTL m).1.toNat ≤ rr.ttl.toNat + 1 := by
  obtain ⟨soa, hs, -, hle⟩ := cacheTTL_negative h
  rw [hle, Outlives, hs]
  constructor
  · rintro ⟨x, hx, hcase⟩
    cases hx
    exact hcase
  · intro hcase
    exact ⟨soa, rfl, hcase⟩

/-- Whole seconds before the end of a lifetime. -/
theorem elapsed_le_iff (t : ℕ) {ttl n : ℕ} (hpos : 0 < ttl) :
    (∀ now, t ≤ now → now < t + ttl * second → (now - t) / second ≤ n) ↔ ttl ≤ n + 1 := by
  constructor
  · intro h
    have hstep : (ttl - 1 + 1) * second = (ttl - 1) * second + second := Nat.succ_mul _ _
    have hsecond : 0 < second := by decide
    rw [Nat.sub_add_cancel hpos] at hstep
    have hlast := h (t + (ttl - 1) * second) (by omega) (by omega)
    rw [Nat.add_sub_cancel_left, Nat.mul_div_cancel _ hsecond] at hlast
    omega
  · intro h now h1 h2
    have hlt : (now - t) / second < ttl := Nat.div_lt_of_lt_mul (by rw [Nat.mul_comm]; omega)
    omega

/-- The records that are aged, in the message as it is stored. -/
theorem stored_covered_iff {m : Msg} (h0 : (cacheTTL m).1 ≠ 0) :
    (∀ rr ∈ (normalizeNegativeTTL m).sections, rr.rrtype ≠ typeOPT → (cacheTTL m).1.toNat ≤ rr.ttl.toNat + 1) ↔
      Ageable m := by
  by_cases hneg : negative m = true
  · obtain ⟨soa, -, htrue, hle⟩ := cacheTTL_negative hneg
    have hanswer : ∀ rr ∈ m.answer, (cacheTTL m).1.toNat ≤ rr.ttl.toNat + 1 := by
      intro rr hrr
      have := (hle rr.ttl.toNat).2 (Or.inr (Or.inr (Or.inr ⟨rr, hrr, le_rfl⟩)))
      omega
    have hns : (∀ rr ∈ m.ns.map (fun rr => if rr.soa?.isSome then rr.setTTL (cacheTTL m).1 else rr),
        rr.rrtype ≠ typeOPT → (cacheTTL m).1.toNat ≤ rr.ttl.toNat + 1) ↔
          ∀ rr ∈ m.ns, rr.rrtype ≠ typeOPT → rr.rrtype ≠ typeSOA → (cacheTTL m).1.toNat ≤ rr.ttl.toNat + 1 := by
      rw [List.forall_mem_map]
      refine forall₂_congr fun rr _ => ?_
      by_cases hsoa : rr.soa?.isSome
      · -- an SOA record is stored with the lifetime itself
        have ht := (RR.soa?_isSome_iff rr).1 hsoa
        simp [hsoa, ht]
      · have ht : rr.rrtype ≠ typeSOA := fun h => hsoa ((RR.soa?_isSome_iff rr).2 h)
        simp [hsoa, ht]
    simp only [Ageable, outlives_iff hneg, hneg, forall_true_left, normalizeNegativeTTL, htrue, if_true,
      clampNegativeSOA, Msg.sections, List.mem_append, or_imp, forall_and, hns]
    constructor
    · rintro ⟨⟨-, h2⟩, h3⟩
      exact ⟨h2, h3⟩
    · rintro ⟨h2, h3⟩
      exact ⟨⟨fun rr hrr _ => hanswer rr hrr, h2⟩, h3⟩
  · have hneg' : negative m = false := by simpa using hneg
    obtain ⟨hfalse, hle⟩ := cacheTTL_positive hneg' h0
    have hself : normalizeNegativeTTL m = m := by simp [normalizeNegativeTTL, hfalse]
    rw [hself]
    refine ⟨fun _ h => absurd h hneg, fun _ rr hrr hopt => ?_⟩
    have := hle rr hrr hopt
    omega

/-- **Ageing is exact on exactly the ageable messages.** Whatever else happens to the cache, a message it stores is
read with every TTL lowered by the elapsed seconds, if the message is ageable, and only then. -/
theorem ageing_exact_iff (lib : Miekg) (max : ℤ) (q m : Msg) (t : ℕ) (e : Entry)
    (he : entryOf lib max.toNat q m t = some e) :
    (∀ ops q' now, e ∈ values (run lib (new max) ops) → key q' = some e.key → e.stored ≤ now → now < e.expires →
      ∃ r, ((run lib (new max) ops).get q' now).2 = some r ∧
        ((run lib (new max) ops).peek q' now).map Prod.fst = some r ∧
        AgedBy ((now - e.stored) / second) e.message r) ↔ Ageable m := by
  obtain ⟨-, -, h0, k, hkey, hE⟩ := entryOf_some he
  have hk : key q = some e.key := by rw [hkey, hE]
  have hmsg : e.message = normalizeNegativeTTL m := by rw [hE]
  have hexp : e.expires = e.stored + (cacheTTL m).1.toNat * second := by rw [hE]
  have hpos : 0 < (cacheTTL m).1.toNat := by
    refine Nat.pos_of_ne_zero fun h => h0 ?_
    exact UInt32.toNat_inj.1 h
  have hinv : ∀ ops, Inv (run lib (new max) ops) := fun ops => (refines_new lib max ops).inv
  rw [← stored_covered_iff h0, ← hmsg, hexp]
  constructor
  · intro h rr hrr hopt
    refine (elapsed_le_iff e.stored hpos).1 fun now hge hlt => ?_
    -- the run that only puts the message
    have hmem : e ∈ values (run lib (new max) [(t, .put q m)]) := by
      show e ∈ values ((new max).put lib q m t)
      rw [(put_some (Inv.new max) he).2]
      exact List.mem_cons_self
    obtain ⟨r, hget, -, haged⟩ := h _ q now hmem hk hge hlt
    rw [(read_entry (hinv _) hmem hk (hexp ▸ hlt)).1, Option.some.injEq] at hget
    subst hget
    exact (agedBy_iff e q now).1 haged rr hrr hopt
  · intro h ops q' now hmem hk' hge hlt
    obtain ⟨hget, hpeek⟩ := read_entry (hinv ops) hmem hk' (hexp ▸ hlt)
    refine ⟨_, hget, hpeek, (agedBy_iff e q' now).2 fun rr hrr hopt => ?_⟩
    exact (elapsed_le_iff e.stored hpos).2 (h rr hrr hopt) now hge hlt

/-! ### A denied name -/

namespace Sample

/-- A name error whose SOA record and minimum are ten minutes, with more authority records. -/
def denied (more : List RR) : Msg :=
  { setRcode (query 7) rcodeNameError with
    ns := ⟨⟨"org.".toList, classINET, 600⟩, .soa ⟨"a.org.".toList, "b.org.".toList, 1, 1, 1, 1, 600⟩⟩ :: more }

/-- The record that proves the denial, to be kept for ten seconds. -/
def proof : RR := ⟨⟨"example.org.".toList, classINET, 10⟩, .nsec ⟨"z.org.".toList, []⟩⟩

/-- What is stored of the name error with its SOA record alone. -/
def deniedEntry : Entry := ⟨(tuple (query 7)).text, denied [], 0, 600 * second⟩

end Sample

theorem ageing_exact_denied :
    ∃ r, ((run Sample.lib (new 2) [(0, .put (Sample.query 7) (Sample.denied []))]).get (Sample.query 9)
        (20 * second)).2 = some r ∧
      ((run Sample.lib (new 2) [(0, .put (Sample.query 7) (Sample.denied []))]).peek (Sample.query 9)
        (20 * second)).map Prod.fst = some r ∧
      AgedBy 20 Sample.deniedEntry.message r := by
  have hput : entryOf Sample.lib (2 : ℤ).toNat (Sample.query 7) (Sample.denied []) 0 = some Sample.deniedEntry := by
    decide
  have hage : Ageable (Sample.denied []) := by
    intro _
    refine ⟨fun rr hrr _ hsoa => absurd ?_ hsoa, fun rr hrr => by cases hrr⟩
    rw [List.mem_singleton.1 hrr]
    rfl
  exact (ageing_exact_iff Sample.lib 2 _ _ 0 _ hput).2 hage _ (Sample.query 9) (20 * second) (by decide) (by decide)
    (by decide) (by decide)

/-- Twenty seconds on, the proof comes back with a TTL of 136 years. -/
theorem ageing_wraps :
    let c := run Sample.lib (new 2) [(0, .put (Sample.query 7) (Sample.denied [Sample.proof]))]
    (c.get (Sample.query 9) (20 * second)).2.map (fun r => r.ns.map RR.ttl) = some [580, 4294967286] ∧
      (c.peek (Sample.query 9) (20 * second)).map (fun r => r.1.ns.map RR.ttl) = some [580, 4294967286] ∧
      Sample.proof.ttl = 10 := by
  decide

end Velora.Cache
