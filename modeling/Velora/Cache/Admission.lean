import Velora.Cache.Ttl

/-!
# What is cached, and for how long

The decision record on the cache says which responses are stored and for how long; `Lifetime`, `Cacheable` and `Follows` write it
down. `Put` agrees with it on negative answers. On positive ones its cap is a week and not a day, and it does not look at the
options of the query, so that it follows the record under a condition on both (`put_follows_iff`).
-/

namespace Velora.Cache

open Velora.Lib Velora.Lib.Text Velora.Wire Velora.Dns

/-! ### The decision record -/

/-- NXDOMAIN, or NOERROR with no answer but aliases and signatures; and an SOA record in the authority section. -/
def NegativeAnswer (m : Msg) : Prop :=
  (m.rcode = rcodeNameError ∨
      m.rcode = rcodeSuccess ∧ ∀ rr ∈ m.answer, rr.rrtype = typeCNAME ∨ rr.rrtype = typeRRSIG) ∧
    ∃ rr ∈ m.ns, rr.rrtype = typeSOA

/-- NOERROR with an answer that is not negative. -/
def PositiveAnswer (m : Msg) : Prop := m.rcode = rcodeSuccess ∧ m.answer ≠ [] ∧ ¬ NegativeAnswer m

/-- One day, in seconds. -/
def day : ℕ := 86400

/-- What bounds the lifetime of a negative answer: the TTL and the minimum of its SOA record, a day, and its answer. -/
def negativeTTLs (soa : Typed SOA) (m : Msg) : Set ℕ :=
  {t | t = soa.hdr.ttl.toNat ∨ t = soa.rd.minttl.toNat ∨ t = day ∨ ∃ rr ∈ m.answer, t = rr.ttl.toNat}

/-- What bounds the lifetime of a positive answer: a cap, and all its records but the OPT record. -/
def positiveTTLs (cap : ℕ) (m : Msg) : Set ℕ :=
  {t | t = cap ∨ ∃ rr ∈ m.sections, rr.rrtype ≠ typeOPT ∧ t = rr.ttl.toNat}

/-- **The lifetime of a response**, in seconds. A response that is neither positive nor negative has none. -/
def Lifetime (m : Msg) (n : ℕ) : Prop :=
  NegativeAnswer m ∧ (∃ soa, firstSOA m = some soa ∧ IsLeast (negativeTTLs soa m) n) ∨
    PositiveAnswer m ∧ IsLeast (positiveTTLs day m) n

/-- The query has EDNS options. -/
def carriesOptions (q : Msg) : Bool :=
  q.extra.any (fun rr => match rr.data with | .opt options => !options.isEmpty | _ => false)

/-- **A response that is cached**: complete, small, and with a lifetime that is not zero. -/
def Cacheable (lib : Miekg) (m : Msg) : Prop := m.truncated = false ∧ lib.len m ≤ 16384 ∧ ∃ n, n ≠ 0 ∧ Lifetime m n

/-- `Put` has stored the response for `n` seconds: it is the newest entry, and replaces the one under its key. -/
def Stored (lib : Miekg) (c : Cache) (q m : Msg) (now n : ℕ) : Prop :=
  ∃ k, key q = some k ∧ values (c.put lib q m now) = ⟨k, normalizeNegativeTTL m, now, now + n * second⟩ ::
    Lru.makeRoom c.max ((values c).filter (fun e => e.key ≠ k))

/-- **`Put` does what the record says.** -/
structure Follows (lib : Miekg) (c : Cache) (q m : Msg) (now : ℕ) : Prop where
  stores : carriesOptions q = false → Cacheable lib m → ∀ n, Lifetime m n → Stored lib c q m now n
  ignores : ¬ (carriesOptions q = false ∧ Cacheable lib m) → c.put lib q m now = c

/-! ### Lifetimes -/

theorem isLeast_of_le_iff {s : Set ℕ} {n : ℕ} (h : ∀ k, n ≤ k ↔ ∃ t ∈ s, t ≤ k) : IsLeast s n := by
  have hlower : ∀ t ∈ s, n ≤ t := fun t ht => (h t).2 ⟨t, ht, le_rfl⟩
  obtain ⟨t, ht, hle⟩ := (h n).1 le_rfl
  exact ⟨le_antisymm hle (hlower t ht) ▸ ht, hlower⟩

section

variable {m : Msg}

theorem firstSOA_isSome : (firstSOA m).isSome = true ↔ ∃ rr ∈ m.ns, rr.rrtype = typeSOA := by
  rw [firstSOA, List.isSome_findSome?, List.any_eq_true]
  simp only [Option.isSome_map, RR.soa?_isSome_iff]

theorem negative_iff : negative m = true ↔ NegativeAnswer m := by
  rw [negative, Bool.and_eq_true, firstSOA_isSome, NegativeAnswer, and_comm]
  refine and_congr_left fun _ => ?_
  simp only [aliasOnly, Bool.or_eq_true, Bool.and_eq_true, beq_iff_eq, List.all_eq_true, List.isEmpty_iff]
  refine or_congr_right (and_congr_right fun _ => ⟨?_, Or.inr⟩)
  rintro (h | h)
  · simp [h]
  · exact h

theorem negative_isLeast (h : NegativeAnswer m) :
    ∃ soa, firstSOA m = some soa ∧ IsLeast (negativeTTLs soa m) (cacheTTL m).1.toNat := by
  obtain ⟨soa, hsoa, -, hle⟩ := cacheTTL_negative (negative_iff.2 h)
  refine ⟨soa, hsoa, isLeast_of_le_iff fun k => ?_⟩
  rw [hle]
  constructor
  · rintro (h | h | h | ⟨rr, hrr, h⟩)
    · exact ⟨_, Or.inl rfl, h⟩
    · exact ⟨_, Or.inr (Or.inl rfl), h⟩
    · exact ⟨_, Or.inr (Or.inr (Or.inl rfl)), h⟩
    · exact ⟨_, Or.inr (Or.inr (Or.inr ⟨rr, hrr, rfl⟩)), h⟩
  · rintro ⟨t, rfl | rfl | rfl | ⟨rr, hrr, rfl⟩, h⟩
    · exact Or.inl h
    · exact Or.inr (Or.inl h)
    · exact Or.inr (Or.inr (Or.inl h))
    · exact Or.inr (Or.inr (Or.inr ⟨rr, hrr, h⟩))

theorem cacheTTL_eq_positive (h : ¬ NegativeAnswer m) : cacheTTL m = cacheTTL.positive m := by
  have hneg : negative m = false := by
    rw [← Bool.not_eq_true, negative_iff]
    exact h
  unfold cacheTTL
  cases firstSOA m <;> simp [hneg]

/-- The cap of a positive answer is a week. -/
theorem positive_isLeast (h : PositiveAnswer m) : IsLeast (positiveTTLs 604800 m) (cacheTTL m).1.toNat := by
  rw [cacheTTL_eq_positive h.2.2, cacheTTL.positive, if_pos ⟨h.1, h.2.1⟩]
  refine isLeast_of_le_iff fun k => ?_
  rw [lowest_le_iff]
  constructor
  · rintro (hcap | ⟨rr, hrr, hle⟩)
    · exact ⟨_, Or.inl rfl, hcap⟩
    · obtain ⟨hmem, hopt⟩ := List.mem_filter.1 hrr
      exact ⟨_, Or.inr ⟨rr, hmem, by simpa using hopt, rfl⟩, hle⟩
  · rintro ⟨t, rfl | ⟨rr, hrr, hopt, rfl⟩, hle⟩
    · exact Or.inl hle
    · exact Or.inr ⟨rr, List.mem_filter.2 ⟨hrr, by simpa using hopt⟩, hle⟩

theorem cacheTTL_eq_zero (hneg : ¬ NegativeAnswer m) (hpos : ¬ PositiveAnswer m) : (cacheTTL m).1 = 0 := by
  rw [cacheTTL_eq_positive hneg, cacheTTL.positive, if_neg fun h => hpos ⟨h.1, h.2, hneg⟩]

/-- Lowering the cap lowers the least element to it. -/
theorem isLeast_cap {cap cap' n : ℕ} (hle : cap' ≤ cap) (h : IsLeast (positiveTTLs cap m) n) :
    IsLeast (positiveTTLs cap' m) (min n cap') := by
  constructor
  · rcases le_total n cap' with hn | hn
    · rw [min_eq_left hn]
      rcases h.1 with rfl | hrr
      · exact Or.inl (le_antisymm hn hle)
      · exact Or.inr hrr
    · rw [min_eq_right hn]
      exact Or.inl rfl
  · rintro t (rfl | ht)
    · exact min_le_right _ _
    · exact (min_le_left _ _).trans (h.2 (Or.inr ht))

/-- **The lifetime of the record is the one of the cache**, on a positive answer cut to a day. -/
theorem lifetime_iff {n : ℕ} : Lifetime m n ↔
    NegativeAnswer m ∧ n = (cacheTTL m).1.toNat ∨ PositiveAnswer m ∧ n = min (cacheTTL m).1.toNat day := by
  refine or_congr (and_congr_right fun hneg => ?_) (and_congr_right fun hpos => ?_)
  · obtain ⟨soa, hsoa, hleast⟩ := negative_isLeast hneg
    constructor
    · rintro ⟨soa', hsoa', hleast'⟩
      rw [hsoa, Option.some.injEq] at hsoa'
      subst hsoa'
      exact hleast'.unique hleast
    · rintro rfl
      exact ⟨soa, hsoa, hleast⟩
  · have hleast : IsLeast (positiveTTLs day m) _ := isLeast_cap (by decide) (positive_isLeast hpos)
    constructor
    · exact fun h => h.unique hleast
    · rintro rfl
      exact hleast

theorem cacheable_iff {lib : Miekg} :
    Cacheable lib m ↔ m.truncated = false ∧ lib.len m ≤ 16384 ∧ (cacheTTL m).1 ≠ 0 := by
  refine and_congr_right fun _ => and_congr_right fun _ => ?_
  have hzero : (cacheTTL m).1 ≠ 0 ↔ (cacheTTL m).1.toNat ≠ 0 := not_congr UInt32.toNat_inj.symm
  have hday : day ≠ 0 := by decide
  constructor
  · rintro ⟨n, hn, hlife⟩
    rw [hzero]
    rintro h0
    rcases lifetime_iff.1 hlife with ⟨-, rfl⟩ | ⟨-, rfl⟩
    · exact hn h0
    · exact hn (by rw [h0, Nat.zero_min])
  · intro h
    by_cases hneg : NegativeAnswer m
    · exact ⟨_, hzero.1 h, lifetime_iff.2 (Or.inl ⟨hneg, rfl⟩)⟩
    by_cases hpos : PositiveAnswer m
    · refine ⟨_, ?_, lifetime_iff.2 (Or.inr ⟨hpos, rfl⟩)⟩
      have := hzero.1 h
      omega
    · exact absurd (cacheTTL_eq_zero hneg hpos) h

end

/-! ### What `Put` does -/

section

variable {lib : Miekg} {c : Cache} {q m : Msg} {now : ℕ}

theorem entryOf_eq_some (hmax : c.max ≠ 0) (hm : Cacheable lib m) {k : Str} (hk : key q = some k) :
    entryOf lib c.max q m now = some ⟨k, normalizeNegativeTTL m, now, now + (cacheTTL m).1.toNat * second⟩ := by
  obtain ⟨htrunc, hlen, httl⟩ := cacheable_iff.1 hm
  rw [entryOf, hk]
  dsimp only
  rw [if_neg (by simp [hmax, htrunc, hlen]), if_neg httl]
  rfl

theorem entryOf_eq_none (h : ¬ Cacheable lib m ∨ key q = none) : entryOf lib c.max q m now = none := by
  cases hk : key q with
  | none => rw [entryOf, hk]
  | some k =>
    have hno := h.resolve_right (by rw [hk]; simp)
    rw [cacheable_iff] at hno
    rw [entryOf, hk]
    dsimp only
    split
    · rfl
    rename_i hguard
    split
    · rfl
    rename_i httl
    push Not at hguard
    exact absurd ⟨by simpa using hguard.2.1, hguard.2.2, httl⟩ hno

/-- What `Put` has stored is a new element of the list. -/
theorem put_ne {e : Entry} (h : entryOf lib c.max q m now = some e) : c.put lib q m now ≠ c := by
  have hkey : (c.removeKey e.key).next = c.next := by
    unfold removeKey
    split <;> rfl
  have hroom : ((c.removeKey e.key).makeRoom).next = (c.removeKey e.key).next := by
    unfold makeRoom removeBack
    split
    · split <;> rfl
    · rfl
  have hnext : (c.put lib q m now).next = c.next + 1 := by
    rw [put, h]
    show (c.removeKey e.key).makeRoom.next + 1 = c.next + 1
    rw [hroom, hkey]
  intro heq
  rw [heq] at hnext
  omega

theorem stored_iff (hc : Inv c) (hmax : c.max ≠ 0) (hm : Cacheable lib m) {n : ℕ} :
    Stored lib c q m now n ↔ (key q).isSome = true ∧ n = (cacheTTL m).1.toNat := by
  constructor
  · rintro ⟨k, hk, hvals⟩
    refine ⟨by rw [hk]; rfl, ?_⟩
    rw [(put_some hc (entryOf_eq_some hmax hm hk)).2, List.cons.injEq, Entry.mk.injEq] at hvals
    have hsecond : 0 < second := by decide
    exact (Nat.eq_of_mul_eq_mul_right hsecond (Nat.add_left_cancel hvals.1.2.2.2)).symm
  · rintro ⟨hk, rfl⟩
    obtain ⟨k, hk⟩ := Option.isSome_iff_exists.1 hk
    exact ⟨k, hk, (put_some hc (entryOf_eq_some hmax hm hk)).2⟩

end

/-- A positive answer has a record that lives for a day at most. -/
def ShortLived (m : Msg) : Prop :=
  PositiveAnswer m → ∃ rr ∈ m.sections, rr.rrtype ≠ typeOPT ∧ rr.ttl.toNat ≤ day

theorem shortLived_iff {m : Msg} (hpos : PositiveAnswer m) : ShortLived m ↔ (cacheTTL m).1.toNat ≤ day := by
  have hleast := positive_isLeast hpos
  constructor
  · intro h
    obtain ⟨rr, hrr, hopt, hle⟩ := h hpos
    exact (hleast.2 (Or.inr ⟨rr, hrr, hopt, rfl⟩)).trans hle
  · intro hle _
    rcases hleast.1 with hcap | ⟨rr, hrr, hopt, heq⟩
    · rw [hcap] at hle
      exact absurd hle (by decide)
    · exact ⟨rr, hrr, hopt, heq ▸ hle⟩

/-- **When `Put` follows the record**: on a response that is cached, the query has a key exactly when it has no options, and
then a positive answer is short-lived. -/
theorem put_follows_iff (lib : Miekg) (max : ℤ) (hmax : 0 < max) (ops : List (ℕ × Op)) (q m : Msg) (now : ℕ) :
    Follows lib (run lib (new max) ops) q m now ↔
      (Cacheable lib m → ((key q).isSome = true ↔ carriesOptions q = false) ∧ ((key q).isSome = true → ShortLived m)) := by
  have hc : Inv (run lib (new max) ops) := (refines_new lib max ops).inv
  have hroom : (run lib (new max) ops).max ≠ 0 := by
    rw [max_run]
    show max.toNat ≠ 0
    omega
  by_cases hm : Cacheable lib m
  · obtain ⟨-, -, n, hn, hlife⟩ := id hm
    constructor
    · rintro ⟨hstores, hignores⟩ -
      have hplain : (key q).isSome = true → carriesOptions q = false := by
        intro hk
        -- a query with a key has its response stored
        by_contra hopt
        obtain ⟨k, hk⟩ := Option.isSome_iff_exists.1 hk
        exact put_ne (entryOf_eq_some hroom hm hk) (hignores fun h => hopt h.1)
      refine ⟨⟨hplain, fun hopt => ((stored_iff hc hroom hm).1 (hstores hopt hm n hlife)).1⟩, fun hk hpos => ?_⟩
      have heq := ((stored_iff hc hroom hm).1 (hstores (hplain hk) hm n hlife)).2
      rcases lifetime_iff.1 hlife with ⟨hneg, -⟩ | ⟨-, hmin⟩
      · exact absurd hneg hpos.2.2
      · exact (shortLived_iff hpos).2 (by omega) hpos
    · rintro hcond
      obtain ⟨hkey, hshort⟩ := hcond hm
      refine ⟨fun hopt _ k hk => (stored_iff hc hroom hm).2 ⟨hkey.2 hopt, ?_⟩, fun hno => ?_⟩
      · rcases lifetime_iff.1 hk with ⟨-, rfl⟩ | ⟨hpos, rfl⟩
        · rfl
        · exact min_eq_left ((shortLived_iff hpos).1 (hshort (hkey.2 hopt)))
      · have hopt : ¬ carriesOptions q = false := fun h => hno ⟨h, hm⟩
        exact put_none (entryOf_eq_none (Or.inr (by simpa using mt hkey.1 hopt)))
  · refine iff_of_true ⟨fun _ h => absurd h hm, fun _ => ?_⟩ fun h => absurd h hm
    exact put_none (entryOf_eq_none (Or.inl hm))

/-! ### An option and a long life -/

namespace Sample

/-- The query with a DNS cookie. -/
def cookieQuery : Msg := { query 7 with extra := [⟨⟨root, 1232, 0⟩, .opt [(10, [1, 2, 3, 4, 5, 6, 7, 8])]⟩] }

/-- The address with a lifetime of a week. -/
def weekReply : Msg :=
  { setReply (query 7) with answer := [⟨⟨"example.org.".toList, classINET, 604800⟩, .a [192, 0, 2, 1]⟩] }

theorem positive_address {q : Msg} {rr : RR} (hrr : rr.rrtype = typeA) : PositiveAnswer { setReply q with answer := [rr] } := by
  refine ⟨rfl, by simp, ?_⟩
  rintro ⟨h | ⟨-, h⟩, -⟩
  · cases h
  · have := h rr List.mem_cons_self
    rw [hrr] at this
    revert this
    decide

end Sample

theorem put_follows_address : Follows Sample.lib (run Sample.lib (new 2) []) (Sample.query 7) Sample.reply 0 := by
  refine (put_follows_iff Sample.lib 2 (by decide) [] (Sample.query 7) Sample.reply 0).2 fun _ => ⟨by decide, fun _ _ => ?_⟩
  exact ⟨_, List.mem_cons_self, by decide, by decide⟩

/-- The answer to a query with a cookie is stored, and an address that lives for a week is stored for a week. -/
theorem put_deviates :
    ¬ Follows Sample.lib (new 2) Sample.cookieQuery Sample.reply 0 ∧
      ¬ Follows Sample.lib (new 2) (Sample.query 7) Sample.weekReply 0 := by
  constructor
  · intro h
    have hsome : (entryOf Sample.lib (new 2).max Sample.cookieQuery Sample.reply 0).isSome = true := by decide
    obtain ⟨e, he⟩ := Option.isSome_iff_exists.1 hsome
    exact put_ne he (h.ignores fun hno => absurd hno.1 (by decide))
  · intro h
    have hm : Cacheable Sample.lib Sample.weekReply := cacheable_iff.2 (by decide)
    have hday : Lifetime Sample.weekReply day := lifetime_iff.2 (Or.inr ⟨Sample.positive_address rfl, by decide⟩)
    have heq := ((stored_iff (Inv.new 2) (by decide) hm).1 (h.stores (by decide) hm day hday)).2
    exact absurd heq (by decide)

end Velora.Cache
