import Velora.Dns.Base
import Velora.Lib.Bucket

/-!
# The rate limiter

`RateLimiter.Allow`: every query takes a token of the bucket that all clients share, and then one of the bucket of its
client. The table of the clients is bounded, and buckets that have not been used for a while are pruned when it is full.
Token counts are exact here, and times are nanoseconds since the zero time.
-/

namespace Velora.Dns

/-! ### The limiter -/

structure Bucket where
  tokens : ℚ := 0
  updated : ℕ := 0
  deriving DecidableEq

/-- `now.Sub(updated).Seconds()` for a time that is not before the other; a longest duration stands for all that are longer. -/
def secondsSince (now updated : ℕ) : ℚ := (min (2 ^ 63 - 1) (now - updated) : ℕ) / 10 ^ 9

/-- The tokens that `take` finds; a bucket with the zero time is a new one. -/
def Bucket.refilled (b : Bucket) (rate burst : ℚ) (now : ℕ) : ℚ :=
  if b.updated ≠ 0 then
    if b.updated < now then min burst (b.tokens + secondsSince now b.updated * rate) else b.tokens
  else burst

/-- `take`, with the bucket as it leaves it. -/
def Bucket.take (b : Bucket) (rate burst : ℚ) (now : ℕ) : Bool × Bucket :=
  let tokens := b.refilled rate burst now
  if tokens < 1 then (false, ⟨tokens, now⟩) else (true, ⟨tokens - 1, now⟩)

structure RateLimiter where
  global : Bucket
  clients : AList (fun _ : Addr => Bucket) := ∅
  globalRate : ℚ
  perRate : ℚ
  burst : ℚ
  maxItems : ℕ := 10000

/-- `NewRateLimiter` at the time `now`. -/
def newRateLimiter (now : ℕ) (globalQPS clientQPS burst : ℤ) : RateLimiter where
  global := { tokens := burst, updated := now }
  globalRate := globalQPS
  perRate := clientQPS
  burst := burst

def tenMinutes : ℕ := 10 * 60 * 10 ^ 9

namespace RateLimiter

/-- The buckets of inactive clients are deleted. -/
def prune (l : RateLimiter) (now : ℕ) : RateLimiter :=
  { l with clients := ⟨l.clients.entries.filter (fun p => ¬ now - p.2.updated > tenMinutes),
      l.clients.nodupKeys.sublist List.filter_sublist⟩ }

/-- There is no place for the bucket of the client. -/
def crowded (l : RateLimiter) (client : Addr) : Bool :=
  (l.clients.lookup client).isNone && l.clients.keys.length ≥ l.maxItems

/-- The limiter with which `Allow` looks for a place. -/
def makeRoom (l : RateLimiter) (client : Addr) (now : ℕ) : RateLimiter :=
  if l.crowded client then l.prune now else l

/-- `Allow`, with the limiter as it leaves it. -/
def allow (l : RateLimiter) (client : Addr) (now : ℕ) : Bool × RateLimiter :=
  let (ok, global) := l.global.take l.globalRate l.burst now
  let l := { l with global }
  if !ok then (false, l) else
    let b := (l.clients.lookup client).getD {}
    let l := l.makeRoom client now
    if l.crowded client then (false, l) else
      let (ok, b) := b.take l.perRate l.burst now
      if !ok then (false, l) else (true, { l with clients := l.clients.insert client b })

end RateLimiter

/-- A query: its client and the time at which `ServeDNS` has got it. -/
structure Arrival where
  client : Addr
  now : ℕ
  deriving DecidableEq

namespace RateLimiter

/-- The limiter after a call. -/
def next (l : RateLimiter) (q : Arrival) : RateLimiter := (l.allow q.client q.now).2

/-- The limiter after the calls. -/
def after (l : RateLimiter) (qs : List Arrival) : RateLimiter := qs.foldl next l

/-- The calls in the order in which they get the lock, each with its answer. -/
def served : RateLimiter → List Arrival → List (Arrival × Bool)
  | _, [] => []
  | l, q :: qs => (q, (l.allow q.client q.now).1) :: served (l.next q) qs

/-- The number of calls that are admitted. -/
def admitted (l : RateLimiter) (qs : List Arrival) : ℕ := (l.served qs).countP (fun r => r.2)

/-- The number of those of one client. -/
def admittedOf (client : Addr) (l : RateLimiter) (qs : List Arrival) : ℕ :=
  (l.served qs).countP (fun r => r.1.client = client && r.2)

/-- The bucket of the client is never deleted while the calls are served. -/
def NeverPruned (client : Addr) : RateLimiter → List Arrival → Prop
  | _, [] => True
  | l, q :: qs =>
    ((l.clients.lookup client).isSome → ((l.next q).clients.lookup client).isSome) ∧ NeverPruned client (l.next q) qs

end RateLimiter

/-! ### What a limiter keeps -/

/-- What `Validate` and `SetRateLimitSettings` ask of the three limits. -/
structure RateLimits where
  globalQPS : ℤ
  clientQPS : ℤ
  burst : ℤ
  globalQPS_mem : 1 ≤ globalQPS ∧ globalQPS ≤ 100000
  clientQPS_mem : 1 ≤ clientQPS ∧ clientQPS ≤ 100000
  burst_mem : 1 ≤ burst ∧ burst ≤ 100000

/-- A limiter with such limits. -/
def RateLimits.limiter (q : RateLimits) (now : ℕ) : RateLimiter := newRateLimiter now q.globalQPS q.clientQPS q.burst

namespace RateLimits

theorem one_le_globalQPS (q : RateLimits) : (1 : ℚ) ≤ q.globalQPS := by exact_mod_cast q.globalQPS_mem.1

theorem one_le_clientQPS (q : RateLimits) : (1 : ℚ) ≤ q.clientQPS := by exact_mod_cast q.clientQPS_mem.1

theorem one_le_burst (q : RateLimits) : (1 : ℚ) ≤ q.burst := by exact_mod_cast q.burst_mem.1

theorem burst_le (q : RateLimits) : (q.burst : ℚ) ≤ 100000 := by exact_mod_cast q.burst_mem.2

end RateLimits

/-- The time in seconds. -/
def seconds (now : ℕ) : ℚ := (now : ℚ) / 10 ^ 9

theorem seconds_mono {t t' : ℕ} (h : t ≤ t') : seconds t ≤ seconds t' := by
  unfold seconds
  gcongr

/-- The bucket as a token bucket on the rational line. -/
def Bucket.ideal (b : Bucket) : Lib.Bucket ℚ := ⟨b.tokens, seconds b.updated⟩

/-- What holds of a bucket in use at the time `t`. -/
structure Bucket.Sound (burst : ℚ) (t : ℕ) (b : Bucket) : Prop where
  used : b.updated ≠ 0
  past : b.updated ≤ t
  nonneg : 0 ≤ b.tokens
  le : b.tokens ≤ burst

namespace Bucket

variable {b : Bucket} {rate burst : ℚ} {t now : ℕ}

theorem Sound.later {t' : ℕ} (h : b.Sound burst t) (ht : t ≤ t') : b.Sound burst t' := { h with past := h.past.trans ht }

/-- **The tokens of a bucket are those of the token bucket**: with the limits that are accepted a longest duration fills it. -/
theorem refilled_eq (h : b.Sound burst now) (hrate : 1 ≤ rate) (hburst : burst ≤ 100000) :
    b.refilled rate burst now = b.ideal.level rate burst (seconds now) := by
  have hused : b.updated ≠ 0 := h.used
  have hpast := h.past
  have hnonneg := h.nonneg
  rw [refilled, if_pos hused, Lib.Bucket.level, ideal]
  split
  · rename_i hlt
    have hgap : seconds now - seconds b.updated = ((now - b.updated : ℕ) : ℚ) / 10 ^ 9 := by
      rw [seconds, seconds, Nat.cast_sub hpast]
      ring
    rw [hgap, secondsSince]
    rcases le_total (now - b.updated) (2 ^ 63 - 1) with hd | hd
    · rw [min_eq_right hd]
    · -- both durations fill the bucket
      have hfull : ∀ d : ℕ, 2 ^ 63 - 1 ≤ d → burst ≤ b.tokens + (d : ℚ) / 10 ^ 9 * rate := by
        intro d hd
        have hd' : (100000 : ℚ) ≤ (d : ℚ) / 10 ^ 9 := by
          rw [le_div_iff₀ (by norm_num)]
          have hcast : ((2 ^ 63 - 1 : ℕ) : ℚ) ≤ d := by exact_mod_cast hd
          norm_num at hcast ⊢
          linarith
        have hrefill : (d : ℚ) / 10 ^ 9 * 1 ≤ (d : ℚ) / 10 ^ 9 * rate := by gcongr
        linarith
      rw [min_eq_left hd, min_eq_left (hfull _ le_rfl), min_eq_left (hfull _ hd)]
  · rename_i hlt
    have hnow : now = b.updated := by omega
    rw [hnow, sub_self, zero_mul, add_zero, min_eq_right h.le]

/-- A call finds in the bucket what it finds in the token bucket, and leaves the same. -/
theorem take_eq (h : b.Sound burst now) (hrate : 1 ≤ rate) (hburst : burst ≤ 100000) :
    (b.take rate burst now).1 = (b.ideal.take rate burst (seconds now)).1 ∧
      (b.take rate burst now).2.ideal = (b.ideal.take rate burst (seconds now)).2 := by
  simp only [take, Lib.Bucket.take, refilled_eq h hrate hburst]
  split <;> exact ⟨rfl, rfl⟩

@[simp] theorem take_updated : (b.take rate burst now).2.updated = now := by
  simp only [take]
  split <;> rfl

theorem take_sound (h : b.Sound burst now) (hrate : 1 ≤ rate) (hburst : 0 ≤ burst ∧ burst ≤ 100000) :
    (b.take rate burst now).2.Sound burst now := by
  have hlevel : 0 ≤ b.ideal.level rate burst (seconds now) :=
    Lib.Bucket.level_nonneg (by linarith) hburst.1 h.nonneg (seconds_mono h.past)
  have htokens : (b.take rate burst now).2.tokens = (b.ideal.take rate burst (seconds now)).2.tokens :=
    congrArg Lib.Bucket.tokens (take_eq h hrate hburst.2).2
  constructor
  · have hused := h.used
    have hpast := h.past
    rw [take_updated]
    omega
  · rw [take_updated]
  · rw [htokens]
    exact Lib.Bucket.take_nonneg hlevel
  · rw [htokens]
    exact Lib.Bucket.take_tokens_le.trans Lib.Bucket.level_le_cap

/-- The charge of `Lib.Bucket.take_charge`. -/
theorem take_charge (h : b.Sound burst now) (hrate : 1 ≤ rate) (hburst : burst ≤ 100000) :
    (if (b.take rate burst now).1 then 1 else 0) + (b.take rate burst now).2.tokens ≤
      b.tokens + (seconds now - seconds b.updated) * rate := by
  obtain ⟨hfst, hsnd⟩ := take_eq h hrate hburst
  have htokens : (b.take rate burst now).2.tokens = (b.ideal.take rate burst (seconds now)).2.tokens :=
    congrArg Lib.Bucket.tokens hsnd
  rw [hfst, htokens]
  exact Lib.Bucket.take_charge

/-- The first call of a client. -/
theorem take_new (h : 1 ≤ burst) : Bucket.take {} rate burst now = (true, ⟨burst - 1, now⟩) := by
  have hnew : Bucket.refilled {} rate burst now = burst := by simp [refilled]
  simp only [take, hnew, if_neg (not_lt.2 h)]

end Bucket

namespace RateLimiter

variable {l : RateLimiter} {client x : Addr} {b : Bucket} {t now : ℕ} {q : RateLimits}

/-- What holds of a limiter at the time `t`. -/
structure Sound (q : RateLimits) (t : ℕ) (l : RateLimiter) : Prop where
  globalRate : l.globalRate = q.globalQPS
  perRate : l.perRate = q.clientQPS
  burst : l.burst = q.burst
  global : l.global.Sound q.burst t
  clients : ∀ x b, l.clients.lookup x = some b → b.Sound q.burst t

theorem prune_lookup (h : (l.prune now).clients.lookup x = some b) : l.clients.lookup x = some b := by
  rw [← Option.mem_def, AList.mem_lookup_iff] at h ⊢
  exact List.mem_of_mem_filter h

theorem makeRoom_lookup (h : (l.makeRoom client now).clients.lookup x = some b) : l.clients.lookup x = some b := by
  unfold makeRoom at h
  split at h
  · exact prune_lookup h
  · exact h

/-- No place is looked for when the client has a bucket. -/
theorem makeRoom_of_known (h : l.clients.lookup client = some b) : l.makeRoom client now = l := by
  simp [makeRoom, crowded, h]

/-- The shared bucket has been asked. -/
def charged (l : RateLimiter) (now : ℕ) : RateLimiter := { l with global := (l.global.take l.globalRate l.burst now).2 }

/-- What a call may do: which of the three refusals it is, or whose bucket it has been taken from. -/
inductive Outcome (l : RateLimiter) (client : Addr) (now : ℕ) : Bool → RateLimiter → Prop
  | global : (l.global.take l.globalRate l.burst now).1 = false → Outcome l client now false (l.charged now)
  | table : (l.global.take l.globalRate l.burst now).1 = true → l.clients.lookup client = none →
      Outcome l client now false ((l.charged now).makeRoom client now)
  | own (b : Bucket) : (l.global.take l.globalRate l.burst now).1 = true → l.clients.lookup client = some b →
      (b.take l.perRate l.burst now).1 = false → Outcome l client now false (l.charged now)
  | known (b : Bucket) : (l.global.take l.globalRate l.burst now).1 = true → l.clients.lookup client = some b →
      (b.take l.perRate l.burst now).1 = true →
      Outcome l client now true
        { l.charged now with clients := l.clients.insert client (b.take l.perRate l.burst now).2 }
  | fresh : (l.global.take l.globalRate l.burst now).1 = true → l.clients.lookup client = none →
      Outcome l client now true
        { (l.charged now).makeRoom client now with
          clients := ((l.charged now).makeRoom client now).clients.insert client ⟨l.burst - 1, now⟩ }

@[simp] theorem charged_clients : (l.charged now).clients = l.clients := rfl

@[simp] theorem charged_perRate : (l.charged now).perRate = l.perRate := rfl

@[simp] theorem charged_burst : (l.charged now).burst = l.burst := rfl

@[simp] theorem makeRoom_perRate : (l.makeRoom client now).perRate = l.perRate := by
  unfold makeRoom
  split <;> rfl

@[simp] theorem makeRoom_burst : (l.makeRoom client now).burst = l.burst := by
  unfold makeRoom
  split <;> rfl

/-- **What `Allow` does.** -/
theorem allow_outcome (hburst : 1 ≤ l.burst) : Outcome l client now (l.allow client now).1 (l.allow client now).2 := by
  simp only [allow, ← charged.eq_def]
  cases hg : (l.global.take l.globalRate l.burst now).1
  · simpa using Outcome.global hg
  · cases hx : l.clients.lookup client with
    | none =>
      simp only [Option.getD_none, makeRoom_perRate, makeRoom_burst, charged_perRate, charged_burst, Bucket.take_new hburst]
      by_cases hc : ((l.charged now).makeRoom client now).crowded client = true
      · simpa [hc] using Outcome.table hg hx
      · simpa [hc] using Outcome.fresh hg hx
    | some b =>
      have hcrowded : (l.charged now).crowded client = false := by simp [crowded, hx]
      have hroom : (l.charged now).makeRoom client now = l.charged now := makeRoom_of_known hx
      simp only [charged_clients, Option.getD_some, hroom, hcrowded, charged_perRate, charged_burst]
      cases hb : (b.take l.perRate l.burst now).1
      · simpa [hb] using Outcome.own b hg hx hb
      · simpa [hb] using Outcome.known b hg hx hb

@[simp] theorem makeRoom_globalRate : (l.makeRoom client now).globalRate = l.globalRate := by
  unfold makeRoom
  split <;> rfl

@[simp] theorem makeRoom_global : (l.makeRoom client now).global = l.global := by
  unfold makeRoom
  split <;> rfl

namespace Outcome

variable {ok : Bool} {l' : RateLimiter}

/-- Every call is charged to the shared bucket, and no other call is admitted. -/
theorem charges (h : Outcome l client now ok l') : l'.global = (l.global.take l.globalRate l.burst now).2 ∧
    (ok = true → (l.global.take l.globalRate l.burst now).1 = true) := by
  cases h with
  | global hg => exact ⟨rfl, by simp⟩
  | table hg hx => exact ⟨makeRoom_global, by simp⟩
  | own b hg hx hb => exact ⟨rfl, by simp⟩
  | known b hg hx hb => exact ⟨rfl, fun _ => hg⟩
  | fresh hg hx => exact ⟨makeRoom_global, fun _ => hg⟩

theorem rates (h : Outcome l client now ok l') :
    l'.globalRate = l.globalRate ∧ l'.perRate = l.perRate ∧ l'.burst = l.burst := by
  cases h with
  | global hg => exact ⟨rfl, rfl, rfl⟩
  | table hg hx => exact ⟨makeRoom_globalRate, makeRoom_perRate, makeRoom_burst⟩
  | own b hg hx hb => exact ⟨rfl, rfl, rfl⟩
  | known b hg hx hb => exact ⟨rfl, rfl, rfl⟩
  | fresh hg hx => exact ⟨makeRoom_globalRate, makeRoom_perRate, makeRoom_burst⟩

/-- The bucket of another client is deleted or stays. -/
theorem lookup_ne (h : Outcome l client now ok l') (hne : x ≠ client) (hx : l'.clients.lookup x = some b) :
    l.clients.lookup x = some b := by
  cases h with
  | global hg => exact hx
  | table hg hnone => exact makeRoom_lookup (l := l.charged now) hx
  | own b hg hsome hb => exact hx
  | known b hg hsome hb => rwa [AList.lookup_insert_ne hne] at hx
  | fresh hg hnone =>
    rw [AList.lookup_insert_ne hne] at hx
    exact makeRoom_lookup (l := l.charged now) hx

/-- The bucket of the client itself. -/
theorem lookup_self (h : Outcome l client now ok l') : l'.clients.lookup client = if ok then
      some ((l.clients.lookup client).elim ⟨l.burst - 1, now⟩ (fun b => (b.take l.perRate l.burst now).2))
    else l.clients.lookup client := by
  cases h with
  | global hg => rfl
  | table hg hnone =>
    cases hroom : ((l.charged now).makeRoom client now).clients.lookup client with
    | none => simp [hnone]
    | some b => exact absurd (makeRoom_lookup hroom) (by simp [hnone])
  | own b hg hsome hb => rfl
  | known b hg hsome hb => simp [hsome]
  | fresh hg hnone => simp [hnone]

theorem admits_known (h : Outcome l client now true l') (hb : l.clients.lookup client = some b) :
    (b.take l.perRate l.burst now).1 = true := by
  cases h with
  | known b' hg hsome htake =>
    obtain rfl : b = b' := by simpa [hb] using hsome
    exact htake
  | fresh hg hnone => simp [hnone] at hb

end Outcome

theorem limiter_sound (q : RateLimits) (h : 0 < t) : Sound q t (q.limiter t) where
  globalRate := rfl
  perRate := rfl
  burst := rfl
  global := ⟨h.ne', le_refl t, zero_le_one.trans q.one_le_burst, le_refl _⟩
  clients x b hx := by simp [RateLimits.limiter, newRateLimiter] at hx

theorem Sound.outcome (h : Sound q t l) (c : Arrival) : Outcome l c.client c.now (l.allow c.client c.now).1 (l.next c) :=
  allow_outcome (h.burst ▸ q.one_le_burst)

/-- **One call** of a limiter that is used in order. -/
theorem next_sound {c : Arrival} (h : Sound q t l) (ht : t ≤ c.now) : Sound q c.now (l.next c) := by
  have hq : (0 : ℚ) ≤ q.burst ∧ (q.burst : ℚ) ≤ 100000 := ⟨zero_le_one.trans q.one_le_burst, q.burst_le⟩
  have hout := h.outcome c
  obtain ⟨hg, hp, hb⟩ := hout.rates
  refine ⟨hg.trans h.globalRate, hp.trans h.perRate, hb.trans h.burst, ?_, ?_⟩
  · rw [hout.charges.1, h.globalRate, h.burst]
    exact Bucket.take_sound (h.global.later ht) q.one_le_globalQPS hq
  · intro x b hx
    by_cases hne : x = c.client
    · subst hne
      rw [hout.lookup_self] at hx
      split at hx
      · cases hold : l.clients.lookup c.client with
        | none =>
          obtain rfl : (⟨l.burst - 1, c.now⟩ : Bucket) = b := by simpa [hold] using hx
          rw [h.burst]
          have hpast := h.global.past
          have hused := h.global.used
          exact ⟨by dsimp only; omega, le_refl _, by simpa using q.one_le_burst, by simp⟩
        | some old =>
          obtain rfl : (old.take l.perRate l.burst c.now).2 = b := by simpa [hold] using hx
          rw [h.perRate, h.burst]
          exact Bucket.take_sound ((h.clients _ _ hold).later ht) q.one_le_clientQPS hq
      · exact (h.clients _ _ hx).later ht
    · exact (h.clients _ _ (hout.lookup_ne hne hx)).later ht

end RateLimiter

/-! ### The bound -/

/-- The calls get the lock in the order of their times, and none of them is before `t`. -/
def InOrder (t : ℕ) (cs : List Arrival) : Prop := (t :: cs.map Arrival.now).Pairwise (· ≤ ·)

instance (t : ℕ) (cs : List Arrival) : Decidable (InOrder t cs) := by
  unfold InOrder
  infer_instance

theorem inOrder_cons {t : ℕ} {c : Arrival} {cs : List Arrival} : InOrder t (c :: cs) ↔ t ≤ c.now ∧ InOrder c.now cs := by
  rw [InOrder, InOrder, List.map_cons, ← List.isChain_iff_pairwise, ← List.isChain_iff_pairwise, List.isChain_cons_cons]

namespace RateLimiter

variable {l : RateLimiter} {q : RateLimits} {t M : ℕ} {c : Arrival} {cs : List Arrival} {x : Addr}

theorem admitted_cons : admitted l (c :: cs) = (if (l.allow c.client c.now).1 then 1 else 0) + admitted (l.next c) cs := by
  rw [admitted, served, List.countP_cons, Nat.add_comm]
  rfl

/-- **A run of the shared bucket**: the calls that are admitted until `M` are paid for by what it holds and by what runs
into it. -/
theorem admitted_le (h : Sound q t l) (ho : InOrder t cs) (hM : ∀ c ∈ cs, c.now ≤ M) (ht : l.global.updated ≤ M) :
    (admitted l cs : ℚ) ≤ l.global.tokens + (seconds M - seconds l.global.updated) * q.globalQPS := by
  have hq := q.one_le_globalQPS
  induction cs generalizing t l with
  | nil =>
    have hgap : 0 ≤ seconds M - seconds l.global.updated := sub_nonneg.2 (seconds_mono ht)
    have htokens := h.global.nonneg
    simp only [admitted, served, List.countP_nil, Nat.cast_zero]
    positivity
  | cons c cs ih =>
    obtain ⟨htc, hrest⟩ := inOrder_cons.1 ho
    have hout := h.outcome c
    have hglobal : (l.next c).global = (l.global.take q.globalQPS q.burst c.now).2 := by
      rw [hout.charges.1, h.globalRate, h.burst]
    have hadmits : (l.allow c.client c.now).1 = true → (l.global.take q.globalQPS q.burst c.now).1 = true := by
      rw [← h.globalRate, ← h.burst]
      exact hout.charges.2
    have hcharge := Bucket.take_charge (h.global.later htc) hq q.burst_le
    have hnow : (l.next c).global.updated = c.now := by rw [hglobal, Bucket.take_updated]
    have hle := ih (next_sound h htc) hrest (fun c' hc' => hM c' (List.mem_cons_of_mem c hc'))
      (hnow ▸ hM c List.mem_cons_self)
    rw [hnow, hglobal] at hle
    rw [admitted_cons]
    push_cast
    have hone : (if (l.allow c.client c.now).1 = true then (1 : ℚ) else 0) ≤
        if (l.global.take q.globalQPS q.burst c.now).1 = true then 1 else 0 := by
      split
      · rename_i hok
        rw [if_pos (hadmits hok)]
      · split
        · exact zero_le_one
        · exact le_refl _
    linarith

/-- What a client may still be admitted until `M`; `m` is a time before all its calls. -/
def credit (q : RateLimits) (m M : ℕ) : Option Bucket → ℚ
  | none => q.burst + (seconds M - seconds m) * q.clientQPS
  | some b => b.tokens + (seconds M - seconds b.updated) * q.clientQPS

theorem admittedOf_cons : admittedOf x l (c :: cs) =
    (if c.client = x ∧ (l.allow c.client c.now).1 = true then 1 else 0) + admittedOf x (l.next c) cs := by
  rw [admittedOf, served, List.countP_cons, Nat.add_comm]
  simp [admittedOf]

/-- **One call and the bucket of a client.** -/
theorem credit_next {m : ℕ} (h : Sound q t l) (ht : t ≤ c.now) (hm : c.client = x → m ≤ c.now)
    (hkept : (l.clients.lookup x).isSome → ((l.next c).clients.lookup x).isSome) :
    (if c.client = x ∧ (l.allow c.client c.now).1 = true then 1 else 0) + credit q m M ((l.next c).clients.lookup x) ≤
      credit q m M (l.clients.lookup x) := by
  have hout := h.outcome c
  by_cases hx : c.client = x
  · subst hx
    rw [hout.lookup_self]
    cases hok : (l.allow c.client c.now).1
    · simp
    · rw [hok] at hout
      cases hold : l.clients.lookup c.client with
      | none =>
        have hsec := seconds_mono (hm rfl)
        have hq := q.one_le_clientQPS
        have hmul : (seconds M - seconds c.now) * q.clientQPS ≤ (seconds M - seconds m) * q.clientQPS := by gcongr
        simp only [credit, and_self, if_true, Option.elim_none, h.burst]
        linarith
      | some b =>
        have htake := hout.admits_known hold
        have hcharge := Bucket.take_charge ((h.clients _ _ hold).later ht) q.one_le_clientQPS q.burst_le
        rw [← h.perRate, ← h.burst, if_pos htake, h.perRate, h.burst] at hcharge
        simp only [credit, and_self, if_true, Option.elim_some, Bucket.take_updated, h.perRate, h.burst]
        linarith
  · have hsame : (l.next c).clients.lookup x = l.clients.lookup x := by
      cases hnew : (l.next c).clients.lookup x with
      | some b => exact (hout.lookup_ne (Ne.symm hx) hnew).symm
      | none =>
        cases hold : l.clients.lookup x with
        | none => rfl
        | some b => simp [hnew, hold] at hkept
    rw [hsame, if_neg (fun hc => hx hc.1), zero_add]

/-- **A run and the bucket of a client**, which is never deleted. -/
theorem admittedOf_le {m : ℕ} (h : Sound q t l) (ho : InOrder t cs) (hp : NeverPruned x l cs)
    (hm : ∀ c ∈ cs, c.client = x → m ≤ c.now ∧ c.now ≤ M) (hmM : m ≤ M)
    (hold : ∀ b, l.clients.lookup x = some b → b.updated ≤ M) :
    (admittedOf x l cs : ℚ) ≤ credit q m M (l.clients.lookup x) := by
  have hq := q.one_le_clientQPS
  induction cs generalizing t l with
  | nil =>
    simp only [admittedOf, served, List.countP_nil, Nat.cast_zero]
    cases hb : l.clients.lookup x with
    | none =>
      have hgap : 0 ≤ seconds M - seconds m := sub_nonneg.2 (seconds_mono hmM)
      have hburst := q.one_le_burst
      simp only [credit]
      positivity
    | some b =>
      have hgap : 0 ≤ seconds M - seconds b.updated := sub_nonneg.2 (seconds_mono (hold b hb))
      have htokens := (h.clients x b hb).nonneg
      simp only [credit]
      positivity
  | cons c cs ih =>
    obtain ⟨htc, hrest⟩ := inOrder_cons.1 ho
    have hnext : ∀ b, (l.next c).clients.lookup x = some b → b.updated ≤ M := by
      intro b hb
      have hout := h.outcome c
      by_cases hx : x = c.client
      · have hnow := (next_sound h htc).clients x b hb
        exact hnow.past.trans (hm c List.mem_cons_self hx.symm).2
      · exact hold b (hout.lookup_ne hx hb)
    have hle := ih (next_sound h htc) hrest hp.2 (fun c' hc' => hm c' (List.mem_cons_of_mem c hc')) hnext
    have hstep := credit_next (M := M) h htc (fun hx => (hm c List.mem_cons_self hx).1) hp.1
    rw [admittedOf_cons]
    push_cast
    linarith

/-- The times of the calls of a client. -/
def timesOf (x : Addr) (cs : List Arrival) : List ℕ := (cs.filter (fun c => c.client = x)).map Arrival.now

/-- The time from the first to the last of them. -/
def span (times : List ℕ) : ℕ := times.max?.getD 0 - times.min?.getD 0

theorem seconds_span {times : List ℕ} (h : times.min?.getD 0 ≤ times.max?.getD 0) :
    seconds (span times) = seconds (times.max?.getD 0) - seconds (times.min?.getD 0) := by
  rw [span, seconds, seconds, seconds, Nat.cast_sub h]
  ring

theorem min_le_max (times : List ℕ) : times.min?.getD 0 ≤ times.max?.getD 0 := by
  cases times with
  | nil => exact le_refl 0
  | cons a times => exact (List.min?_getD_le_of_mem List.mem_cons_self).trans (List.le_max?_getD_of_mem List.mem_cons_self)

/-- The rates: over all clients since the limiter is there, and for each client whose bucket is kept from its first call to
its last one. -/
def Rated (q : RateLimits) (created : ℕ) (cs : List Arrival) : Prop :=
  (admitted (q.limiter created) cs : ℚ) ≤
      q.burst + q.globalQPS * seconds ((created :: cs.map Arrival.now).max?.getD 0 - created) ∧
    ∀ x, NeverPruned x (q.limiter created) cs →
      (admittedOf x (q.limiter created) cs : ℚ) ≤ q.burst + q.clientQPS * seconds (span (timesOf x cs))

/-- **The limiter keeps to its rates** when the calls get its lock in the order of their times. -/
theorem allow_rate (q : RateLimits) (created : ℕ) (hcreated : 0 < created) (cs : List Arrival) (ho : InOrder created cs) :
    Rated q created cs := by
  have hsound := limiter_sound q hcreated
  constructor
  · have hlatest : ∀ t ∈ created :: cs.map Arrival.now, t ≤ (created :: cs.map Arrival.now).max?.getD 0 :=
      fun t ht => List.le_max?_getD_of_mem ht
    have hle := admitted_le hsound ho (fun c hc => hlatest c.now (List.mem_cons_of_mem _ (List.mem_map_of_mem hc)))
      (hlatest created List.mem_cons_self)
    have hgap : seconds ((created :: cs.map Arrival.now).max?.getD 0 - created) =
        seconds ((created :: cs.map Arrival.now).max?.getD 0) - seconds created := by
      rw [seconds, seconds, seconds, Nat.cast_sub (hlatest created List.mem_cons_self)]
      ring
    rw [hgap, mul_comm]
    exact hle
  · intro x hp
    have hmem : ∀ c ∈ cs, c.client = x → c.now ∈ timesOf x cs := by
      intro c hc hx
      exact List.mem_map_of_mem (List.mem_filter.2 ⟨hc, by simpa using hx⟩)
    have hle := admittedOf_le hsound ho hp (fun c hc hx =>
      ⟨List.min?_getD_le_of_mem (hmem c hc hx), List.le_max?_getD_of_mem (hmem c hc hx)⟩) (min_le_max _)
      (by simp [RateLimits.limiter, newRateLimiter])
    rw [seconds_span (min_le_max _), mul_comm]
    exact hle

namespace Sample

/-- The time after so many milliseconds. -/
def at' (ms : ℕ) : ℕ := 10 ^ 9 + ms * 10 ^ 6

def alice : Addr := .v4 1

def bob : Addr := .v4 2

def limits (globalQPS : ℤ) (h : 1 ≤ globalQPS ∧ globalQPS ≤ 100000) (burst : ℤ) (hb : 1 ≤ burst ∧ burst ≤ 100000) :
    RateLimits where
  globalQPS := globalQPS
  clientQPS := 1
  burst := burst
  globalQPS_mem := h
  clientQPS_mem := by decide
  burst_mem := hb

/-- Five clients; every second call comes late. -/
def unordered : List Arrival := [⟨.v4 1, at' 1000⟩, ⟨.v4 2, at' 0⟩, ⟨.v4 3, at' 1000⟩, ⟨.v4 4, at' 0⟩, ⟨.v4 5, at' 1000⟩]

end Sample

open Velora.Dns.RateLimiter.Sample

theorem allow_rate_second :
    Rated (limits 1 (by decide) 1 (by decide)) (at' 0) [⟨alice, at' 0⟩, ⟨bob, at' 0⟩, ⟨alice, at' 1000⟩] :=
  allow_rate (limits 1 (by decide) 1 (by decide)) (at' 0) (by decide) _ (by decide)

/-- A call that comes late with an early time sets the bucket back, and the second that follows runs into it again: three calls
in one second, with a burst of one and a rate of one. -/
theorem allow_rate_unordered : ¬ ∀ (q : RateLimits) (created : ℕ) (cs : List Arrival), 0 < created →
    (∀ c ∈ cs, created ≤ c.now) → Rated q created cs := by
  intro h
  have hall := (h (limits 1 (by decide) 1 (by decide)) (at' 0) unordered (by decide) (by decide)).1
  have hthree : admitted ((limits 1 (by decide) 1 (by decide)).limiter (at' 0)) unordered = 3 := by decide +kernel
  have hsecond : (at' 0 :: unordered.map Arrival.now).max?.getD 0 - at' 0 = 10 ^ 9 := by decide
  rw [hthree, hsecond] at hall
  norm_num [limits, seconds] at hall

/-! ### Isolation -/

/-- The tokens that a call finds in the shared bucket. -/
def found (l : RateLimiter) (now : ℕ) : ℚ := l.global.refilled l.globalRate l.burst now

/-- The call has come to the bucket of its client, which has refused it. -/
def refusedByOwn (l : RateLimiter) (c : Arrival) : Bool :=
  (l.global.take l.globalRate l.burst c.now).1 && !((l.charged c.now).makeRoom c.client c.now).crowded c.client &&
    !(((l.clients.lookup c.client).getD {}).take l.perRate l.burst c.now).1

/-- The calls, with their answers, without those of clients other than `x` that the buckets of these clients have refused. -/
def remaining (x : Addr) : RateLimiter → List Arrival → List (Arrival × Bool)
  | _, [] => []
  | l, c :: cs =>
    if c.client ≠ x && l.refusedByOwn c then remaining x (l.next c) cs
    else (c, (l.allow c.client c.now).1) :: remaining x (l.next c) cs

/-- Without these calls the other ones get the same answers. -/
def Isolated (x : Addr) (l : RateLimiter) (cs : List Arrival) : Prop :=
  l.served ((l.remaining x cs).map Prod.fst) = l.remaining x cs

/-- No call finds the shared bucket without a token that would find one with the `owed` tokens in it, which are those that
calls of other clients than `x` have taken in vain, as far as the bucket has not been full since. -/
def Ample (x : Addr) : ℚ → RateLimiter → List Arrival → Prop
  | _, _, [] => True
  | owed, l, c :: cs =>
    let owed := min owed (l.burst - l.found c.now)
    (l.found c.now < 1 → l.found c.now + owed < 1) ∧
      Ample x (if c.client ≠ x && l.refusedByOwn c then owed + 1 else owed) (l.next c) cs

instance decidableAmple (x : Addr) : ∀ (owed : ℚ) (l : RateLimiter) (cs : List Arrival), Decidable (Ample x owed l cs)
  | _, _, [] => isTrue trivial
  | owed, l, c :: cs =>
    have := decidableAmple x (if c.client ≠ x && l.refusedByOwn c then min owed (l.burst - l.found c.now) + 1
      else min owed (l.burst - l.found c.now)) (l.next c) cs
    inferInstanceAs (Decidable (_ ∧ _))

instance (x : Addr) (l : RateLimiter) (cs : List Arrival) : Decidable (Isolated x l cs) := by
  unfold Isolated
  infer_instance

theorem next_refusedByOwn (h : Sound q t l) (hr : l.refusedByOwn c = true) : l.next c = l.charged c.now ∧
    1 ≤ l.found c.now := by
  have hburst : 1 ≤ l.burst := h.burst ▸ q.one_le_burst
  rw [refusedByOwn, Bool.and_eq_true, Bool.and_eq_true, Bool.not_eq_true', Bool.not_eq_true'] at hr
  obtain ⟨⟨hg, -⟩, hown⟩ := hr
  constructor
  · cases hx : l.clients.lookup c.client with
    | none => simp [hx, Bucket.take_new hburst] at hown
    | some b =>
      rw [hx, Option.getD_some] at hown
      have hroom : (l.charged c.now).makeRoom c.client c.now = l.charged c.now := makeRoom_of_known hx
      have hcrowded : (l.charged c.now).crowded c.client = false := by simp [crowded, hx]
      simp [next, allow, ← charged.eq_def, hg, hx, hroom, hcrowded, hown]
  · by_contra hlt
    rw [not_le] at hlt
    rw [found] at hlt
    simp [Bucket.take, hlt] at hg

theorem makeRoom_with {g : Bucket} {client : Addr} {now : ℕ} :
    { l with global := g }.makeRoom client now = { l.makeRoom client now with global := g } := by
  by_cases h : l.crowded client = true
  · have h' : { l with global := g }.crowded client = true := h
    rw [makeRoom, makeRoom, if_pos h, if_pos h']
    rfl
  · have h' : ¬ { l with global := g }.crowded client = true := h
    rw [makeRoom, makeRoom, if_neg h, if_neg h']

/-- What a call gets depends on the shared bucket only through its answer. -/
theorem allow_global {g : Bucket} (h : (g.take l.globalRate l.burst c.now).1 = (l.global.take l.globalRate l.burst c.now).1) :
    ({ l with global := g }.allow c.client c.now).1 = (l.allow c.client c.now).1 ∧
      { l with global := g }.next c = { l.next c with global := (g.take l.globalRate l.burst c.now).2 } := by
  have hcrowded : ∀ (l : RateLimiter) (g : Bucket), { l with global := g }.crowded c.client = l.crowded c.client :=
    fun _ _ => rfl
  simp only [next, allow, makeRoom_with, hcrowded, h]
  cases (l.global.take l.globalRate l.burst c.now).1
  · exact ⟨rfl, rfl⟩
  · cases (l.makeRoom c.client c.now).crowded c.client
    · simp only [Bool.not_true, Bool.false_eq_true, if_false]
      cases (((l.clients.lookup c.client).getD {}).take (l.makeRoom c.client c.now).perRate
        (l.makeRoom c.client c.now).burst c.now).1
      · exact ⟨rfl, rfl⟩
      · exact ⟨rfl, rfl⟩
    · exact ⟨rfl, rfl⟩

theorem Sound.found_eq (h : Sound q t l) {now : ℕ} (ht : t ≤ now) :
    l.found now = l.global.ideal.level (q.globalQPS : ℚ) q.burst (seconds now) := by
  rw [found, h.globalRate, h.burst]
  exact Bucket.refilled_eq (h.global.later ht) q.one_le_globalQPS q.burst_le

theorem Sound.found_le (h : Sound q t l) {now : ℕ} (ht : t ≤ now) : l.found now ≤ q.burst := by
  rw [h.found_eq ht]
  exact Lib.Bucket.level_le_cap

/-- A limiter and one with the same table whose shared bucket holds `owed` tokens more. -/
structure Twin (q : RateLimits) (t : ℕ) (owed : ℚ) (l l' : RateLimiter) : Prop where
  sound : Sound q t l
  sound' : Sound q t l'
  same : l' = { l with global := l'.global }
  nonneg : 0 ≤ owed
  level : l'.found t = l.found t + owed

section

variable {owed : ℚ} {l' : RateLimiter}

/-- As long as nobody calls, the tokens owed are those that have place in the bucket. -/
theorem Twin.later (h : Twin q t owed l l') {now : ℕ} (ht : t ≤ now) :
    Twin q now (min owed (q.burst - l.found now)) l l' where
  sound := ⟨h.sound.globalRate, h.sound.perRate, h.sound.burst, h.sound.global.later ht,
    fun x b hx => (h.sound.clients x b hx).later ht⟩
  sound' := ⟨h.sound'.globalRate, h.sound'.perRate, h.sound'.burst, h.sound'.global.later ht,
    fun x b hx => (h.sound'.clients x b hx).later ht⟩
  same := h.same
  nonneg := le_min h.nonneg (sub_nonneg.2 (h.sound.found_le ht))
  level := by
    have hlevel := h.level
    rw [h.sound.found_eq (le_refl t), h.sound'.found_eq (le_refl t)] at hlevel
    rw [h.sound.found_eq ht, h.sound'.found_eq ht]
    exact Lib.Bucket.level_owed (zero_le_one.trans q.one_le_globalQPS) (seconds_mono ht) h.nonneg hlevel

/-- The answer of the shared bucket. -/
theorem take_fst_iff {now : ℕ} : (l.global.take l.globalRate l.burst now).1 = true ↔ 1 ≤ l.found now := by
  rw [Bucket.take, ← found.eq_def]
  by_cases h : l.found now < 1
  · simp [h]
  · simp only [if_neg h, true_iff]
    exact not_lt.1 h

/-- What a call leaves in the shared bucket. -/
theorem Sound.found_charged (h : Sound q t l) {now : ℕ} (ht : t ≤ now) :
    (l.charged now).found now = if 1 ≤ l.found now then l.found now - 1 else l.found now := by
  have hnow : (l.global.take l.globalRate l.burst now).2.updated = now := Bucket.take_updated
  have hne : now ≠ 0 := by
    have hused := h.global.used
    have hpast := h.global.past
    omega
  have hsnd : (l.global.take l.globalRate l.burst now).2.tokens =
      if 1 ≤ l.found now then l.found now - 1 else l.found now := by
    rw [Bucket.take, ← found.eq_def]
    split
    · rename_i hlt
      rw [if_neg (not_le.2 hlt)]
    · rename_i hge
      rw [if_pos (not_lt.1 hge)]
  rw [found, charged, Bucket.refilled, hnow, if_pos hne, if_neg (lt_irrefl now), hsnd]

/-- **One call of the full run.** When it is not short of a token that is owed, it gets the same answer without the calls
that are left out, and what is owed stays owed. -/
theorem Twin.next (h : Twin q c.now owed l l') (hok : l.found c.now < 1 → l.found c.now + owed < 1) :
    (l'.allow c.client c.now).1 = (l.allow c.client c.now).1 ∧ Twin q c.now owed (l.next c) (l'.next c) := by
  have hiff : 1 ≤ l'.found c.now ↔ 1 ≤ l.found c.now := by
    rw [h.level]
    constructor
    · intro h1
      by_contra hlt
      exact absurd h1 (not_le.2 (hok (not_le.1 hlt)))
    · intro h1
      linarith [h.nonneg]
  have hrate : l'.globalRate = l.globalRate := h.sound'.globalRate.trans h.sound.globalRate.symm
  have hburst : l'.burst = l.burst := h.sound'.burst.trans h.sound.burst.symm
  have htake : (l'.global.take l.globalRate l.burst c.now).1 = (l.global.take l.globalRate l.burst c.now).1 := by
    rw [Bool.eq_iff_iff, take_fst_iff, ← hiff, ← take_fst_iff, hrate, hburst]
  obtain ⟨hans, hnext⟩ := allow_global htake
  rw [← h.same] at hans hnext
  refine ⟨hans, next_sound h.sound (le_refl _), next_sound h.sound' (le_refl _), ?_, h.nonneg, ?_⟩
  · rw [hnext]
  · have hfound : ∀ {l : RateLimiter}, Sound q c.now l → (l.next c).found c.now = (l.charged c.now).found c.now := by
      intro l hs
      have hout := hs.outcome c
      obtain ⟨hg, -, hb⟩ := hout.rates
      rw [found, found, hg, hb, hout.charges.1]
      rfl
    rw [hfound h.sound, hfound h.sound', h.sound.found_charged (le_refl _), h.sound'.found_charged (le_refl _)]
    by_cases h1 : 1 ≤ l.found c.now
    · rw [if_pos h1, if_pos (hiff.2 h1), h.level]
      ring
    · rw [if_neg h1, if_neg (fun h1' => h1 (hiff.1 h1')), h.level]

/-- **One call that is left out**: the token that it has taken is owed. -/
theorem Twin.refused (h : Twin q c.now owed l l') (hr : l.refusedByOwn c = true) : Twin q c.now (owed + 1) (l.next c) l' := by
  obtain ⟨hnext, h1⟩ := next_refusedByOwn h.sound hr
  refine ⟨next_sound h.sound (le_refl _), h.sound', ?_, by linarith [h.nonneg], ?_⟩
  · rw [hnext, h.same]
    rfl
  · rw [hnext, h.sound.found_charged (le_refl _), if_pos h1, h.level]
    ring

/-- **The run without these calls.** -/
theorem Twin.served (h : Twin q t owed l l') (ho : InOrder t cs) (ha : Ample x owed l cs) :
    l'.served ((l.remaining x cs).map Prod.fst) = l.remaining x cs := by
  induction cs generalizing t owed l l' with
  | nil => rfl
  | cons c cs ih =>
    obtain ⟨htc, hrest⟩ := inOrder_cons.1 ho
    obtain ⟨hok, ha⟩ := ha
    have hlater := h.later htc
    rw [← h.sound.burst] at hlater
    rw [RateLimiter.remaining]
    split
    · rename_i hr
      rw [if_pos hr] at ha
      rw [Bool.and_eq_true] at hr
      exact ih (hlater.refused hr.2) hrest ha
    · rename_i hr
      rw [if_neg hr] at ha
      obtain ⟨hans, hnext⟩ := hlater.next hok
      rw [List.map_cons, RateLimiter.served, hans, ih hnext hrest ha]

end

/-! ### The table -/

@[simp] theorem makeRoom_maxItems {client : Addr} {now : ℕ} : (l.makeRoom client now).maxItems = l.maxItems := by
  unfold makeRoom
  split <;> rfl

theorem makeRoom_length {client : Addr} {now : ℕ} :
    (l.makeRoom client now).clients.keys.length ≤ l.clients.keys.length := by
  unfold makeRoom
  split
  · simp only [prune, AList.keys, List.keys, List.length_map]
    exact List.length_filter_le _ _
  · exact le_refl _

/-- **One call and the table.** -/
theorem next_clients (h : l.clients.keys.length ≤ l.maxItems) :
    (l.next c).clients.keys.length ≤ (l.next c).maxItems ∧ (l.next c).maxItems = l.maxItems := by
  have hroom : ((l.charged c.now).makeRoom c.client c.now).clients.keys.length ≤ l.maxItems := makeRoom_length.trans h
  have hmax : ((l.charged c.now).makeRoom c.client c.now).maxItems = l.maxItems := makeRoom_maxItems
  simp only [next, allow, ← charged.eq_def]
  split
  · exact ⟨h, rfl⟩
  split
  · exact ⟨hroom.trans (le_of_eq hmax.symm), hmax⟩
  · rename_i hc
    split
    · exact ⟨hroom.trans (le_of_eq hmax.symm), hmax⟩
    · refine ⟨?_, hmax⟩
      dsimp only
      rw [hmax, AList.keys_insert, List.length_cons]
      by_cases hmem : c.client ∈ ((l.charged c.now).makeRoom c.client c.now).clients.keys
      · -- the client has a place in the table
        have hpos := List.length_pos_of_mem hmem
        rw [List.length_erase_of_mem hmem]
        omega
      · -- there is one left
        rw [List.erase_of_not_mem hmem]
        have hnone : ((l.charged c.now).makeRoom c.client c.now).clients.lookup c.client = none :=
          AList.lookup_eq_none.2 hmem
        simp only [crowded, hnone, Option.isNone_none, Bool.true_and, decide_eq_true_eq, not_le, hmax] at hc
        exact hc

theorem after_clients (h : l.clients.keys.length ≤ l.maxItems) :
    (l.after cs).clients.keys.length ≤ (l.after cs).maxItems := by
  induction cs generalizing l with
  | nil => exact h
  | cons c cs ih => exact ih (next_clients h).1

end RateLimiter

end Velora.Dns
