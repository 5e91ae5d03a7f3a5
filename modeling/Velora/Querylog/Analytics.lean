import Velora.Lib.Grouping
import Velora.Querylog.History

/-!
# What the history tells

`internal/database/analytics.go` and the rankings of `query_log.go` and `clients.go`. `QueryAnalytics` counts the rows of a window
in buckets of a minute, an hour or a day; it never computes with the times of the rows, but groups them by the first characters of
the text. Each bucket has the rows of its interval all the same, and the totals are what the buckets add up to
(`analytics_exact`).
-/

namespace Velora.Querylog.History

open Velora.Lib Velora.Lib.Text Velora.Lib.Stamp Velora.Lib.Grouping

/-! ### Counters -/

/-- `AnalyticsBucket` but for its start. The average is `micros` by `timed`. -/
@[ext]
structure Counters where
  total : ℕ
  blocked : ℕ
  cached : ℕ
  failed : ℕ
  micros : ℤ
  timed : ℕ
  deriving DecidableEq

namespace Counters

instance : Zero Counters := ⟨⟨0, 0, 0, 0, 0, 0⟩⟩

instance : Add Counters :=
  ⟨fun a b => ⟨a.total + b.total, a.blocked + b.blocked, a.cached + b.cached, a.failed + b.failed, a.micros + b.micros,
    a.timed + b.timed⟩⟩

theorem add_def (a b : Counters) : a + b = ⟨a.total + b.total, a.blocked + b.blocked, a.cached + b.cached, a.failed + b.failed,
    a.micros + b.micros, a.timed + b.timed⟩ := rfl

theorem zero_def : (0 : Counters) = ⟨0, 0, 0, 0, 0, 0⟩ := rfl

instance : AddCommMonoid Counters where
  add_assoc a b c := by ext <;> simp [add_def, add_assoc]
  zero_add a := by ext <;> simp [add_def, zero_def]
  add_zero a := by ext <;> simp [add_def, zero_def]
  add_comm a b := by ext <;> simp [add_def, add_comm]
  nsmul := nsmulRec

end Counters

/-- `failedCondition` -/
def Row.failed (r : Row) : Bool := r.responseCode = "SERVFAIL".toList

/-- The query was answered by an upstream. -/
def Row.timed (r : Row) : Bool := r.source = "upstream".toList ∧ ¬ r.failed

/-- What a row counts for. -/
def Row.counters (r : Row) : Counters where
  total := 1
  blocked := if r.source = "blocked".toList then 1 else 0
  cached := if r.source = "cache".toList then 1 else 0
  failed := if r.failed then 1 else 0
  micros := if r.timed then r.durationMicros else 0
  timed := if r.timed then 1 else 0

def counters (rows : List Row) : Counters := (rows.map Row.counters).sum

/-- The most frequent values of a column. -/
def ranking (column : Row → Str) (limit : ℕ) (rows : List Row) : List (Str × ℕ) :=
  (top column limit rows).map (fun g => (g.1, g.2.length))

/-! ### Analytics -/

/-- `AnalyticsRange`; the grain is its `Bucket`, and the length of the text that tells it. -/
structure AnalyticsRange where
  window : ℕ
  grain : Grain

namespace AnalyticsRange

variable (spec : AnalyticsRange)

def count : ℕ := spec.window / spec.grain.nanos

/-- The start of the window that ends at `now`. -/
def start (now : ℕ) : ℕ := now / spec.grain.nanos * spec.grain.nanos - (spec.count - 1) * spec.grain.nanos

end AnalyticsRange

def hour : ℕ := 3600 * 1000000000

/-- `AnalyticsRanges` -/
def analyticsRanges (name : Str) : Option AnalyticsRange :=
  if name = "1h".toList then some ⟨hour, .minute⟩
  else if name = "24h".toList then some ⟨24 * hour, .hour⟩
  else if name = "7d".toList then some ⟨7 * 24 * hour, .hour⟩
  else if name = "30d".toList then some ⟨30 * 24 * hour, .day⟩
  else none

/-- `querylog.AnalyticsBucket` -/
structure AnalyticsBucket where
  start : ℕ
  counters : Counters
  deriving DecidableEq

/-- `querylog.UpstreamUsage`; the average is `micros` by the queries that have not failed. -/
structure UpstreamUsage where
  address : Str
  queries : ℕ
  failed : ℕ
  micros : ℤ
  deriving DecidableEq

/-- `querylog.Analytics` -/
structure Analytics where
  range : Str
  windowStart : ℕ
  windowEnd : ℕ
  bucketSeconds : ℕ
  historyStart : Option ℕ
  totals : AnalyticsBucket
  series : List AnalyticsBucket
  queryTypes : List (Str × ℕ) := []
  responseCodes : List (Str × ℕ) := []
  sources : List (Str × ℕ) := []
  topBlocked : List (Str × ℕ) := []
  upstreams : List UpstreamUsage := []
  deriving DecidableEq

def Row.blocked (r : Row) : Bool := r.source = "blocked".toList

/-- An upstream was asked, and it is known which. -/
def Row.asked (r : Row) : Bool := r.source = "upstream".toList ∧ r.upstream ≠ []

def usage (g : Str × List Row) : UpstreamUsage where
  address := g.1
  queries := g.2.length
  failed := g.2.countP Row.failed
  micros := (g.2.map (fun r => if r.failed then 0 else r.durationMicros)).sum

/-- Where the bucket of a text is, if it is one of the window. -/
def bucketIndex (spec : AnalyticsRange) (start : ℕ) (key : Str) : Option ℕ :=
  match parse spec.grain.read key with
  | none => none
  | some at' =>
    let i := ((at' * spec.grain.nanos : ℕ) - start : ℤ).tdiv spec.grain.nanos
    if 0 ≤ i ∧ i < spec.count then some i.toNat else none

/-- The first characters of the time. -/
def bucketKey (g : Grain) (r : Row) : Str := r.occurredAt.take g.width

/-- `querylog.Summary` -/
structure Summary where
  windowStart : ℕ
  windowEnd : ℕ
  total : ℕ
  blocked : ℕ
  topDomains : List (Str × ℕ)
  topClients : List (Str × ℕ)
  deriving DecidableEq

/-- `unknown analytics range` -/
structure UnknownRange where
  name : Str

namespace Table

variable (t : Table)

/-- The rows from one instant on and before another. -/
def window (start stop : ℕ) : List Row := t.rows.filter (fun r => ¬ r.occurredAt < fixed start ∧ r.occurredAt < fixed stop)

/-- `QueryAnalytics` for a range that is known. -/
def analytics (name : Str) (spec : AnalyticsRange) (now : ℕ) : Analytics :=
  let start := spec.start now
  let rows := t.window start (now + 1)
  let totals := counters rows
  let buckets : List Counters → List AnalyticsBucket := List.mapIdx (fun i c => ⟨start + i * spec.grain.nanos, c⟩)
  let result : Analytics :=
    { range := name
      windowStart := start
      windowEnd := now
      bucketSeconds := spec.grain.nanos / 1000000000
      historyStart := (t.rows.map Row.occurredAt).min?.bind (parse readNano)
      totals := ⟨start, totals⟩
      series := buckets (List.replicate spec.count 0) }
  if totals.total = 0 then result
  else
    { result with
      series := buckets (place (bucketIndex spec start) (fun k => counters (group (bucketKey spec.grain) rows k))
        (List.replicate spec.count 0) (rows.map (bucketKey spec.grain)).dedup)
      queryTypes := ranking Row.queryType 12 rows
      responseCodes := ranking Row.responseCode 8 rows
      sources := ranking Row.source 8 rows
      topBlocked := ranking Row.domain 10 (rows.filter Row.blocked)
      upstreams := (top Row.upstream 10 (rows.filter Row.asked)).map usage }

/-- `QueryAnalytics` -/
def queryAnalytics (name : Str) (now : ℕ) : Except UnknownRange Analytics :=
  match analyticsRanges name with
  | none => .error ⟨name⟩
  | some spec => .ok (t.analytics name spec now)

/-- `QuerySummary`; the start has to be before the end. -/
def querySummary (start stop : ℕ) (limit : ℤ) : Except String Summary :=
  if ¬ start < stop ∨ limit < 1 ∨ limit > 50 then .error "invalid query summary bounds"
  else
    let rows := t.window start stop
    .ok ⟨start, stop, rows.length, rows.countP Row.blocked, ranking Row.domain limit.toNat rows, ranking Row.clientIP limit.toNat rows⟩

end Table

/-! ### What is counted -/

variable {t : Table} {r : Row} {spec : AnalyticsRange} {now : ℕ}

/-- When the query was answered. -/
abbrev Row.time (r : Row) : ℕ := r.entry.occurredAt

theorem text_of_mem (h : r ∈ t.rows) : r.occurredAt = fixed r.time ∧ year r.time < 10 ^ 4 := by
  obtain ⟨e, he⟩ := t.logged r h
  have htext : r.occurredAt = fixed e.entry.occurredAt := by
    rw [he]
    rfl
  have htime : r.time = e.entry.occurredAt := by
    rw [Row.time, Row.entry, htext, parse_fixed e.year_lt]
    rfl
  rw [htime]
  exact ⟨htext, e.year_lt⟩

/-- The window by the times. -/
theorem window_eq {start stop : ℕ} (hstart : year start < 10 ^ 4) (hstop : year stop < 10 ^ 4) :
    t.window start stop = t.rows.filter (fun r => start ≤ r.time ∧ r.time < stop) := by
  refine List.filter_congr fun r hr => decide_eq_decide.2 ?_
  obtain ⟨htext, hyear⟩ := text_of_mem hr
  rw [htext, fixed_lt hyear hstart, fixed_lt hyear hstop, not_lt]

theorem counters_total (rows : List Row) : (counters rows).total = rows.length := by
  induction rows with
  | nil => rfl
  | cons r rows ih =>
    rw [counters, List.map_cons, List.sum_cons, ← counters, Counters.add_def, List.length_cons, ih, Row.counters, Nat.add_comm]

theorem analyticsRanges_spec {name : Str} (h : analyticsRanges name = some spec) :
    0 < spec.count ∧ spec.count * spec.grain.nanos = spec.window := by
  unfold analyticsRanges at h
  split_ifs at h <;> obtain rfl := Option.some.inj h <;> decide

/-- The window starts with a bucket. -/
theorem start_eq (spec : AnalyticsRange) (now : ℕ) :
    spec.start now = (now / spec.grain.nanos - (spec.count - 1)) * spec.grain.nanos := (Nat.sub_mul ..).symm

theorem start_le (spec : AnalyticsRange) (now : ℕ) : spec.start now ≤ now :=
  (Nat.sub_le _ _).trans (Nat.div_mul_le_self _ _)

/-- An instant of the window is in the interval of a bucket if it is so many buckets behind the start. -/
theorem bucket_iff {time i : ℕ} (hlo : spec.start now ≤ time) :
    time / spec.grain.nanos - spec.start now / spec.grain.nanos = i ↔
      spec.start now + i * spec.grain.nanos ≤ time ∧ time < spec.start now + (i + 1) * spec.grain.nanos := by
  have hle : spec.start now / spec.grain.nanos ≤ time / spec.grain.nanos := Nat.div_le_div_right hlo
  have hpos := spec.grain.nanos_pos
  rw [start_eq, Nat.mul_div_cancel _ hpos] at hle ⊢
  rw [← Nat.add_mul, ← Nat.add_mul, ← Nat.le_div_iff_mul_le hpos, ← Nat.div_lt_iff_lt_mul hpos]
  omega

section

variable (hcount : 0 < spec.count) (hnow : spec.count - 1 ≤ now / spec.grain.nanos)

include hcount hnow

/-- It is one of the buckets, -/
theorem bucket_lt {time : ℕ} (hhi : time ≤ now) : time / spec.grain.nanos - spec.start now / spec.grain.nanos < spec.count := by
  have hle : time / spec.grain.nanos ≤ now / spec.grain.nanos := Nat.div_le_div_right hhi
  rw [start_eq, Nat.mul_div_cancel _ spec.grain.nanos_pos]
  omega

/-- and its text tells which. -/
theorem bucketIndex_text {time : ℕ} (hyear : year time < 10 ^ 4) (hlo : spec.start now ≤ time) (hhi : time ≤ now) :
    bucketIndex spec (spec.start now) ((fixed time).take spec.grain.width) =
      some (time / spec.grain.nanos - spec.start now / spec.grain.nanos) := by
  have hlt := bucket_lt hcount hnow hhi
  have hle : spec.start now / spec.grain.nanos ≤ time / spec.grain.nanos := Nat.div_le_div_right hlo
  have hdiv : (((time / spec.grain.nanos * spec.grain.nanos : ℕ) : ℤ) - spec.start now).tdiv spec.grain.nanos =
      ((time / spec.grain.nanos - spec.start now / spec.grain.nanos : ℕ) : ℤ) := by
    have hstart : spec.start now = spec.start now / spec.grain.nanos * spec.grain.nanos := by
      rw [start_eq, Nat.mul_div_cancel _ spec.grain.nanos_pos]
    rw [← Nat.cast_sub (hstart ▸ Nat.mul_le_mul_right _ hle), hstart, ← Nat.sub_mul, ← Int.ofNat_tdiv,
      Nat.mul_div_cancel _ spec.grain.nanos_pos, Nat.mul_div_cancel _ spec.grain.nanos_pos]
  rw [bucketIndex, take_fixed hyear, parse_text hyear]
  dsimp only
  rw [hdiv, if_pos ⟨Int.natCast_nonneg _, by exact_mod_cast hlt⟩, Int.toNat_natCast]

end

/-- The rows of the window in a bucket. -/
def Table.bucket (t : Table) (spec : AnalyticsRange) (now i : ℕ) : List Row :=
  t.rows.filter (fun r => spec.start now + i * spec.grain.nanos ≤ r.time ∧ r.time < spec.start now + (i + 1) * spec.grain.nanos ∧
    r.time ≤ now)

theorem start_year (hyear : year (now + 1) < 10 ^ 4) : year (spec.start now) < 10 ^ 4 :=
  (year_mono ((start_le spec now).trans (Nat.le_succ now))).trans_lt hyear

/-- The rows in a bucket are those of the window that are so many buckets behind the start. -/
theorem bucket_eq (hyear : year (now + 1) < 10 ^ 4) (i : ℕ) : t.bucket spec now i =
    (t.window (spec.start now) (now + 1)).filter
      (fun r => r.time / spec.grain.nanos - spec.start now / spec.grain.nanos = i) := by
  rw [window_eq (start_year hyear) hyear, List.filter_filter]
  refine List.filter_congr fun r hr => ?_
  rw [Bool.eq_iff_iff, Bool.and_eq_true, decide_eq_true_eq, decide_eq_true_eq, decide_eq_true_eq]
  constructor
  · rintro ⟨hlo, hhi, hnow⟩
    have hstart : spec.start now ≤ r.time := (Nat.le_add_right _ _).trans hlo
    exact ⟨(bucket_iff hstart).2 ⟨hlo, hhi⟩, hstart, Nat.lt_succ_of_le hnow⟩
  · rintro ⟨hindex, hstart, hnow⟩
    obtain ⟨hlo, hhi⟩ := (bucket_iff hstart).1 hindex
    exact ⟨hlo, hhi, Nat.le_of_lt_succ hnow⟩

/-- What is known of a row of the window. -/
theorem of_mem_window (hyear : year (now + 1) < 10 ^ 4) (h : r ∈ t.window (spec.start now) (now + 1)) :
    r.occurredAt = fixed r.time ∧ year r.time < 10 ^ 4 ∧ spec.start now ≤ r.time ∧ r.time ≤ now := by
  rw [window_eq (start_year hyear) hyear, List.mem_filter, decide_eq_true_eq] at h
  obtain ⟨htext, hlt⟩ := text_of_mem h.1
  exact ⟨htext, hlt, h.2.1, Nat.le_of_lt_succ h.2.2⟩

/-- The series without a case for an empty window. -/
def fullSeries (t : Table) (spec : AnalyticsRange) (now : ℕ) : List Counters :=
  place (bucketIndex spec (spec.start now))
    (fun k => counters (group (bucketKey spec.grain) (t.window (spec.start now) (now + 1)) k)) (List.replicate spec.count 0)
    ((t.window (spec.start now) (now + 1)).map (bucketKey spec.grain)).dedup

section

variable (hcount : 0 < spec.count) (hnow : spec.count - 1 ≤ now / spec.grain.nanos) (hyear : year (now + 1) < 10 ^ 4)

include hcount hnow hyear

/-- The rows of one text are those of its bucket. -/
theorem group_eq {i : ℕ} (hr : r ∈ t.window (spec.start now) (now + 1))
    (hindex : bucketIndex spec (spec.start now) (bucketKey spec.grain r) = some i) :
    group (bucketKey spec.grain) (t.window (spec.start now) (now + 1)) (bucketKey spec.grain r) = t.bucket spec now i := by
  obtain ⟨htext, hlt, hlo, hhi⟩ := of_mem_window hyear hr
  rw [bucketKey, htext, bucketIndex_text hcount hnow hlt hlo hhi, Option.some.injEq] at hindex
  rw [bucket_eq hyear, group]
  refine List.filter_congr fun r' hr' => ?_
  obtain ⟨htext', hlt', hlo', -⟩ := of_mem_window hyear hr'
  have hle : spec.start now / spec.grain.nanos ≤ r.time / spec.grain.nanos := Nat.div_le_div_right hlo
  have hle' : spec.start now / spec.grain.nanos ≤ r'.time / spec.grain.nanos := Nat.div_le_div_right hlo'
  refine decide_eq_decide.2 ?_
  rw [bucketKey, bucketKey, htext, htext', take_fixed hlt, take_fixed hlt', text_inj hlt' hlt]
  omega

theorem fullSeries_get {i : ℕ} (hi : i < spec.count) : (fullSeries t spec now)[i]? = some (counters (t.bucket spec now i)) := by
  let target := fun i => counters (t.bucket spec now i)
  change (fullSeries t spec now)[i]? = some (target i)
  refine place_spec (by rwa [List.length_replicate]) (fun k hk hindex => ?_) fun hnone => ?_
  · obtain ⟨r, hr, rfl⟩ := List.mem_map.1 (List.mem_dedup.1 hk)
    rw [group_eq hcount hnow hyear hr hindex]
  · have hempty : t.bucket spec now i = [] := by
      rw [bucket_eq hyear, List.filter_eq_nil_iff]
      intro r hr hi
      obtain ⟨htext, hlt, hlo, hhi⟩ := of_mem_window hyear hr
      refine hnone (bucketKey spec.grain r) (List.mem_dedup.2 (List.mem_map_of_mem hr)) ?_
      rw [bucketKey, htext, bucketIndex_text hcount hnow hlt hlo hhi, of_decide_eq_true hi]
    change _ = some (counters (t.bucket spec now i))
    rw [hempty, List.getElem?_replicate, if_pos hi]
    rfl

/-- What all buckets have is what the window has. -/
theorem sum_buckets : ∑ i ∈ Finset.range spec.count, counters (t.bucket spec now i) =
    counters (t.window (spec.start now) (now + 1)) := by
  rw [Finset.sum_congr rfl fun i _ => congrArg counters (bucket_eq hyear i)]
  exact sum_places Row.counters (fun r => r.time / spec.grain.nanos - spec.start now / spec.grain.nanos) fun r hr =>
    bucket_lt hcount hnow (of_mem_window hyear hr).2.2.2

end

/-! ### The results -/

/-- The earliest time of all rows, if there are any. -/
structure IsHistoryStart (t : Table) (found : Option ℕ) : Prop where
  none_iff : found = none ↔ t.rows = []
  least : ∀ h ∈ found, (∃ r ∈ t.rows, r.time = h) ∧ ∀ r ∈ t.rows, h ≤ r.time

theorem historyStart_spec (t : Table) : IsHistoryStart t ((t.rows.map Row.occurredAt).min?.bind (parse readNano)) := by
  cases hmin : (t.rows.map Row.occurredAt).min? with
  | none =>
    have hrows : t.rows = [] := List.map_eq_nil_iff.1 (List.min?_eq_none_iff.1 hmin)
    exact ⟨⟨fun _ => hrows, fun _ => rfl⟩, fun h hh => by cases hh⟩
  | some text =>
    obtain ⟨hmem, hleast⟩ := List.min?_eq_some_iff.1 hmin
    obtain ⟨r, hr, rfl⟩ := List.mem_map.1 hmem
    obtain ⟨htext, hyear⟩ := text_of_mem hr
    have hparse : parse readNano r.occurredAt = some r.time := by rw [htext, parse_fixed hyear]
    rw [Option.bind_some, hparse]
    refine ⟨⟨fun h => absurd h (Option.some_ne_none _), fun h => absurd hr (by rw [h]; exact List.not_mem_nil)⟩, fun h hh => ?_⟩
    obtain rfl := Option.some.inj hh
    refine ⟨⟨r, hr, rfl⟩, fun r' hr' => ?_⟩
    have hle := hleast _ (List.mem_map_of_mem hr')
    obtain ⟨htext', hyear'⟩ := text_of_mem hr'
    rw [htext, htext'] at hle
    exact not_lt.1 fun hlt => not_lt.2 hle ((fixed_lt hyear' hyear).2 hlt)

/-- The most frequent values of a column, with how often they are there. -/
def IsRanking (column : Row → Str) (limit : ℕ) (rows : List Row) (found : List (Str × ℕ)) : Prop :=
  ∃ groups, IsTop column limit rows groups ∧ found = groups.map (fun g => (g.1, g.2.length))

theorem ranking_spec (column : Row → Str) (limit : ℕ) (rows : List Row) :
    IsRanking column limit rows (ranking column limit rows) := ⟨_, top_spec column limit rows, rfl⟩

/-- What `QueryAnalytics` promises. -/
structure Analytics.Exact (a : Analytics) (t : Table) (spec : AnalyticsRange) (now : ℕ) : Prop where
  windowStart : a.windowStart = spec.start now
  series_length : a.series.length = spec.count
  series_get : ∀ i < spec.count, a.series[i]? =
    some ⟨spec.start now + i * spec.grain.nanos, counters (t.bucket spec now i)⟩
  totals : a.totals = ⟨spec.start now, (a.series.map AnalyticsBucket.counters).sum⟩
  total : a.totals.counters.total = (t.rows.filter (fun r => spec.start now ≤ r.time ∧ r.time ≤ now)).length
  historyStart : IsHistoryStart t a.historyStart
  queryTypes : IsRanking Row.queryType 12 (t.window (spec.start now) (now + 1)) a.queryTypes
  responseCodes : IsRanking Row.responseCode 8 (t.window (spec.start now) (now + 1)) a.responseCodes
  sources : IsRanking Row.source 8 (t.window (spec.start now) (now + 1)) a.sources
  topBlocked : IsRanking Row.domain 10 ((t.window (spec.start now) (now + 1)).filter Row.blocked) a.topBlocked
  upstreams : ∃ groups, IsTop Row.upstream 10 ((t.window (spec.start now) (now + 1)).filter Row.asked) groups ∧
    a.upstreams = groups.map usage

theorem top_nil {κ : Type} [LinearOrder κ] (key : Row → κ) (limit : ℕ) : top key limit [] = [] := by
  rw [top, groups, List.map_nil, List.dedup_nil, List.map_nil, List.mergeSort_nil, List.take_nil]

/-- An empty window is no special case. -/
theorem analytics_eq (t : Table) (name : Str) (spec : AnalyticsRange) (now : ℕ) : t.analytics name spec now =
    { range := name
      windowStart := spec.start now
      windowEnd := now
      bucketSeconds := spec.grain.nanos / 1000000000
      historyStart := (t.rows.map Row.occurredAt).min?.bind (parse readNano)
      totals := ⟨spec.start now, counters (t.window (spec.start now) (now + 1))⟩
      series := (fullSeries t spec now).mapIdx (fun i c => ⟨spec.start now + i * spec.grain.nanos, c⟩)
      queryTypes := ranking Row.queryType 12 (t.window (spec.start now) (now + 1))
      responseCodes := ranking Row.responseCode 8 (t.window (spec.start now) (now + 1))
      sources := ranking Row.source 8 (t.window (spec.start now) (now + 1))
      topBlocked := ranking Row.domain 10 ((t.window (spec.start now) (now + 1)).filter Row.blocked)
      upstreams := (top Row.upstream 10 ((t.window (spec.start now) (now + 1)).filter Row.asked)).map usage } := by
  rw [Table.analytics]
  dsimp only
  split
  · rename_i hzero
    rw [counters_total, List.length_eq_zero_iff] at hzero
    simp only [fullSeries, hzero, List.map_nil, List.dedup_nil, place, List.foldl_nil, List.filter_nil, ranking, top_nil]
  · rfl

/-- **The analytics are exact.** The window has as many whole buckets as the range says, the last one up to `now`; each bucket
counts the rows of its interval, the totals are the sums of the buckets, and the rankings are those of the window. -/
theorem analytics_exact (t : Table) (name : Str) (spec : AnalyticsRange) (now : ℕ) (hspec : analyticsRanges name = some spec)
    (hwindow : spec.window ≤ now) (hyear : year (now + 1) < 10 ^ 4) :
    ∃ a, t.queryAnalytics name now = .ok a ∧ a.Exact t spec now := by
  obtain ⟨hcount, hbuckets⟩ := analyticsRanges_spec hspec
  have hnow : spec.count - 1 ≤ now / spec.grain.nanos := by
    refine (Nat.sub_le _ _).trans ((Nat.le_div_iff_mul_le spec.grain.nanos_pos).2 ?_)
    rw [hbuckets]
    exact hwindow
  have hlength : (fullSeries t spec now).length = spec.count := by rw [fullSeries, place_length, List.length_replicate]
  refine ⟨t.analytics name spec now, by rw [Table.queryAnalytics, hspec], ?_⟩
  rw [analytics_eq]
  refine ⟨rfl, ?_, fun i hi => ?_, ?_, ?_, historyStart_spec t, ranking_spec _ _ _, ranking_spec _ _ _, ranking_spec _ _ _,
    ranking_spec _ _ _, _, top_spec _ _ _, rfl⟩
  · rw [List.length_mapIdx, hlength]
  · rw [List.getElem?_mapIdx, fullSeries_get hcount hnow hyear hi]
    rfl
  · have hseries : (fullSeries t spec now).mapIdx (fun i c => (⟨spec.start now + i * spec.grain.nanos, c⟩ : AnalyticsBucket)) =
        (List.range spec.count).map (fun i => ⟨spec.start now + i * spec.grain.nanos, counters (t.bucket spec now i)⟩) := by
      refine List.ext_getElem? fun i => ?_
      rw [List.getElem?_mapIdx, List.getElem?_map]
      rcases lt_or_ge i spec.count with hi | hi
      · rw [fullSeries_get hcount hnow hyear hi, List.getElem?_range hi]
        rfl
      · rw [List.getElem?_eq_none (hlength ▸ hi), List.getElem?_eq_none (by rwa [List.length_range])]
        rfl
    rw [hseries, List.map_map, ← sum_buckets hcount hnow hyear]
    rfl
  · rw [counters_total, window_eq (start_year hyear) hyear]
    simp only [Nat.lt_succ_iff]

open Example in
theorem analytics_exact_hour : ∃ a, ((({} : Table).insert early).insert late).queryAnalytics "1h".toList hour = .ok a ∧
    a.totals.counters.total = 2 := by
  obtain ⟨a, ha, hexact⟩ := analytics_exact ((({} : Table).insert early).insert late) "1h".toList ⟨hour, .minute⟩ hour rfl
    (by decide) (by decide)
  exact ⟨a, ha, hexact.total.trans (by decide +kernel)⟩

/-- **The summary is exact**, too. -/
theorem summary_exact (t : Table) (start stop : ℕ) (limit : ℤ) (hbounds : start < stop ∧ 1 ≤ limit ∧ limit ≤ 50)
    (hyear : year stop < 10 ^ 4) : ∃ found, t.querySummary start stop limit = .ok found ∧
      found.total = (t.rows.filter (fun r => start ≤ r.time ∧ r.time < stop)).length ∧
      found.blocked = (t.rows.filter (fun r => start ≤ r.time ∧ r.time < stop)).countP Row.blocked ∧
      IsRanking Row.domain limit.toNat (t.rows.filter (fun r => start ≤ r.time ∧ r.time < stop)) found.topDomains ∧
      IsRanking Row.clientIP limit.toNat (t.rows.filter (fun r => start ≤ r.time ∧ r.time < stop)) found.topClients := by
  have hwindow : t.window start stop = t.rows.filter (fun r => start ≤ r.time ∧ r.time < stop) :=
    window_eq ((year_mono hbounds.1.le).trans_lt hyear) hyear
  refine ⟨_, if_neg (by omega), ?_⟩
  rw [← hwindow]
  exact ⟨rfl, rfl, ranking_spec _ _ _, ranking_spec _ _ _⟩

end Velora.Querylog.History
