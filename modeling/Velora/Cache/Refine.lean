import Velora.Cache.Inv

/-!
# The cache is a bounded map in order of use

The ideal is the map of `Velora.Lib.Lru` with the tuple of a query as its key. Each operation of the cache is an action
of the ideal (`act`), and `Refines` is kept by every operation (`refines_exec`), so that a run of the cache is a history
of the ideal (`refines_run`). `run_lruSpec` reads off what that means: which keys are held, how many, what a lookup
returns in terms of the history alone, and what an insertion into a full cache removes.
-/

namespace Velora.Cache

open Velora.Lib Velora.Lib.Text Velora.Wire Velora.Dns

/-! ### Keys -/

/-- What a key is made of. -/
structure Tuple where
  name : Str
  qtype : UInt16
  qclass : UInt16
  rd : Bool
  cd : Bool
  dnssecOK : Bool
  deriving DecidableEq

/-- The tuple of a query. -/
def tuple (q : Msg) : Tuple :=
  ⟨lower q.question0.name, q.question0.qtype, q.question0.qclass, q.recursionDesired, q.checkingDisabled, (keyDO q).1⟩

def Tuple.text (t : Tuple) : Str := format t.name t.qtype t.qclass t.rd t.cd t.dnssecOK

/-- The formatted key determines its tuple, whatever characters the name holds: the five fields after it do not
contain the separator. -/
theorem Tuple.text_inj {t u : Tuple} (h : t.text = u.text) : t = u := by
  have hd : ∀ n, '/' ∉ decimal n := fun n => notMem_decimal (by decide) n
  -- the fields are split off from the right
  have hassoc : ∀ v : Tuple, v.text = ((((v.name ++ '/' :: decimal v.qtype.toNat) ++ '/' :: decimal v.qclass.toNat) ++
      '/' :: truth v.rd) ++ '/' :: truth v.cd) ++ '/' :: truth v.dnssecOK := by
    intro v
    simp [Tuple.text, format]
  rw [hassoc, hassoc] at h
  obtain ⟨h, h6⟩ := append_sep_inj (notMem_truth _) (notMem_truth _) h
  obtain ⟨h, h5⟩ := append_sep_inj (notMem_truth _) (notMem_truth _) h
  obtain ⟨h, h4⟩ := append_sep_inj (notMem_truth _) (notMem_truth _) h
  obtain ⟨h, h3⟩ := append_sep_inj (hd _) (hd _) h
  obtain ⟨h1, h2⟩ := append_sep_inj (hd _) (hd _) h
  obtain ⟨tn, tt, tc, trd, tcd, tdo⟩ := t
  obtain ⟨un, ut, uc, urd, ucd, udo⟩ := u
  have ht : tt = ut := UInt16.toNat_inj.1 (decimal_inj h2)
  have hc : tc = uc := UInt16.toNat_inj.1 (decimal_inj h3)
  simp only [Tuple.mk.injEq]
  exact ⟨h1, ht, hc, truth_inj h4, truth_inj h5, truth_inj h6⟩

theorem key_eq_some {q : Msg} {k : Str} (h : key q = some k) : k = (tuple q).text := by
  unfold key at h
  split at h
  · cases h
  · exact (Option.some.inj h).symm

/-- Two queries share a key exactly when their tuples are equal. -/
theorem key_eq_iff {q q' : Msg} {k k' : Str} (h : key q = some k) (h' : key q' = some k') :
    k = k' ↔ tuple q = tuple q' := by
  rw [key_eq_some h, key_eq_some h']
  exact ⟨Tuple.text_inj, fun h => by rw [h]⟩

/-! ### The ideal -/

/-- What the ideal stores: a message and the time it was stored. -/
structure Kept where
  message : Msg
  stored : ℕ

abbrev Bound := Lru.Binding Tuple Kept

/-- The entry of the cache for a binding of the ideal. -/
def entry (b : Bound) : Entry := ⟨b.key.text, b.val.message, b.val.stored, b.expires⟩

/-- The binding `Put` makes, if the message is cached. -/
def boundOf (lib : Miekg) (max : ℕ) (q m : Msg) (now : ℕ) : Option Bound :=
  (entryOf lib max q m now).map (fun e => ⟨tuple q, ⟨e.message, e.stored⟩, e.expires⟩)

/-- The operations of the cache. -/
inductive Op where
  | put (q m : Msg) | get (q : Msg) | peek (q : Msg) | flush | setUpstreamTTL (seconds : UInt32) | expire

/-- One operation at a time, and the message it returns. -/
def exec (lib : Miekg) (c : Cache) (now : ℕ) : Op → Cache × Option Msg
  | .put q m => (c.put lib q m now, none)
  | .get q => c.get q now
  | .peek q => (c, (c.peek q now).map Prod.fst)
  | .flush => (c.flush, none)
  | .setUpstreamTTL seconds => (c.setUpstreamTTL seconds, none)
  | .expire => (c.expire now, none)

/-- What an operation is to the ideal, under the lifetime policy `ttl`. -/
def act (lib : Miekg) (max : ℕ) (ttl : UInt32) (now : ℕ) : Op → Lru.Act Tuple Kept
  | .put q m => match boundOf lib max q m now with
    | some b => .put b
    | none => .idle
  | .get q => if (key q).isSome then .touch (tuple q) else .idle
  | .peek _ => .idle
  | .flush => .flush
  | .setUpstreamTTL seconds => if ttl = seconds then .idle else .flush
  | .expire => .sweep

/-- The lifetime policy after an operation. -/
def policy (ttl : UInt32) : Op → UInt32
  | .setUpstreamTTL seconds => seconds
  | _ => ttl

/-- The cache after a run of timed operations. -/
def run (lib : Miekg) (c : Cache) (ops : List (ℕ × Op)) : Cache := ops.foldl (fun c a => (exec lib c a.1 a.2).1) c

/-- The history of the ideal for a run. -/
def history (lib : Miekg) (max : ℕ) : UInt32 → List (ℕ × Op) → List (ℕ × Lru.Act Tuple Kept)
  | _, [] => []
  | ttl, (now, op) :: rest => (now, act lib max ttl now op) :: history lib max (policy ttl op) rest

/-! ### Refinement -/

/-- The cache holds the bindings of the ideal, in the same order. -/
structure Refines (c : Cache) (s : List Bound) : Prop where
  inv : Inv c
  same : values c = s.map entry

section

variable {c : Cache} {s : List Bound}

theorem filter_map_entry (t : Tuple) (s : List Bound) :
    (s.map entry).filter (fun e => e.key ≠ t.text) = (Lru.erase t s).map entry := by
  rw [List.filter_map, Lru.erase]
  congr 1
  refine List.filter_congr fun b _ => ?_
  have hiff : b.key.text = t.text ↔ b.key = t := ⟨Tuple.text_inj, fun h => by rw [h]⟩
  simp [entry, hiff]

/-- What the cache finds is what the ideal finds. -/
theorem Refines.lookup (h : Refines c s) (t : Tuple) :
    (c.lookup t.text).map Elem.value = (Lru.find t s).map entry := by
  rw [← h.inv.find_values, h.same, List.find?_map, Lru.find]
  congr 1
  refine List.find?_congr fun b _ => ?_
  have hiff : b.key.text = t.text ↔ b.key = t := ⟨Tuple.text_inj, fun h => by rw [h]⟩
  simp [entry, hiff]

/-- What the ideal answers to a query. -/
def found (s : List Bound) (q : Msg) (now : ℕ) : Option Msg :=
  if (key q).isSome then (Lru.peek now (tuple q) s).map (fun b => aged (entry b) q now) else none

/-- The element the cache looks up for a query is the binding of the ideal. -/
theorem Refines.probe (h : Refines c s) (q : Msg) :
    (((key q).bind c.lookup).map Elem.value) =
      if (key q).isSome then (Lru.find (tuple q) s).map entry else none := by
  cases hk : key q with
  | none => rfl
  | some k =>
    obtain rfl := key_eq_some hk
    simpa using h.lookup (tuple q)

theorem Refines.peek (h : Refines c s) (q : Msg) (now : ℕ) : (c.peek q now).map Prod.fst = found s q now := by
  have hp := h.probe q
  unfold Cache.peek found
  cases hel : (key q).bind c.lookup with
  | none =>
    rw [hel] at hp
    split at hp
    · rename_i hk
      have hnone : Lru.find (tuple q) s = none := by simpa using hp.symm
      simp [hk, Lru.peek, hnone]
    · rename_i hk
      simp [hk]
  | some el =>
    rw [hel] at hp
    split at hp
    · rename_i hk
      obtain ⟨b, hb, he⟩ := Option.map_eq_some_iff.1 hp.symm
      simp only [hk, if_true, Lru.peek, hb, ← he]
      by_cases hnow : now < b.expires
      · simp [hnow, entry]
      · simp [hnow, not_lt.1 hnow, entry]
    · cases hp

/-- `Get` answers as `Peek` does. -/
theorem get_eq_peek (c : Cache) (q : Msg) (now : ℕ) : (c.get q now).2 = (c.peek q now).map Prod.fst := by
  unfold Cache.get Cache.peek
  cases (key q).bind c.lookup with
  | none => rfl
  | some el => by_cases h : now < el.value.expires <;> simp [h]

/-! ### One operation -/

theorem refines_put (h : Refines c s) (lib : Miekg) (q m : Msg) (now : ℕ) :
    Refines (c.put lib q m now) (Lru.step c.max now (act lib c.max c.upstreamTTL now (.put q m)) s) := by
  cases he : entryOf lib c.max q m now with
  | none =>
    rw [put_none he]
    simpa [act, boundOf, he, Lru.step] using h
  | some e =>
    obtain ⟨hinv, hvals⟩ := put_some h.inv he
    have hkey : e.key = (tuple q).text := by
      obtain ⟨-, -, -, k, hk, rfl⟩ := entryOf_some he
      exact key_eq_some hk
    refine ⟨hinv, ?_⟩
    have hact : act lib c.max c.upstreamTTL now (.put q m) = .put ⟨tuple q, ⟨e.message, e.stored⟩, e.expires⟩ := by
      simp [act, boundOf, he]
    have hentry : entry ⟨tuple q, ⟨e.message, e.stored⟩, e.expires⟩ = e := by rw [entry, ← hkey]
    rw [hact, hvals, h.same, hkey, filter_map_entry, Lru.makeRoom_map, Lru.step, Lru.put, List.map_cons, hentry]

theorem refines_get (h : Refines c s) (lib : Miekg) (q : Msg) (now : ℕ) :
    Refines (c.get q now).1 (Lru.step c.max now (act lib c.max c.upstreamTTL now (.get q)) s) := by
  have hp := h.probe q
  cases hel : (key q).bind c.lookup with
  | none =>
    rw [hel] at hp
    rw [get_miss now hel]
    have hs : Lru.step c.max now (act lib c.max c.upstreamTTL now (.get q)) s = s := by
      by_cases hk : (key q).isSome
      · have hnone : Lru.find (tuple q) s = none := by simpa [hk] using hp.symm
        simp [act, hk, Lru.step, Lru.touch, hnone]
      · simp [act, hk, Lru.step]
    rw [hs]
    exact ⟨h.inv.congr rfl rfl rfl rfl, h.same⟩
  | some el =>
    have hk : (key q).isSome := by
      cases hk : key q with
      | none => simp [hk] at hel
      | some k => rfl
    rw [hel, if_pos hk] at hp
    obtain ⟨b, hb, he⟩ := Option.map_eq_some_iff.1 hp.symm
    have hbk := (Lru.find_eq_some hb).2
    have hekey : el.value.key = (tuple q).text := by rw [← he, ← hbk]; rfl
    have hexp : el.value.expires = b.expires := by rw [← he]; rfl
    by_cases hnow : now < el.value.expires
    · obtain ⟨hinv, -, hvals⟩ := get_hit h.inv hel hnow
      refine ⟨hinv, ?_⟩
      rw [hvals, h.same, hekey, filter_map_entry]
      simp [act, hk, Lru.step, Lru.touch, hb, ← hexp, hnow, he]
    · obtain ⟨hinv, -, hvals⟩ := get_expired h.inv hel hnow
      refine ⟨hinv, ?_⟩
      rw [hvals, h.same, hekey, filter_map_entry]
      simp [act, hk, Lru.step, Lru.touch, hb, ← hexp, hnow]

theorem refines_flush (c : Cache) : Refines c.flush [] := ⟨Inv.flush c, rfl⟩

/-- **One operation of the cache is one action of the ideal.** -/
theorem refines_exec (h : Refines c s) (lib : Miekg) (now : ℕ) (op : Op) :
    Refines (exec lib c now op).1 (Lru.step c.max now (act lib c.max c.upstreamTTL now op) s) := by
  cases op with
  | put q m => exact refines_put h lib q m now
  | get q => exact refines_get h lib q now
  | peek q => exact h
  | flush => exact refines_flush c
  | setUpstreamTTL seconds =>
    by_cases ht : c.upstreamTTL = seconds
    · simpa [exec, act, setUpstreamTTL, ht, Lru.step] using h
    · simpa [exec, act, setUpstreamTTL, ht, Lru.step] using refines_flush _
  | expire =>
    obtain ⟨hinv, -, hvals⟩ := expire_spec h.inv now
    refine ⟨hinv, hvals.trans ?_⟩
    rw [h.same, List.filter_map]
    rfl

theorem removeKey_frame (c : Cache) (k : Str) :
    (c.removeKey k).max = c.max ∧ (c.removeKey k).upstreamTTL = c.upstreamTTL := by
  unfold removeKey
  split <;> exact ⟨rfl, rfl⟩

theorem makeRoom_frame (c : Cache) : c.makeRoom.max = c.max ∧ c.makeRoom.upstreamTTL = c.upstreamTTL := by
  unfold makeRoom removeBack
  split
  · split <;> exact ⟨rfl, rfl⟩
  · exact ⟨rfl, rfl⟩

theorem foldl_visit_frame (p : Entry → Bool) (ids : List ℕ) (r : Cache × ℕ) :
    (ids.foldl (visit p) r).1.max = r.1.max ∧ (ids.foldl (visit p) r).1.upstreamTTL = r.1.upstreamTTL := by
  induction ids generalizing r with
  | nil => exact ⟨rfl, rfl⟩
  | cons id ids ih =>
    have hone : (visit p r id).1.max = r.1.max ∧ (visit p r id).1.upstreamTTL = r.1.upstreamTTL := by
      unfold visit
      split
      · split <;> exact ⟨rfl, rfl⟩
      · exact ⟨rfl, rfl⟩
    obtain ⟨h1, h2⟩ := ih (visit p r id)
    exact ⟨h1.trans hone.1, h2.trans hone.2⟩

/-- An operation leaves the bound alone, and only `SetUpstreamTTL` changes the policy. -/
theorem exec_frame (lib : Miekg) (c : Cache) (now : ℕ) (op : Op) :
    (exec lib c now op).1.max = c.max ∧ (exec lib c now op).1.upstreamTTL = policy c.upstreamTTL op := by
  cases op with
  | put q m =>
    simp only [exec, put, policy]
    split
    · exact ⟨rfl, rfl⟩
    · rename_i e _
      obtain ⟨h1, h2⟩ := removeKey_frame c e.key
      obtain ⟨h3, h4⟩ := makeRoom_frame (c.removeKey e.key)
      exact ⟨h3.trans h1, h4.trans h2⟩
  | get q =>
    simp only [exec, get, policy]
    split
    · exact ⟨rfl, rfl⟩
    · split <;> exact ⟨rfl, rfl⟩
  | peek q => exact ⟨rfl, rfl⟩
  | flush => exact ⟨rfl, rfl⟩
  | setUpstreamTTL seconds =>
    simp only [exec, setUpstreamTTL, policy]
    split
    · rename_i h
      exact ⟨rfl, h⟩
    · exact ⟨rfl, rfl⟩
  | expire => exact foldl_visit_frame _ _ _

theorem max_run (lib : Miekg) (c : Cache) (ops : List (ℕ × Op)) : (run lib c ops).max = c.max := by
  induction ops generalizing c with
  | nil => rfl
  | cons a ops ih => exact (ih _).trans (exec_frame lib c a.1 a.2).1

/-- **A run of the cache is a history of the ideal.** -/
theorem refines_run (lib : Miekg) (ops : List (ℕ × Op)) (h : Refines c s) :
    Refines (run lib c ops)
      ((history lib c.max c.upstreamTTL ops).foldl (fun s a => Lru.step c.max a.1 a.2 s) s) := by
  induction ops generalizing c s with
  | nil => exact h
  | cons a ops ih =>
    obtain ⟨now, op⟩ := a
    obtain ⟨hmax, hpol⟩ := exec_frame lib c now op
    have hnext := ih (refines_exec h lib now op)
    rw [hmax, hpol] at hnext
    exact hnext

theorem refines_new (lib : Miekg) (max : ℤ) (ops : List (ℕ × Op)) :
    Refines (run lib (new max) ops) (Lru.run max.toNat (history lib max.toNat 0 ops)) :=
  refines_run lib ops ⟨Inv.new max, rfl⟩

end

/-! ### What a run of the cache amounts to -/

/-- **The contract of the cache** after a run of timed operations from an empty cache of at most `max` entries. -/
structure LruSpec (lib : Miekg) (max : ℤ) (ops : List (ℕ × Op)) (c : Cache) (h : List (ℕ × Lru.Act Tuple Kept)) :
    Prop where
  /-- the map and the list hold the same keys, once each -/
  sameKeys : c.items.keys.Perm (c.lru.map (fun el => el.value.key)) ∧ (c.lru.map (fun el => el.value.key)).Nodup
  bounded : c.items.entries.length ≤ max.toNat ∧ c.lru.length ≤ max.toNat
  /-- the entries are those of the ideal map, in its order, which is the order of last use -/
  refines : values c = (Lru.run max.toNat h).map entry
  recency : ((values c).map Entry.key).reverse.Sublist ((Lru.used h).dedup.map Tuple.text)
  /-- two queries share a key exactly when their tuples are equal -/
  shared : ∀ q q' k k', key q = some k → key q' = some k' → (k = k' ↔ tuple q = tuple q')
  /-- a lookup returns the last message cached under the tuple since the last flush, if it has neither expired nor
  been evicted, with this query's identifier and question and the TTLs aged -/
  lookups : ∀ now q m, (∀ a ∈ ops, a.1 ≤ now) → ((c.get q now).2 = some m ↔ (key q).isSome = true ∧
    ∃ b, Lru.lastPut h (tuple q) = some b ∧ now < b.expires ∧ ¬ Lru.Evicted max.toNat h b ∧ m = aged (entry b) q now)
  peeks : ∀ now q, (c.peek q now).map Prod.fst = (c.get q now).2 ∧ (exec lib c now (.peek q)).1 = c
  /-- an uncacheable `Put` changes nothing -/
  uncacheable : ∀ now q m, boundOf lib max.toNat q m now = none → c.put lib q m now = c
  /-- a new key in a full cache removes only the last entry, the least recently put or got one -/
  full : ∀ now q m b, boundOf lib max.toNat q m now = some b → (entry b).key ∉ (values c).map Entry.key →
    (values c).length = max.toNat → values (c.put lib q m now) = entry b :: (values c).dropLast

theorem times_history (lib : Miekg) (max : ℕ) : ∀ (ttl : UInt32) (ops : List (ℕ × Op)),
    (history lib max ttl ops).map Prod.fst = ops.map Prod.fst
  | _, [] => rfl
  | ttl, (now, op) :: rest => by simp [history, times_history lib max (policy ttl op) rest]

theorem entry_boundOf {lib : Miekg} {max now : ℕ} {q m : Msg} {b : Bound} (h : boundOf lib max q m now = some b) :
    entryOf lib max q m now = some (entry b) := by
  obtain ⟨e, he, rfl⟩ := Option.map_eq_some_iff.1 h
  obtain ⟨-, -, -, k, hk, rfl⟩ := entryOf_some he
  rw [he, key_eq_some hk]
  rfl

/-- What a lookup returns, by the history. -/
theorem found_iff {cap now : ℕ} {h : List (ℕ × Lru.Act Tuple Kept)} (hnow : ∀ a ∈ h, a.1 ≤ now) (q m : Msg) :
    found (Lru.run cap h) q now = some m ↔ (key q).isSome = true ∧
      ∃ b, Lru.lastPut h (tuple q) = some b ∧ now < b.expires ∧ ¬ Lru.Evicted cap h b ∧ m = aged (entry b) q now := by
  unfold found
  by_cases hk : (key q).isSome
  · rw [if_pos hk, Option.map_eq_some_iff]
    refine ⟨?_, ?_⟩
    · rintro ⟨b, hb, rfl⟩
      obtain ⟨h1, h2, h3⟩ := (Lru.peek_run_iff hnow).1 hb
      exact ⟨hk, b, h1, h2, h3, rfl⟩
    · rintro ⟨-, b, h1, h2, h3, rfl⟩
      exact ⟨b, (Lru.peek_run_iff hnow).2 ⟨h1, h2, h3⟩, rfl⟩
  · simp [hk]

/-- **The cache refines the ideal map.** -/
theorem run_lruSpec (lib : Miekg) (max : ℤ) (ops : List (ℕ × Op)) :
    LruSpec lib max ops (run lib (new max) ops) (history lib max.toNat 0 ops) := by
  have href := refines_new lib max ops
  have hmax : (run lib (new max) ops).max = max.toNat := max_run lib (new max) ops
  have hsize := href.inv.size
  rw [hmax] at hsize
  refine ⟨⟨href.inv.keys_perm, href.inv.keys_nodup⟩, ⟨href.inv.items_length ▸ hsize, hsize⟩, href.same, ?_,
    fun q q' k k' => key_eq_iff, ?_, fun now q => ⟨(get_eq_peek _ q now).symm, rfl⟩, ?_, ?_⟩
  · rw [href.same, List.map_map, ← List.map_reverse]
    have hrec := (Lru.keys_run_sublist max.toNat (history lib max.toNat 0 ops)).map Tuple.text
    rw [Lru.keys, ← List.map_reverse, List.map_map] at hrec
    exact hrec
  · intro now q m hnow
    have hnow' : ∀ a ∈ history lib max.toNat 0 ops, a.1 ≤ now := by
      intro a ha
      have hmem : a.1 ∈ ops.map Prod.fst := times_history lib max.toNat 0 ops ▸ List.mem_map_of_mem ha
      obtain ⟨a', ha', heq⟩ := List.mem_map.1 hmem
      exact heq ▸ hnow a' ha'
    rw [get_eq_peek, href.peek, found_iff hnow']
  · intro now q m hnone
    refine put_none ?_
    rw [hmax]
    simpa [boundOf] using hnone
  · intro now q m b hb hnew hfull
    have he := entry_boundOf hb
    rw [← hmax] at he
    rw [(put_some href.inv he).2, hmax]
    -- the key is new, so nothing is replaced, and the list is full
    have hself : (values (run lib (new max) ops)).filter (fun x => x.key ≠ (entry b).key) =
        values (run lib (new max) ops) := by
      refine List.filter_eq_self.2 fun x hx => ?_
      have hne : x.key ≠ (entry b).key := fun h => hnew (h ▸ List.mem_map_of_mem hx)
      simpa using hne
    rw [hself, Lru.makeRoom, if_pos hfull.ge]

/-! ### A cached address -/

namespace Sample

def lib : Miekg := .ideal []
def query (id : UInt16) : Msg := setQuestion id "example.org.".toList typeA

/-- The address with a lifetime of ten seconds. -/
def reply : Msg :=
  { setReply (query 7) with answer := [⟨⟨"example.org.".toList, classINET, 10⟩, .a [192, 0, 2, 1]⟩] }

end Sample

/-- Three seconds after it was put, the message comes back with the query's identifier and another TTL: not the message
that was put. -/
theorem get_not_verbatim :
    ∃ m, ((run Sample.lib (new 2) [(0, .put (Sample.query 7) Sample.reply)]).get (Sample.query 9) (3 * second)).2 =
        some m ∧ m.answer.map RR.ttl = [7] ∧
      m ≠ { Sample.reply with id := (Sample.query 9).id, question := (Sample.query 9).question } := by
  refine ⟨_, rfl, ?_, ?_⟩
  · decide
  · intro h
    have hanswer := congrArg (fun m : Msg => m.answer.map RR.ttl) h
    revert hanswer
    decide

end Velora.Cache
