import Velora.Dns.Authentic

/-!
# OPT records over whole runs

The forwarder takes the OPT record out of an answer when the client's query had none, but the key of the cache tells
queries apart by their DO bit only. An answer stored for a query with EDNS and a clear DO bit is therefore given, with its
OPT record, to a query without EDNS (`ednsAnswer_leaks`). That is the only way, besides an upstream that puts an OPT record
where none belongs: in every run that avoids the two, a query without OPT gets an answer without OPT (`run_optFree`).
-/

namespace Velora.Dns

open Velora.Lib Velora.Lib.Text Velora.Wire

/-! ### Records without OPT -/

/-- No record is an OPT record. -/
def OptFree (records : List RR) : Prop := ∀ rr ∈ records, rr.rrtype ≠ typeOPT

instance (records : List RR) : Decidable (OptFree records) := inferInstanceAs (Decidable (∀ rr ∈ records, _))

theorem optFree_nil : OptFree [] := fun rr hrr => by cases hrr

/-- The records of a given type that is not OPT. -/
theorem optFree_singleton {hdr : Header} {data : RData} (h : data.rrtype ≠ typeOPT) : OptFree [⟨hdr, data⟩] := by
  intro rr hrr
  rw [List.mem_singleton.1 hrr]
  exact h

theorem optFree_append {l l' : List RR} : OptFree (l ++ l') ↔ OptFree l ∧ OptFree l' := by
  unfold OptFree
  exact List.forall_mem_append

theorem optFree_sections {m : Msg} : OptFree m.sections ↔ OptFree m.answer ∧ OptFree m.ns ∧ OptFree m.extra := by
  rw [Msg.sections, optFree_append, optFree_append, and_assoc]

/-- Being without OPT is a matter of the record types. -/
theorem optFree_of_types {l l' : List RR} (h : l'.map RR.rrtype = l.map RR.rrtype) (hl : OptFree l) : OptFree l' := by
  intro rr hrr
  have hmem : rr.rrtype ∈ l'.map RR.rrtype := List.mem_map_of_mem hrr
  rw [h] at hmem
  obtain ⟨x, hx, heq⟩ := List.mem_map.1 hmem
  rw [← heq]
  exact hl x hx

theorem optFree_of_untimed {l l' : List RR} (h : untimed l' = untimed l) (hl : OptFree l) : OptFree l' :=
  optFree_of_types (map_eq_of_untimed (fun _ _ => rfl) h) hl

theorem optFree_filter {l : List RR} (p : RR → Bool) (h : OptFree l) : OptFree (l.filter p) :=
  fun rr hrr => h rr (List.mem_of_mem_filter hrr)

theorem optFree_withoutOPT (l : List RR) : OptFree (withoutOPT l) := by
  intro rr hrr
  simpa [withoutOPT] using (List.mem_filter.1 hrr).2

theorem types_clearOptions (l : List RR) : (clearOptions l).map RR.rrtype = l.map RR.rrtype := by
  have hgo : ∀ k : List RR, (clearOptions.go k).map RR.rrtype = k.map RR.rrtype := by
    intro k
    induction k with
    | nil => rfl
    | cons rr rest ih =>
      rw [clearOptions.go]
      split
      · rename_i h
        rw [List.map_cons, List.map_cons, h]
        rfl
      · rw [List.map_cons, List.map_cons, ih]
  rw [clearOptions, List.map_reverse, hgo, List.map_reverse, List.reverse_reverse]

theorem isEdns0_eq_none_iff (m : Msg) : m.isEdns0 = none ↔ OptFree m.extra := by
  simp [Msg.isEdns0, OptFree]

/-- A query without OPT has a clear DO bit in its key. -/
theorem keyDO_of_optFree {q : Msg} (h : OptFree q.extra) : (Cache.keyDO q).1 = false := by
  have hnone : q.extra.find? (fun rr => rr.rrtype == typeOPT) = none := by
    rw [List.find?_eq_none]
    intro rr hrr
    simpa using h rr hrr
  rw [Cache.keyDO, hnone]

/-! ### Local answers -/

theorem answers_optFree (question : Question) (rules : List Rewrites.Rule) (acc : List RR) (h : OptFree acc) :
    OptFree (Rewrites.answers question rules acc) := by
  induction rules generalizing acc with
  | nil => exact h
  | cons rule rest ih =>
    rw [Rewrites.answers]
    split
    · exact optFree_singleton (show typeCNAME ≠ typeOPT by decide)
    split
    · apply ih
      exact optFree_append.2 ⟨h, optFree_singleton (show typeA ≠ typeOPT by decide)⟩
    split
    · apply ih
      exact optFree_append.2 ⟨h, optFree_singleton (show typeAAAA ≠ typeOPT by decide)⟩
    · exact ih acc h

/-- What a zone has for a name is without OPT. -/
theorem lookup_optFree {v : Zones.View} (hv : Zones.WellFormed v) (name : Str) (kind : UInt16) :
    OptFree (v.lookup name kind) := by
  have hrecords : OptFree ((v.at' name).filter (fun rr => rr.rrtype = kind)) := by
    refine optFree_filter _ fun rr hrr hopt => ?_
    have htypes := hv.types name rr hrr
    rw [hopt] at htypes
    revert htypes
    decide
  unfold Zones.View.lookup
  dsimp only
  split
  · exact optFree_singleton (show typeSOA ≠ typeOPT by decide)
  split
  · exact optFree_singleton (show typeNS ≠ typeOPT by decide)
  · exact hrecords

theorem chase_optFree {s : Zones.Snapshot} (hs : Zones.Compiled s) (kind : UInt16) (n : ℕ) (name : Str) (m : Msg)
    (h : OptFree m.sections) : OptFree (s.chase kind n name m).sections := by
  induction n generalizing name m with
  | zero =>
    rw [Zones.Snapshot.chase, optFree_sections]
    rw [optFree_sections] at h
    exact ⟨optFree_nil, h.2⟩
  | succ n ih =>
    rw [Zones.Snapshot.chase]
    cases hfind : s.find name with
    | none => exact h
    | some owner =>
      obtain ⟨zone, -, hzone⟩ := List.exists_of_findSome?_eq_some hfind
      have hwf := (hs.views zone owner hzone).2
      rw [optFree_sections] at h
      dsimp only
      split
      · exact optFree_sections.2 ⟨optFree_append.2 ⟨h.1, lookup_optFree hwf name kind⟩, h.2⟩
      split
      · rename_i rr rest hcname
        apply ih
        have halias := lookup_optFree hwf name typeCNAME
        rw [hcname] at halias
        exact optFree_sections.2 ⟨optFree_append.2 ⟨h.1, halias⟩, h.2⟩
      · exact optFree_sections.2 ⟨h.1, optFree_singleton (show typeSOA ≠ typeOPT by decide), h.2.2⟩

section

variable {σ : Type} {lib : Miekg} {env : Env σ} {r : Resolver σ} {ctx : Ctx σ}

theorem localMatch_optFree (hr : r.ZonesCompiled lib) {q : Msg} {l : LocalMatch} (h : r.localMatch q = some l) :
    OptFree l.msg.sections := by
  obtain ⟨loc, hloc, hl⟩ := Option.bind_eq_some_iff.1 h
  rcases (Rewrites.Local.lookup_cases hl).2 with ⟨-, t, rules, -, hrw⟩ | ⟨-, -, s, v, hnext, -, hmsg⟩
  · rw [(Rewrites.Table.rewrite_eq_some hrw).2.2.2]
    exact optFree_sections.2 ⟨answers_optFree _ _ _ optFree_nil, optFree_nil, optFree_nil⟩
  · obtain ⟨all, hall⟩ := hr loc s hloc hnext
    rw [hmsg]
    exact chase_optFree (Zones.compile_ok hall) _ _ _ _ optFree_nil

/-! ### Answers of upstreams -/

/-- The upstreams put no OPT record into the answer and authority sections. -/
def OptInPlace (env : Env σ) : Prop := ∀ m, Heard env m → OptFree m.answer ∧ OptFree m.ns

/-- The key of the query tells it apart from queries without EDNS, or there is no OPT record to give away: the query has
no OPT, or has the DO bit, or is not cached for its version, or the upstreams answer without OPT. -/
def KeptApart (env : Env σ) (q : Msg) : Prop :=
  OptFree q.extra ∨ (Cache.keyDO q).1 = true ∨ (Cache.keyDO q).2 = false ∨ ∀ m, Heard env m → OptFree m.extra

/-- What holds of an entry: it is without OPT for the queries without OPT. -/
def FreeFor (_ : World σ) (k : Str) (m : Msg) : Prop :=
  OptFree m.answer ∧ OptFree m.ns ∧ ∀ q, Cache.key q = some k → OptFree q.extra → OptFree m.extra

/-- What a router answers was heard, and restored for the query. -/
theorem Router.resolve_heard {router : Forwarding.Router σ} {q m : Msg} {up : Str} {w w' : World σ}
    (h : router.resolve lib env ctx q w = (.ok (m, up), w')) :
    ∃ (f : Forwarder σ) (m₁ : Msg) (ad : Bool), Heard env m₁ ∧ m = restore f q { m₁ with authenticatedData := ad } := by
  obtain ⟨m₁, ad, hheard, -, hm, -⟩ :=
    ((router.select q).resolve_ok lib env ctx q { w with asked := q :: w.asked }).2 m up (congrArg Prod.fst h)
  exact ⟨router.select q, m₁, ad, hheard, hm⟩

/-- What `restore` leaves of the answer and authority sections, and of the additional section for a query without OPT or
from a response without OPT. -/
theorem restore_optFree (f : Forwarder σ) (q m : Msg) (h : OptFree m.answer ∧ OptFree m.ns) :
    OptFree (restore f q m).answer ∧ OptFree (restore f q m).ns ∧
      (OptFree q.extra ∨ OptFree m.extra → OptFree (restore f q m).extra) := by
  have hkeep : ∀ (b : Bool) (l : List RR), OptFree l → OptFree (if b = true then withoutDNSSEC l else l) := by
    intro b l hl
    split
    · exact optFree_filter _ hl
    · exact hl
  refine ⟨hkeep _ _ h.1, hkeep _ _ h.2, fun hextra => hkeep _ _ ?_⟩
  rcases hextra with hq | hm
  · rw [(isEdns0_eq_none_iff q).2 hq]
    exact optFree_withoutOPT m.extra
  · split
    · exact optFree_withoutOPT m.extra
    · exact optFree_of_types (types_clearOptions m.extra) hm

theorem freeFor_supplies (henv : OptInPlace env) (router : Forwarding.Router σ) :
    Supplies lib env router (KeptApart env) FreeFor := by
  intro ctx q₁ w m up w' c k hapart hres hk
  obtain ⟨f, m₁, ad, hheard, rfl⟩ := Router.resolve_heard hres
  have hstored := (retimed_settled c (restore f q₁ { m₁ with authenticatedData := ad })).trans
    (Cache.retimed_normalizeNegativeTTL _)
  obtain ⟨hanswer, hns, hextra⟩ := restore_optFree f q₁ { m₁ with authenticatedData := ad } (henv m₁ hheard)
  refine ⟨optFree_of_untimed hstored.answer hanswer, optFree_of_untimed hstored.ns hns, fun q hq hfree => ?_⟩
  refine optFree_of_untimed hstored.extra (hextra ?_)
  -- `q` shares the key of the stored query, so both have a clear DO bit
  have htuple : Cache.tuple q₁ = Cache.tuple q := (Cache.key_eq_iff hk hq).1 rfl
  have hdo : (Cache.keyDO q₁).1 = false := (congrArg Cache.Tuple.dnssecOK htuple).trans (keyDO_of_optFree hfree)
  rcases hapart with hno | htrue | hversion | hup
  · exact Or.inl hno
  · rw [hdo] at htrue
    cases htrue
  · rw [Cache.key, if_pos (Or.inr (Or.inr (Or.inr (Or.inr hversion))))] at hk
    cases hk
  · exact Or.inr (hup m₁ hheard)

theorem Resolver.blocked_optFree (r : Resolver σ) (q : Msg) : OptFree (r.blocked q).message.sections := by
  unfold blocked
  dsimp only
  split
  · refine optFree_sections.2 ⟨?_, optFree_nil, optFree_nil⟩
    dsimp only
    split
    · exact optFree_singleton (show typeA ≠ typeOPT by decide)
    split
    · exact optFree_singleton (show typeAAAA ≠ typeOPT by decide)
    · exact optFree_nil
  · exact optFree_nil

/-- A query without OPT gets an answer without OPT from a cache whose entries are without OPT for it. -/
theorem Resolves.optFree {n : ℕ} {q : Msg} {st st' : State σ} {out : Except Failure Result}
    (h : Resolves lib env r ctx n q st out st') (hr : r.ZonesCompiled lib) (henv : OptInPlace env)
    (hst : Holds FreeFor st) (hq : OptFree q.extra) : ∀ res, out = .ok res → OptFree res.message.sections := by
  induction h with
  | tooDeep => simp
  | cancelled => simp
  | nameBlocked => rintro res ⟨⟩; exact r.blocked_optFree _
  | localBlocked => rintro res ⟨⟩; exact r.blocked_optFree _
  | answered found clean stop =>
    rintro res ⟨⟩
    exact localMatch_optFree hr found
  | aliasFailed => simp
  | aliasBlocked => rintro res ⟨⟩; exact r.blocked_optFree _
  | aliasFollowed found clean goes tail unblocked ih =>
    rintro res ⟨⟩
    have hlocal := optFree_sections.1 (localMatch_optFree hr found)
    have htail := optFree_sections.1 (ih hst hq _ rfl)
    exact optFree_sections.2 ⟨optFree_append.2 ⟨hlocal.1, htail.1⟩, htail.2⟩
  | refused =>
    rintro res ⟨⟩
    exact optFree_nil
  | cacheBlocked => rintro res ⟨⟩; exact r.blocked_optFree _
  | @cached n q st cache m nothing rd hit clean =>
    rintro res ⟨⟩
    obtain ⟨e, he, hk, rfl⟩ := (hst.get hit).2 _ rfl
    have haged := Cache.retimed_aged e q (env.clock st.world.net)
    obtain ⟨hanswer, hns, hextra⟩ := hst.entries e he
    exact optFree_sections.2 ⟨optFree_of_untimed haged.answer hanswer, optFree_of_untimed haged.ns hns,
      optFree_of_untimed haged.extra (hextra q hk hq)⟩
  | @forwarded n q st cache out st' nothing rd miss sent =>
    rintro res rfl
    rcases r.forward_cases lib env ctx q { st with cache := cache } with
      ⟨e, w, -, hs⟩ | ⟨m, up, w, hres, ⟨name, -, hs⟩ | ⟨-, hs⟩⟩ <;> rw [hs] at sent
    · cases sent
    · cases sent
      exact r.blocked_optFree _
    · cases sent
      obtain ⟨f, m₁, ad, hheard, rfl⟩ := Router.resolve_heard hres
      have hset := retimed_settled cache (restore f q { m₁ with authenticatedData := ad })
      obtain ⟨hanswer, hns, hextra⟩ := restore_optFree f q { m₁ with authenticatedData := ad } (henv m₁ hheard)
      exact optFree_sections.2 ⟨optFree_of_untimed hset.answer hanswer, optFree_of_untimed hset.ns hns,
        optFree_of_untimed hset.extra (hextra (Or.inl hq))⟩

/-- **When a query without OPT gets an answer without OPT.** In every run in which the upstreams keep OPT records to the
additional section and every query is kept apart from those without EDNS, by the key of the cache or because there is
no OPT record to give away. -/
theorem run_optFree (lib : Miekg) (env : Env σ) (o : Forwarding.Options σ) (r : Resolver σ) (max : ℤ) (net : σ)
    (events : List (Event σ)) (hr : r.ZonesCompiled lib) (henv : OptInPlace env)
    (hevents : ∀ ctx q, .query ctx q ∈ events → KeptApart env q) (ctx : Ctx σ) (q : Msg) (res : Result)
    (hq : OptFree q.sections)
    (h : ((Node.new r max net).run lib env o events).answer lib env ctx q = .ok res) :
    OptFree res.message.sections := by
  obtain ⟨hholds, -⟩ := run_entries o (fun _ _ _ _ _ hm => hm) (fun _ _ hq => hq) r
    (fun rules => freeFor_supplies henv _) max net events hevents
  have hcompiled := run_compiled env o (Node.new r max net) events hr
  set node := (Node.new r max net).run lib env o events with hnode
  exact (resolves 16 q { node.state with trace := none } rfl).1.optFree hcompiled henv hholds.untraced
    (optFree_sections.1 hq).2.2 res h

end

/-! ### Two clients -/

namespace Sample

/-- An upstream that answers EDNS with EDNS. -/
def ednsEnv : Env Unit where
  clock _ := now
  id s := (7, s)
  exchange _ _ req s :=
    (.ok { response := true, question := req.question, answer := [address],
           extra := req.extra.filter (fun rr => rr.rrtype == typeOPT) }, s)

def plain : Resolver Unit where
  blockMode := "NXDOMAIN"
  local' := none
  filter := none
  forwarder := ⟨none, { upstreams := ["192.0.2.53:53".toList], retries := 0 }⟩

/-- A query with EDNS. -/
def ednsQuery (dnssecOK : Bool) : Msg := (query "www.example." typeA).setEdns0 1232 dnssecOK

theorem ednsEnv_optInPlace : OptInPlace ednsEnv := by
  rintro m ⟨proto, address, req, s, h⟩
  cases h
  exact ⟨optFree_singleton (show typeA ≠ typeOPT by decide), optFree_nil⟩

end Sample

open Sample in
/-- With the DO bit the first client has an entry of its own. -/
theorem run_optFree_dnssec :
    ∃ res, ((Node.new plain 16 ()).run Sample.lib ednsEnv options [.query Sample.ctx (ednsQuery true)]).answer Sample.lib
          ednsEnv Sample.ctx (query "www.example." typeA) = .ok res ∧
      res.message.answer = [address] ∧ OptFree res.message.sections := by
  have hrun : (((Node.new plain 16 ()).run Sample.lib ednsEnv options [.query Sample.ctx (ednsQuery true)]).answer
      Sample.lib ednsEnv Sample.ctx (query "www.example." typeA)).toOption.map (fun res => res.message.answer) =
      some [address] := by decide +kernel
  obtain ⟨res, hok, hanswer⟩ := Option.map_eq_some_iff.1 hrun
  have hres := Loops.eq_ok_of_toOption hok
  refine ⟨res, hres, hanswer, run_optFree _ _ _ _ _ _ _ ?_ ednsEnv_optInPlace ?_ _ _ res (by decide) hres⟩
  · rintro l s ⟨⟩
  · rintro ctx q hq
    cases List.mem_singleton.1 hq
    exact Or.inr (Or.inl (by decide))

open Sample in
/-- The second client sends no OPT record and gets the one the first client's query left in the cache. -/
theorem ednsAnswer_leaks :
    ∃ res, ((Node.new plain 16 ()).run Sample.lib ednsEnv options [.query Sample.ctx (ednsQuery false)]).answer Sample.lib
          ednsEnv Sample.ctx (query "www.example." typeA) = .ok res ∧
      OptFree (query "www.example." typeA).sections ∧ res.source = .cache ∧ ¬ OptFree res.message.sections := by
  have hrun : (((Node.new plain 16 ()).run Sample.lib ednsEnv options [.query Sample.ctx (ednsQuery false)]).answer
      Sample.lib ednsEnv Sample.ctx (query "www.example." typeA)).toOption.map
        (fun res => (res.source, decide (OptFree res.message.sections))) = some (.cache, false) := by decide +kernel
  obtain ⟨res, hok, hparts⟩ := Option.map_eq_some_iff.1 hrun
  simp only [Prod.mk.injEq, decide_eq_false_iff_not] at hparts
  exact ⟨res, Loops.eq_ok_of_toOption hok, by decide, hparts⟩

end Velora.Dns
