import Velora.Dns.Resolver

/-!
# A real query, level by level

Without a trace the resolver records nothing, and one level of it is the match of `resolveAt_real`. The relation
`Resolves` names the ways in which a level can end, one constructor for each; `resolves` says that these are all of
them. The first use is the law of the filter: what is not blocked names nothing the filter blocks (`resolve_clean`).
-/

namespace Velora.Dns

open Velora.Lib Velora.Lib.Text Velora.Wire

section

variable {σ : Type} {lib : Miekg} {env : Env σ} {r : Resolver σ} {ctx : Ctx σ}

/-! ### Without a trace -/

theorem State.add_real {st : State σ} (h : st.trace = none) (depth : ℕ) (s : Step) : st.add depth s = st := by
  obtain ⟨cache, world, trace⟩ := st
  cases h
  rfl

theorem Resolver.filterStep_real {st : State σ} (h : st.trace = none) (depth : ℕ) (name : Str) (b : Bool)
    (detail : String) : r.filterStep ctx depth name b detail st = st :=
  State.add_real h _ _

theorem Resolver.localStep_real {st : State σ} (h : st.trace = none) (depth : ℕ) (found : Option LocalMatch) :
    r.localStep depth found st = st := by
  unfold localStep
  split
  · rfl
  · exact State.add_real h _ _
  · rw [State.add_real h, State.add_real h]

/-- The local answer to a query. -/
def Resolver.localMatch (r : Resolver σ) (q : Msg) : Option LocalMatch := r.local'.bind (fun l => l.lookup q)

/-- The filter blocks the name a query asks for. -/
def Resolver.asksBlocked (r : Resolver σ) (ctx : Ctx σ) (q : Msg) : Bool :=
  q.question.length == 1 && r.blockedName ctx q.question0.name

/-- One level of a real query. -/
theorem Resolver.resolveAt_real {st : State σ} (h : st.trace = none) (n : ℕ) (q : Msg) :
    r.resolveAt lib env ctx (n + 1) q st =
      match ctx.err st.world.net with
      | some e => (.error ⟨.local, e⟩, st)
      | none =>
        if r.asksBlocked ctx q = true then (.ok (r.blocked q), st)
        else
          match r.localMatch q with
          | none => r.beyond lib env ctx (15 - n) q st
          | some l =>
            match r.blockedAnswerName ctx l.msg with
            | some _ => (.ok (r.blocked q), st)
            | none =>
              match follows q l.msg with
              | none => (.ok ⟨l.msg, .local, []⟩, st)
              | some target =>
                match r.resolveAt lib env ctx n (retarget q target) st with
                | (.error e, st) => (.error ⟨.local, e.err⟩, st)
                | (.ok tail, st) =>
                  if tail.source = .blocked then (.ok (r.blocked q), st)
                  else (.ok ⟨join l.msg tail.message, .local, tail.upstream⟩, st) := by
  rw [resolveAt]
  simp only [filterStep_real h, localStep_real h, ite_self]
  rfl

/-- The later stages of a real query. -/
theorem Resolver.beyond_real {st : State σ} (h : st.trace = none) (depth : ℕ) (q : Msg) :
    r.beyond lib env ctx depth q st =
      if q.recursionDesired = false then
        (.ok ⟨{ setRcode q rcodeRefused with recursionAvailable := true }, .refused, []⟩, st)
      else
        match st.cache.get q (env.clock st.world.net) with
        | (cache, some m) =>
          match r.blockedAnswerName ctx m with
          | some _ => (.ok (r.blocked q), { st with cache := cache })
          | none => (.ok ⟨m, .cache, []⟩, { st with cache := cache })
        | (cache, none) => r.forward lib env ctx q { st with cache := cache } := by
  unfold beyond probe
  cases hrd : q.recursionDesired with
  | false => simp [State.add_real h]
  | true =>
    simp only [h, Option.isSome_none, Bool.not_true, Bool.false_eq_true, if_false]
    rcases st.cache.get q (env.clock st.world.net) with ⟨cache, _ | m⟩
    · simp
    · simp only
      cases r.blockedAnswerName ctx m with
      | none => rfl
      | some name => simp [filterStep_real]

/-! ### The ways a level ends -/

/-- **A real query.** `Resolves lib env r ctx n q st out st'`: with `n` levels left, the query `q` takes the state `st`
to the outcome `out` and the state `st'`. -/
inductive Resolves (lib : Miekg) (env : Env σ) (r : Resolver σ) (ctx : Ctx σ) :
    ℕ → Msg → State σ → Except Failure Result → State σ → Prop
  | tooDeep {q st} : Resolves lib env r ctx 0 q st (.error ⟨.local, .depthExceeded⟩) st
  | cancelled {n q st e} (err : ctx.err st.world.net = some e) :
      Resolves lib env r ctx (n + 1) q st (.error ⟨.local, e⟩) st
  | nameBlocked {n q st} (blocked : r.asksBlocked ctx q = true) :
      Resolves lib env r ctx (n + 1) q st (.ok (r.blocked q)) st
  | localBlocked {n q st l name} (found : r.localMatch q = some l)
      (blocked : r.blockedAnswerName ctx l.msg = some name) :
      Resolves lib env r ctx (n + 1) q st (.ok (r.blocked q)) st
  | answered {n q st l} (found : r.localMatch q = some l) (clean : r.blockedAnswerName ctx l.msg = none)
      (stop : follows q l.msg = none) :
      Resolves lib env r ctx (n + 1) q st (.ok ⟨l.msg, .local, []⟩) st
  | aliasFailed {n q st l target e st'} (found : r.localMatch q = some l) (goes : follows q l.msg = some target)
      (tail : Resolves lib env r ctx n (retarget q target) st (.error e) st') :
      Resolves lib env r ctx (n + 1) q st (.error ⟨.local, e.err⟩) st'
  | aliasBlocked {n q st l target res st'} (found : r.localMatch q = some l) (goes : follows q l.msg = some target)
      (tail : Resolves lib env r ctx n (retarget q target) st (.ok res) st') (blocked : res.source = .blocked) :
      Resolves lib env r ctx (n + 1) q st (.ok (r.blocked q)) st'
  | aliasFollowed {n q st l target res st'} (found : r.localMatch q = some l)
      (clean : r.blockedAnswerName ctx l.msg = none) (goes : follows q l.msg = some target)
      (tail : Resolves lib env r ctx n (retarget q target) st (.ok res) st') (unblocked : res.source ≠ .blocked) :
      Resolves lib env r ctx (n + 1) q st (.ok ⟨join l.msg res.message, .local, res.upstream⟩) st'
  | refused {n q st} (nothing : r.localMatch q = none) (rd : q.recursionDesired = false) :
      Resolves lib env r ctx (n + 1) q st
        (.ok ⟨{ setRcode q rcodeRefused with recursionAvailable := true }, .refused, []⟩) st
  | cacheBlocked {n q st cache m name} (nothing : r.localMatch q = none) (rd : q.recursionDesired = true)
      (hit : st.cache.get q (env.clock st.world.net) = (cache, some m))
      (blocked : r.blockedAnswerName ctx m = some name) :
      Resolves lib env r ctx (n + 1) q st (.ok (r.blocked q)) { st with cache := cache }
  | cached {n q st cache m} (nothing : r.localMatch q = none) (rd : q.recursionDesired = true)
      (hit : st.cache.get q (env.clock st.world.net) = (cache, some m)) (clean : r.blockedAnswerName ctx m = none) :
      Resolves lib env r ctx (n + 1) q st (.ok ⟨m, .cache, []⟩) { st with cache := cache }
  | forwarded {n q st cache out st'} (nothing : r.localMatch q = none) (rd : q.recursionDesired = true)
      (miss : st.cache.get q (env.clock st.world.net) = (cache, none))
      (sent : r.forward lib env ctx q { st with cache := cache } = (out, st')) :
      Resolves lib env r ctx (n + 1) q st out st'

/-- What an upstream answer is when it is returned and stored. -/
def settled (c : Cache) (m : Msg) : Msg := c.normalizeUpstreamTTL (Cache.normalizeNegativeTTL m)

theorem retimed_settled (c : Cache) (m : Msg) : m.Retimed (settled c m) :=
  (Cache.retimed_normalizeNegativeTTL m).trans (Cache.retimed_normalizeUpstreamTTL c _)

/-- How an upstream answers: it fails, it is blocked, or it is stored. -/
theorem Resolver.forward_cases (lib : Miekg) (env : Env σ) (r : Resolver σ) (ctx : Ctx σ) (q : Msg) (st : State σ) :
    (∃ e w, r.forwarder.resolve lib env ctx q st.world = (.error e, w) ∧
      r.forward lib env ctx q st = (.error ⟨.upstream, e⟩, { st with world := w })) ∨
    ∃ m upstream w, r.forwarder.resolve lib env ctx q st.world = (.ok (m, upstream), w) ∧
      ((∃ name, r.blockedAnswerName ctx m = some name ∧
          r.forward lib env ctx q st = (.ok (r.blocked q), { st with world := w })) ∨
        r.blockedAnswerName ctx m = none ∧
          r.forward lib env ctx q st =
            (.ok ⟨settled st.cache m, .upstream, upstream⟩,
              { st with world := w, cache := st.cache.put lib q (settled st.cache m) (env.clock w.net) })) := by
  unfold forward
  rcases r.forwarder.resolve lib env ctx q st.world with ⟨e | ⟨m, upstream⟩, w⟩
  · exact Or.inl ⟨e, w, rfl, rfl⟩
  · refine Or.inr ⟨m, upstream, w, rfl, ?_⟩
    cases hb : r.blockedAnswerName ctx m with
    | some name => exact Or.inl ⟨name, rfl, by simp [hb]⟩
    | none => exact Or.inr ⟨rfl, by simp [hb, settled]⟩

theorem Resolver.forward_trace (q : Msg) (st : State σ) : (r.forward lib env ctx q st).2.trace = st.trace := by
  rcases r.forward_cases lib env ctx q st with ⟨e, w, -, h⟩ | ⟨m, up, w, -, ⟨name, -, h⟩ | ⟨-, h⟩⟩ <;> rw [h]

/-- A real query ends in one of these ways, and records no trace. -/
theorem resolves : ∀ (n : ℕ) (q : Msg) (st : State σ), st.trace = none →
    Resolves lib env r ctx n q st (r.resolveAt lib env ctx n q st).1 (r.resolveAt lib env ctx n q st).2 ∧
      (r.resolveAt lib env ctx n q st).2.trace = none
  | 0, q, st, h => ⟨.tooDeep, h⟩
  | n + 1, q, st, h => by
    rw [Resolver.resolveAt_real h]
    cases herr : ctx.err st.world.net with
    | some e => exact ⟨.cancelled herr, h⟩
    | none =>
      by_cases hb : r.asksBlocked ctx q = true
      · simp only [hb, if_true]
        exact ⟨.nameBlocked hb, h⟩
      simp only [if_neg hb]
      cases hl : r.localMatch q with
      | none =>
        simp only [Resolver.beyond_real h]
        by_cases hrd : q.recursionDesired = false
        · simp only [hrd, if_true]
          exact ⟨.refused hl hrd, h⟩
        have hrd' : q.recursionDesired = true := by simpa using hrd
        simp only [if_neg hrd]
        rcases hget : st.cache.get q (env.clock st.world.net) with ⟨cache, _ | m⟩
        · exact ⟨.forwarded hl hrd' hget rfl, (Resolver.forward_trace q _).trans h⟩
        · cases hc : r.blockedAnswerName ctx m with
          | some name =>
            simp only [hc]
            exact ⟨.cacheBlocked hl hrd' hget hc, h⟩
          | none =>
            simp only [hc]
            exact ⟨.cached hl hrd' hget hc, h⟩
      | some l =>
        cases hc : r.blockedAnswerName ctx l.msg with
        | some name =>
          simp only [hc]
          exact ⟨.localBlocked hl hc, h⟩
        | none =>
          cases hf : follows q l.msg with
          | none =>
            simp only [hc, hf]
            exact ⟨.answered hl hc hf, h⟩
          | some target =>
            -- the alias is followed one level down
            obtain ⟨hrec, htr⟩ := resolves n (retarget q target) st h
            rcases hres : r.resolveAt lib env ctx n (retarget q target) st with ⟨e | res, st'⟩
            · rw [hres] at hrec htr
              simp only [hc, hf, hres]
              exact ⟨.aliasFailed hl hf hrec, htr⟩
            · rw [hres] at hrec htr
              by_cases hs : res.source = .blocked
              · simp only [hc, hf, hres, hs, if_true]
                exact ⟨.aliasBlocked hl hf hrec hs, htr⟩
              · simp only [hc, hf, hres, hs, if_false]
                exact ⟨.aliasFollowed hl hc hf hrec hs, htr⟩

/-! ### The law of the filter -/

/-- The answer names nothing the filter blocks: no owner and no target of an alias. -/
def Clean (r : Resolver σ) (ctx : Ctx σ) (answer : List RR) : Prop :=
  ∀ rr ∈ answer, r.blockedName ctx rr.name = false ∧ ∀ target, rr.cname? = some target →
    r.blockedName ctx target = false

theorem blockedRecord_eq_none_iff (rr : RR) :
    r.blockedRecord ctx rr = none ↔ r.blockedName ctx rr.name = false ∧
      ∀ target, rr.cname? = some target → r.blockedName ctx target = false := by
  unfold Resolver.blockedRecord
  cases hn : r.blockedName ctx rr.name with
  | true => simp
  | false =>
    cases hc : rr.cname? with
    | none => simp
    | some target => simp

theorem blockedAnswerName_eq_none_iff (m : Msg) : r.blockedAnswerName ctx m = none ↔ Clean r ctx m.answer := by
  unfold Resolver.blockedAnswerName Clean
  rw [List.findSome?_eq_none_iff]
  exact forall₂_congr fun rr _ => blockedRecord_eq_none_iff rr

/-- Clean is a matter of names and targets, so it does not depend on TTLs. -/
theorem clean_retimed {m m' : Msg} (h : m.Retimed m') (hm : Clean r ctx m.answer) : Clean r ctx m'.answer := by
  have hmap : m'.answer.map (fun rr => (rr.name, rr.cname?)) = m.answer.map (fun rr => (rr.name, rr.cname?)) :=
    map_eq_of_untimed (fun _ _ => rfl) h.answer
  intro rr hrr
  have hmem : (rr.name, rr.cname?) ∈ m'.answer.map (fun rr => (rr.name, rr.cname?)) :=
    List.mem_map_of_mem hrr
  rw [hmap] at hmem
  obtain ⟨x, hx, heq⟩ := List.mem_map.1 hmem
  simp only [Prod.mk.injEq] at heq
  rw [← heq.1, ← heq.2]
  exact hm x hx

@[simp] theorem Resolver.blocked_source (r : Resolver σ) (q : Msg) : (r.blocked q).source = .blocked := by
  unfold blocked
  split <;> rfl

/-- At every level, what is not blocked is clean. -/
theorem Resolves.clean {n : ℕ} {q : Msg} {st st' : State σ} {out : Except Failure Result}
    (h : Resolves lib env r ctx n q st out st') :
    ∀ res, out = .ok res → res.source ≠ .blocked → Clean r ctx res.message.answer := by
  induction h with
  | tooDeep => simp
  | cancelled => simp
  | nameBlocked => rintro res ⟨⟩ hs; simp at hs
  | localBlocked => rintro res ⟨⟩ hs; simp at hs
  | answered found clean stop =>
    rintro res ⟨⟩ -
    exact (blockedAnswerName_eq_none_iff _).1 clean
  | aliasFailed => simp
  | aliasBlocked => rintro res ⟨⟩ hs; simp at hs
  | aliasFollowed found clean goes tail unblocked ih =>
    rintro res ⟨⟩ -
    -- the local part was checked here, the rest at the level below
    intro rr hrr
    rcases List.mem_append.1 hrr with hrr | hrr
    · exact (blockedAnswerName_eq_none_iff _).1 clean rr hrr
    · exact ih _ rfl unblocked rr hrr
  | refused =>
    rintro res ⟨⟩ -
    intro rr hrr
    cases hrr
  | cacheBlocked => rintro res ⟨⟩ hs; simp at hs
  | cached nothing rd hit clean =>
    rintro res ⟨⟩ -
    exact (blockedAnswerName_eq_none_iff _).1 clean
  | @forwarded n q st cache out st' nothing rd miss sent =>
    rintro res rfl hs
    rcases r.forward_cases lib env ctx q { st with cache := cache } with
      ⟨e, w, -, hf⟩ | ⟨m, up, w, -, ⟨name, -, hf⟩ | ⟨hclean, hf⟩⟩
    · rw [hf] at sent
      cases sent
    · rw [hf] at sent
      cases sent
      simp at hs
    · rw [hf] at sent
      cases sent
      exact clean_retimed (retimed_settled _ m) ((blockedAnswerName_eq_none_iff m).1 hclean)

/-- **The filter does not leak.** Whatever the rewrites, the zones, the cache and the upstreams hold, an answer that is
not the blocked one has no owner name and no alias target that the filter blocks for the client. -/
theorem resolve_clean (lib : Miekg) (env : Env σ) (r : Resolver σ) (ctx : Ctx σ) (q : Msg) (st : State σ) (res : Result)
    (h : (r.resolve lib env ctx q st).1 = .ok res) (hs : res.source ≠ .blocked) :
    ∀ rr ∈ res.message.answer, r.blockedName ctx rr.name = false ∧
      ∀ target, rr.cname? = some target → r.blockedName ctx target = false :=
  (resolves 16 q { st with trace := none } rfl).1.clean res h hs

end

/-! ### A home network -/

namespace Home

/-- A network nobody answers on. -/
def env : Env Unit where
  clock _ := 0
  id s := (7, s)
  exchange _ _ _ s := (.error (.transport "i/o timeout"), s)

def rule (name type value : String) : Rewrites.Rule := ⟨1, name.toList, type.toList, value.toList, true, []⟩

/-- The rewrites of the network: a name, and an alias for it. -/
def rules : List Rewrites.Rule := [rule "nas.home" "A" "192.0.2.5", rule "files.home" "CNAME" "nas.home"]

/-- A filter with one name on its list. -/
def filter : Filter := { blocked := fun name => name == "ads.home.".toList }

def resolver (rules : List Rewrites.Rule) (zones : Option Zones.Snapshot) : Resolver Unit where
  blockMode := "NXDOMAIN"
  local' := some ⟨some (Rewrites.compile rules), zones⟩
  filter := some filter
  forwarder := ⟨none, { upstreams := ["192.0.2.53:53".toList], retries := 0 }⟩

def lib : Miekg := .ideal []
def ctx : Ctx Unit := ⟨none, fun _ => none, 8⟩
def start : State Unit := { cache := Cache.new 16, world := { net := () } }
def query (name : String) (qtype : UInt16) : Msg := setQuestion 7 name.toList qtype

/-- What the network answers for the alias. -/
def filesAnswer : List RR :=
  [⟨⟨"files.home.".toList, classINET, 300⟩, .cname "nas.home.".toList⟩,
    ⟨⟨"nas.home.".toList, classINET, 300⟩, .a [192, 0, 2, 5]⟩]

end Home

open Home in
theorem resolve_clean_files :
    ((resolver rules none).resolve Home.lib env Home.ctx (query "files.home." typeA) start).1.toOption.map
        (fun res => res.message.answer) = some filesAnswer ∧
      ∀ rr ∈ filesAnswer, (resolver rules none).blockedName Home.ctx rr.name = false ∧
        ∀ target, rr.cname? = some target → (resolver rules none).blockedName Home.ctx target = false := by
  obtain ⟨res, hres, hs, hanswer⟩ : ∃ res : Result,
      ((resolver rules none).resolve Home.lib env Home.ctx (query "files.home." typeA) start).1 = .ok res ∧
        res.source ≠ .blocked ∧ res.message.answer = filesAnswer := ⟨_, rfl, by decide, by decide⟩
  refine ⟨by rw [hres]; simp [Except.toOption, hanswer], ?_⟩
  rw [← hanswer]
  exact resolve_clean _ _ _ _ _ _ res hres hs

end Velora.Dns
