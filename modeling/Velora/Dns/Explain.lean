import Velora.Cache.Refine
import Velora.Dns.Levels
import Velora.Dns.Upstream

/-!
# An explanation agrees with the answer

`Explain` runs the resolver with a trace. The dry run and the real query go through the same levels: as long as the real
query asks no upstream, they end with the same result, and where it asks one, the dry run ends with the step that names the
route (`dry_cases`). The dry run only adds steps to its trace (`Quietly`), so an explanation changes nothing
(`explain_agrees`). The two queries may have different identifiers, as `SetQuestion` draws one at random.
-/

namespace Velora.Dns

open Velora.Lib Velora.Lib.Text Velora.Wire

/-! ### Identifiers -/

/-- The message with another identifier. -/
def renumber (id : UInt16) (m : Msg) : Msg := { m with id := id }

theorem chase_renumber (s : Zones.Snapshot) (kind : UInt16) (id : UInt16) (n : ℕ) (name : Str) (m : Msg) :
    s.chase kind n name (renumber id m) = renumber id (s.chase kind n name m) := by
  induction n generalizing name m with
  | zero => rfl
  | succ n ih =>
    rw [Zones.Snapshot.chase, Zones.Snapshot.chase]
    cases s.find name with
    | none => rfl
    | some owner =>
      dsimp only
      split
      · rfl
      split
      · rename_i rr rest hcname
        exact ih (rr.cname?.getD []) { m with answer := m.answer ++ rr :: rest }
      · rfl

theorem rewrite_renumber (t : Rewrites.Table) (id : UInt16) (q : Msg) :
    t.rewrite (renumber id q) = (t.rewrite q).map (fun p => (renumber id p.1, p.2)) := by
  by_cases h : q.question.length ≠ 1 ∨ q.question0.qclass ≠ classINET
  · have hq : t.rewrite q = none := if_pos h
    rw [hq]
    exact if_pos h
  by_cases hrules : t.match' (trimDot (lower q.question0.name)) = []
  · have hq : t.rewrite q = none := (if_neg h).trans (if_pos hrules)
    rw [hq]
    exact (if_neg h).trans (if_pos hrules)
  · have hq : t.rewrite q = some _ := (if_neg h).trans (if_neg hrules)
    rw [hq]
    exact (if_neg h).trans (if_neg hrules)

theorem zones_renumber (s : Zones.Snapshot) (id : UInt16) (q : Msg) :
    s.lookup (renumber id q) = (s.lookup q).map (renumber id) := by
  by_cases h : q.question.length = 1 ∧ q.question0.qclass = classINET
  · rw [Zones.Snapshot.lookup_eq h, Zones.Snapshot.lookup_eq (q := renumber id q) h, Option.map_map]
    refine congrArg (Option.map · _) (funext fun _ => ?_)
    exact chase_renumber s q.question0.qtype id 16 (lower q.question0.name)
      { setReply q with authoritative := true, recursionAvailable := true }
  · have hno : q.question.length ≠ 1 ∨ q.question0.qclass ≠ classINET := by rwa [not_and_or] at h
    have hq : s.lookup q = none := if_pos hno
    rw [hq]
    exact if_pos hno

section

variable {σ : Type} {lib : Miekg} {env : Env σ} {r : Resolver σ} {ctx : Ctx σ}

/-- The local layer answers a renumbered query with the renumbered answer. -/
theorem localMatch_renumber (id : UInt16) (q : Msg) :
    r.localMatch (renumber id q) = (r.localMatch q).map (fun l => { l with msg := renumber id l.msg }) := by
  unfold Resolver.localMatch
  cases r.local' with
  | none => rfl
  | some l =>
    simp only [Option.bind_some, Rewrites.Local.lookup]
    have hrw : l.rewrites.bind (fun t => t.rewrite (renumber id q)) =
        (l.rewrites.bind (fun t => t.rewrite q)).map (fun p => (renumber id p.1, p.2)) := by
      cases l.rewrites with
      | none => rfl
      | some t => exact rewrite_renumber t id q
    rw [hrw]
    cases l.rewrites.bind (fun t => t.rewrite q) with
    | some p => rfl
    | none =>
      cases l.next with
      | none => rfl
      | some s =>
        simp only [Option.map_none, zones_renumber]
        cases s.lookup q with
        | none => rfl
        | some m => rfl

theorem peek_renumber (c : Cache) (id : UInt16) (q : Msg) (now : ℕ) :
    c.peek (renumber id q) now = (c.peek q now).map (fun p => (renumber id p.1, p.2)) := by
  have hkey : Cache.key (renumber id q) = Cache.key q := rfl
  unfold Cache.peek
  rw [hkey]
  cases (Cache.key q).bind c.lookup with
  | none => rfl
  | some el =>
    dsimp only
    split
    · rfl
    · rfl

theorem blocked_renumber (id : UInt16) (q : Msg) :
    r.blocked (renumber id q) = { r.blocked q with message := renumber id (r.blocked q).message } := by
  unfold Resolver.blocked
  dsimp only
  split <;> rfl

/-! ### Quiet steps -/

/-- The dry run has added steps to its trace, none of which forwards, and changed nothing else. -/
structure Quietly (st st' : State σ) : Prop where
  cache : st'.cache = st.cache
  world : st'.world = st.world
  trace : ∃ steps more, st.trace = some steps ∧ st'.trace = some (steps ++ more) ∧
    ∀ s ∈ more, s.result ≠ .wouldForward

namespace Quietly

theorem refl {st : State σ} (h : st.trace.isSome) : Quietly st st := by
  obtain ⟨steps, hsteps⟩ := Option.isSome_iff_exists.1 h
  exact ⟨rfl, rfl, steps, [], hsteps, by simp [hsteps], by simp⟩

theorem isSome {st st' : State σ} (h : Quietly st st') : st'.trace.isSome := by
  obtain ⟨steps, more, -, h', -⟩ := h.trace
  rw [h']
  rfl

theorem trans {a b c : State σ} (h : Quietly a b) (h' : Quietly b c) : Quietly a c := by
  obtain ⟨steps, more, ha, hb, hquiet⟩ := h.trace
  obtain ⟨steps', more', hb', hc, hquiet'⟩ := h'.trace
  rw [hb, Option.some.injEq] at hb'
  subst hb'
  refine ⟨h'.cache.trans h.cache, h'.world.trans h.world, steps, more ++ more', ha, by rw [hc, List.append_assoc], ?_⟩
  intro s hs
  rcases List.mem_append.1 hs with hs | hs
  · exact hquiet s hs
  · exact hquiet' s hs

theorem add {st : State σ} (h : st.trace.isSome) (depth : ℕ) {s : Step} (hs : s.result ≠ .wouldForward) :
    Quietly st (st.add depth s) := by
  obtain ⟨steps, hsteps⟩ := Option.isSome_iff_exists.1 h
  refine ⟨rfl, rfl, steps, [{ s with depth := depth }], hsteps, by simp [State.add, hsteps], ?_⟩
  intro x hx
  rw [List.mem_singleton.1 hx]
  exact hs

theorem filterStep {st : State σ} (h : st.trace.isSome) (depth : ℕ) (name : Str) (b : Bool) (detail : String) :
    Quietly st (r.filterStep ctx depth name b detail st) := by
  apply add h
  dsimp only
  split
  · simp
  split <;> simp

theorem localStep {st : State σ} (h : st.trace.isSome) (depth : ℕ) (found : Option LocalMatch) :
    Quietly st (r.localStep depth found st) := by
  unfold Resolver.localStep
  split
  · exact refl h
  · exact add h depth (by simp)
  · have h1 : Quietly st (st.add depth { stage := .rewrite, result := .noMatch }) := add h depth (by simp)
    exact h1.trans (add h1.isSome depth (by simp))

end Quietly

/-! ### Both runs, level by level -/

/-- The results of the two runs are the same, but for the identifiers. -/
def Alike : Except Failure Result → Except Failure Result → Prop
  | .error e, .error e' => e' = e
  | .ok res, .ok res' => res'.source = res.source ∧ res'.message.rcode = res.message.rcode ∧
      res'.message.answer = res.message.answer
  | _, _ => False

/-- How the outcomes of a real query in the state `st` and a dry run in the state `dst` compare: the query asked no
upstream and the results are alike, or it asked one and the dry run ends with the step that names its route. -/
def Compare (r : Resolver σ) (st dst : State σ) (real dry : Except Failure Result × State σ) : Prop :=
  (real.2.world.asked = st.world.asked ∧ Quietly dst dry.2 ∧ Alike real.1 dry.1) ∨
  ∃ q depth mid, real.2.world.asked = q :: st.world.asked ∧ q.question.length = 1 ∧ Quietly dst mid ∧
    dry.2 = mid.add depth (r.forwardStep q.question0.name) ∧ ∃ res, dry.1 = .ok res ∧ res.source ≠ .blocked

/-- Quiet steps before the dry run do not matter. -/
theorem Compare.after {st dst dst' : State σ} {real dry : Except Failure Result × State σ} (hq : Quietly dst dst')
    (h : Compare r st dst' real dry) : Compare r st dst real dry := by
  rcases h with ⟨hasked, hquiet, halike⟩ | ⟨q, depth, mid, hasked, hone, hquiet, hrest⟩
  · exact Or.inl ⟨hasked, hq.trans hquiet, halike⟩
  · exact Or.inr ⟨q, depth, mid, hasked, hone, hq.trans hquiet, hrest⟩

/-- Both runs give the answer of a blocked name. -/
theorem Compare.blocked {st dst dst' st' : State σ} (id : UInt16) (q : Msg) (hst : st'.world = st.world)
    (hq : Quietly dst dst') : Compare r st dst (.ok (r.blocked q), st') (.ok (r.blocked (renumber id q)), dst') := by
  refine Or.inl ⟨congrArg World.asked hst, hq, ?_⟩
  rw [blocked_renumber]
  exact ⟨rfl, rfl, rfl⟩

/-- The later stages. -/
theorem beyond_compare {st dst : State σ} (hreal : st.trace = none) (hdry : dst.trace.isSome)
    (hcache : dst.cache = st.cache) (hworld : dst.world = st.world) (depth : ℕ) (id : UInt16) {q : Msg}
    (hone : q.question.length = 1) :
    Compare r st dst (r.beyond lib env ctx depth q st) (r.beyond lib env ctx depth (renumber id q) dst) := by
  rw [Resolver.beyond_real hreal]
  unfold Resolver.beyond probe
  have hrenum : (renumber id q).recursionDesired = q.recursionDesired := rfl
  rw [hrenum]
  cases hrd : q.recursionDesired with
  | false =>
    exact Or.inl ⟨rfl, Quietly.add hdry depth (by simp), rfl, rfl, rfl⟩
  | true =>
    simp only [hdry, Bool.not_true, Bool.false_eq_true, if_false, if_true, hcache, hworld, peek_renumber, reduceCtorEq]
    have hget := Cache.get_eq_peek st.cache q (env.clock st.world.net)
    rcases hg : st.cache.get q (env.clock st.world.net) with ⟨cache, found⟩
    rw [hg] at hget
    cases hp : st.cache.peek q (env.clock st.world.net) with
    | some p =>
      rw [hp] at hget
      subst hget
      have hhit : Quietly dst (dst.add depth { stage := .cache, result := .hit, ttl := some p.2 }) :=
        Quietly.add hdry depth (by simp)
      have hname : r.blockedAnswerName ctx (renumber id p.1) = r.blockedAnswerName ctx p.1 := rfl
      simp only [Option.map_some, hname]
      cases r.blockedAnswerName ctx p.1 with
      | some name => exact Compare.blocked id q rfl (hhit.trans (Quietly.filterStep hhit.isSome _ _ _ _))
      | none => exact Or.inl ⟨rfl, hhit, rfl, rfl, rfl⟩
    | none =>
      rw [hp] at hget
      subst hget
      have hmiss : Quietly dst (dst.add depth { stage := .cache, result := .miss }) := Quietly.add hdry depth (by simp)
      simp only [Option.map_none, hmiss.isSome, if_true]
      -- the real query asks the router, the dry run names the route
      have hasked := (r.forwarder.resolve_world lib env ctx q st.world).1
      refine Or.inr ⟨q, depth, _, ?_, hone, hmiss, rfl, _, rfl, by simp⟩
      rcases r.forward_cases lib env ctx q { st with cache := cache } with
        ⟨e, w, hres, hf⟩ | ⟨m, up, w, hres, ⟨name, -, hf⟩ | ⟨-, hf⟩⟩ <;>
        rw [hf] <;> rw [hres] at hasked <;> exact hasked

/-- **The two runs agree**, at every level. -/
theorem dry_cases (lib : Miekg) (env : Env σ) (r : Resolver σ) (ctx : Ctx σ) (id : UInt16) (n : ℕ) (q : Msg)
    (st dst : State σ) (hreal : st.trace = none) (hdry : dst.trace.isSome) (hcache : dst.cache = st.cache)
    (hworld : dst.world = st.world) (hone : q.question.length = 1) :
    Compare r st dst (r.resolveAt lib env ctx n q st) (r.resolveAt lib env ctx n (renumber id q) dst) := by
  induction n generalizing q dst with
  | zero => exact Or.inl ⟨rfl, Quietly.refl hdry, rfl⟩
  | succ n ih =>
    rw [Resolver.resolveAt_real hreal, Resolver.resolveAt]
    dsimp only
    rw [hworld]
    cases ctx.err st.world.net with
    | some e => exact Or.inl ⟨rfl, Quietly.refl hdry, rfl⟩
    | none =>
      dsimp only
      -- the state of the dry run after the check of the name, and after the local layer
      set d₁ := if (((renumber id q).question.length == 1) && r.filter.isSome) = true then
        r.filterStep ctx (15 - n) (renumber id q).question0.name (r.blockedName ctx (renumber id q).question0.name) "" dst
        else dst with hd₁
      have hq₁ : Quietly dst d₁ := by
        rw [hd₁]
        split
        · exact Quietly.filterStep hdry _ _ _ _
        · exact Quietly.refl hdry
      have hasks : ((renumber id q).question.length == 1 && r.blockedName ctx (renumber id q).question0.name) =
        r.asksBlocked ctx q := rfl
      rw [hasks]
      by_cases hb : r.asksBlocked ctx q = true
      · simp only [hb, if_true]
        exact Compare.blocked id q rfl hq₁
      simp only [if_neg hb]
      have hlocal : r.local'.bind (fun l => l.lookup (renumber id q)) =
        (r.localMatch q).map (fun l => { l with msg := renumber id l.msg }) := localMatch_renumber id q
      rw [hlocal]
      set d₂ := r.localStep (15 - n) ((r.localMatch q).map (fun l => { l with msg := renumber id l.msg })) d₁ with hd₂
      have hq₂ : Quietly dst d₂ := hq₁.trans (Quietly.localStep hq₁.isSome _ _)
      cases hl : r.localMatch q with
      | none =>
        exact Compare.after hq₂
          (beyond_compare hreal hq₂.isSome (hq₂.cache.trans hcache) (hq₂.world.trans hworld) _ id hone)
      | some l =>
        simp only [Option.map_some]
        have hname : r.blockedAnswerName ctx (renumber id l.msg) = r.blockedAnswerName ctx l.msg := rfl
        rw [hname]
        cases r.blockedAnswerName ctx l.msg with
        | some name => exact Compare.blocked id q rfl (hq₂.trans (Quietly.filterStep hq₂.isSome _ _ _ _))
        | none =>
          have hfollows : follows (renumber id q) (renumber id l.msg) = follows q l.msg := rfl
          simp only [hfollows]
          cases follows q l.msg with
          | none => exact Or.inl ⟨rfl, hq₂, rfl, rfl, rfl⟩
          | some target =>
            have hretarget : retarget (renumber id q) target = renumber id (retarget q target) := rfl
            have hlen : (retarget q target).question.length = 1 := by
              simp only [retarget, List.length_cons, List.length_tail, hone]
            have htail := Compare.after hq₂ (ih (retarget q target) d₂ hq₂.isSome (hq₂.cache.trans hcache)
              (hq₂.world.trans hworld) hlen)
            simp only [hretarget]
            generalize r.resolveAt lib env ctx n (retarget q target) st = real at htail ⊢
            generalize r.resolveAt lib env ctx n (renumber id (retarget q target)) d₂ = dry at htail ⊢
            obtain ⟨real, st'⟩ := real
            obtain ⟨dry, d'⟩ := dry
            rcases htail with ⟨hasked, hquiet, halike⟩ | ⟨q', depth, mid, hasked, hlen', hquiet, hlast, res, hres, hsrc⟩
            · -- no upstream below, so none here
              rcases real with e | tail <;> rcases dry with e' | tail'
              · cases halike
                exact Or.inl ⟨hasked, hquiet, rfl⟩
              · cases halike
              · cases halike
              · obtain ⟨hsource, hrcode, hanswer⟩ := halike
                dsimp only
                rw [hsource]
                by_cases hs : tail.source = .blocked
                · simp only [hs, if_true]
                  refine Or.inl ⟨hasked, hquiet, ?_⟩
                  rw [blocked_renumber]
                  exact ⟨rfl, rfl, rfl⟩
                · simp only [hs, if_false]
                  refine Or.inl ⟨hasked, hquiet, rfl, hrcode, ?_⟩
                  simp only [join, renumber, hanswer]
            · subst hres
              dsimp only
              rw [if_neg hsrc]
              refine Or.inr ⟨q', depth, mid, ?_, hlen', hquiet, hlast, _, rfl, by simp⟩
              rcases real with e | tail
              · exact hasked
              · dsimp only
                split <;> exact hasked

/-! ### Explanations -/

/-- The explanation reports what the query returned: source, response code and answer records. -/
def Reports (lib : Miekg) (x : Explanation) : Except Failure Result → Prop
  | .error e => x.source = e.source ∧ x.rcode = "" ∧ x.answers = []
  | .ok res => x.source = res.source ∧ x.rcode = lib.rcodeToString res.message.rcode ∧
      x.answers = res.message.answer.map lib.rrString

/-- The explanation ends with its only forwarding step, and that step names the rule whose forwarder the router selects
for the query `q`, or says that the router selects the default forwarder. -/
def ReportsRoute (r : Resolver σ) (x : Explanation) (q : Msg) : Prop :=
  ∃ before step, x.steps = before ++ [step] ∧ (∀ s ∈ before, s.result ≠ .wouldForward) ∧ step.result = .wouldForward ∧
    ((∃ route, r.forwarder.match' q.question0.name = some route ∧ r.forwarder.select q = route.forwarder ∧
        step.stage = .forwarding ∧ step.rules =
          [⟨route.rule.id, route.rule.domain, List.intercalate ", ".toList route.rule.upstreams⟩]) ∨
      r.forwarder.match' q.question0.name = none ∧ r.forwarder.select q = r.forwarder.default ∧
        step.stage = .upstream ∧ step.rules = [])

/-- The last step of a dry run names the route the router takes. -/
theorem reportsRoute_forwardStep {x : Explanation} {q : Msg} {before : List Step} (depth : ℕ)
    (hone : q.question.length = 1) (hquiet : ∀ s ∈ before, s.result ≠ .wouldForward)
    (hx : x.steps = before ++ [{ r.forwardStep q.question0.name with depth := depth }]) : ReportsRoute r x q := by
  refine ⟨before, _, hx, hquiet, ?_⟩
  cases hm : r.forwarder.match' q.question0.name with
  | some route =>
    have hroute : r.forwardStep q.question0.name =
        { stage := .forwarding, result := .wouldForward
          rules := [⟨route.rule.id, route.rule.domain, List.intercalate ", ".toList route.rule.upstreams⟩]
          detail := "conditional forwarding rule; no upstream was contacted" } := by
      simp only [Resolver.forwardStep, Forwarding.Router.route, hm, Option.map_some]
    rw [hroute]
    exact ⟨rfl, Or.inl ⟨route, rfl, by simp [Forwarding.Router.select, hone, hm], rfl, rfl⟩⟩
  | none =>
    have hroute : r.forwardStep q.question0.name =
        { stage := .upstream, result := .wouldForward
          detail := "global upstream resolvers; none were contacted" } := by
      simp only [Resolver.forwardStep, Forwarding.Router.route, hm, Option.map_none]
    rw [hroute]
    exact ⟨rfl, Or.inr ⟨rfl, by simp [Forwarding.Router.select, hone, hm], rfl, rfl⟩⟩

theorem Reports.of_alike {x : Explanation} {real dry : Except Failure Result} (h : Alike real dry)
    (hx : Reports lib x dry) : Reports lib x real := by
  cases real with
  | error e =>
    cases dry with
    | ok res => cases h
    | error e' =>
      cases h
      exact hx
  | ok res =>
    cases dry with
    | error e => cases h
    | ok res' =>
      obtain ⟨hsource, hrcode, hanswer⟩ := h
      obtain ⟨h1, h2, h3⟩ := hx
      exact ⟨h1.trans hsource, by rw [h2, hrcode], by rw [h3, hanswer]⟩

/-- What `Explain` makes of its dry run. -/
theorem explain_spec {id : UInt16} {name : Str} {qtype : UInt16} {client : Option Addr} {st dst : State σ}
    {dry : Except Failure Result} (h : r.resolveAt lib env (explainCtx ctx client) 16 (explainQuery id name qtype)
      { st with trace := some [] } = (dry, dst)) :
    let x := r.explain lib env ctx id name qtype client st
    x.2 = { dst with trace := none } ∧ x.1.steps = dst.trace.getD [] ∧ Reports lib x.1 dry := by
  simp only [Resolver.explain, h, true_and]
  cases dry with
  | error e => exact ⟨rfl, rfl, rfl, rfl⟩
  | ok res => exact ⟨rfl, rfl, rfl, rfl⟩

/-- **An explanation agrees with the answer.** In every state, for every name, type and client: the explanation leaves
the cache and the world as they are; if the query asks no upstream, at any level of its aliases, the explanation reports
its source, response code and answer records; otherwise it names the route the router selects for the query that is
forwarded. -/
theorem explain_agrees (lib : Miekg) (env : Env σ) (r : Resolver σ) (ctx : Ctx σ) (id id' : UInt16) (name : Str)
    (qtype : UInt16) (client : Option Addr) (st : State σ) :
    let x := r.explain lib env ctx id name qtype client st
    let real := r.resolve lib env (explainCtx ctx client) (explainQuery id' name qtype) st
    x.2.cache = st.cache ∧ x.2.world = st.world ∧
      (real.2.world.asked = st.world.asked → Reports lib x.1 real.1) ∧
      (real.2.world.asked ≠ st.world.asked →
        ∃ q, real.2.world.asked = q :: st.world.asked ∧ ReportsRoute r x.1 q) := by
  intro x real
  have hdry := dry_cases lib env r (explainCtx ctx client) id 16 (explainQuery id' name qtype)
    { st with trace := none } { st with trace := some [] } rfl rfl rfl rfl rfl
  change Compare r _ _ real (r.resolveAt lib env (explainCtx ctx client) 16 (explainQuery id name qtype) _) at hdry
  rcases hd : r.resolveAt lib env (explainCtx ctx client) 16 (explainQuery id name qtype) { st with trace := some [] }
    with ⟨dry, dst⟩
  obtain ⟨hstate, hsteps, hreports⟩ := explain_spec hd
  rw [hd] at hdry
  rcases hdry with ⟨hasked, hquiet, halike⟩ | ⟨q, depth, mid, hasked, hone, hquiet, hlast, -⟩
  · -- no upstream was asked
    refine ⟨?_, ?_, fun _ => hreports.of_alike halike, fun hne => absurd hasked hne⟩
    · rw [hstate, ← hquiet.cache]
    · rw [hstate, ← hquiet.world]
  · -- the dry run stopped where the query was forwarded
    obtain ⟨steps, more, hempty, htrace, hnone⟩ := hquiet.trace
    cases hempty
    dsimp only at hlast
    subst hlast
    refine ⟨by rw [hstate, ← hquiet.cache]; rfl, by rw [hstate, ← hquiet.world]; rfl, fun heq => ?_, fun _ => ?_⟩
    · rw [hasked] at heq
      exact absurd heq (List.cons_ne_self q _)
    · refine ⟨q, hasked, reportsRoute_forwardStep depth hone hnone ?_⟩
      rw [hsteps, State.add, htrace]
      rfl

end

end Velora.Dns
