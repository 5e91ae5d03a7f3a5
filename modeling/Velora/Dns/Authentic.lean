import Velora.Dns.Chain
import Velora.Dns.Runs

/-!
# The AD bit over whole runs

The forwarder sets the AD bit after `Validate` returned secure and clears it otherwise, a conditional rule's forwarder
never sets it, and the resolver builds its own answers without it. So an entry with the AD bit keeps a reference to a
validated response (`Vouched`), and this is an invariant of runs: an answer with the AD bit is, up to TTLs and removed
DNSSEC records, a response on which `Validate` returned secure for the same question (`run_authentic`).
-/

namespace Velora.Dns

open Velora.Lib Velora.Lib.Text Velora.Wire

section

variable {σ : Type} (lib : Miekg) (env : Env σ) (f : Forwarder σ)

/-- The records are the answer of an upstream on which `Validate` returned secure, for this question and in this run, up
to TTLs and removed DNSSEC records. -/
def Authentic (w : World σ) (q : Question) (records : List RR) : Prop :=
  ∃ q₀ m₀, (q₀, m₀) ∈ w.secured ∧ Heard env m₀ ∧ Secured lib env f q₀ m₀ ∧
    equalFold q₀.question0.name q.name = true ∧ q₀.question0.qtype = q.qtype ∧ q₀.question0.qclass = q.qclass ∧
    (untimed records = untimed m₀.answer ∨ untimed records = untimed (withoutDNSSEC m₀.answer))

/-- What holds of an entry: if it has the AD bit, it was stored for a query without the CD bit and is authentic. -/
def Vouched (w : World σ) (k : Str) (m : Msg) : Prop :=
  m.authenticatedData = true → ∃ q, Cache.key q = some k ∧ q.checkingDisabled = false ∧
    Authentic lib env f w q.question0 m.answer

variable {lib env f}

theorem Authentic.congr {w : World σ} {q q' : Question} {l l' : List RR} (h : Authentic lib env f w q l)
    (hname : equalFold q.name q'.name = true) (htype : q.qtype = q'.qtype) (hclass : q.qclass = q'.qclass)
    (hl : untimed l' = untimed l) : Authentic lib env f w q' l' := by
  obtain ⟨q₀, m₀, hmem, hheard, hsec, hn, ht, hc, hans⟩ := h
  refine ⟨q₀, m₀, hmem, hheard, hsec, ?_, ht.trans htype, hc.trans hclass, by rwa [hl]⟩
  rw [equalFold_iff] at hn hname ⊢
  exact hn.trans hname

theorem vouched_lasting : Lasting (Vouched lib env f) := by
  intro w w' k m hgrow h had
  obtain ⟨q, hk, hcd, q₀, m₀, hmem, hrest⟩ := h had
  exact ⟨q, hk, hcd, q₀, m₀, hgrow.subset hmem, hrest⟩

/-- The answers of a forwarder with the AD bit are authentic. -/
theorem Forwarder.resolve_authentic {ctx : Ctx σ} {q m : Msg} {up : Str} {w w' : World σ}
    (h : f.resolve lib env ctx q w = (.ok (m, up), w')) (had : m.authenticatedData = true) :
    q.checkingDisabled = false ∧ Authentic lib env f w' q.question0 m.answer := by
  obtain ⟨m₁, ad, hheard, -, hm, hsec⟩ := (f.resolve_ok lib env ctx q w).2 m up (by rw [h])
  rw [h] at hsec
  obtain ⟨hcd, hs, hmem⟩ := hsec had
  refine ⟨hcd, q, m₁, hmem, hheard, hs, equalFold_refl _, rfl, rfl, ?_⟩
  rw [hm]
  unfold restore
  dsimp only
  split
  · split
    · exact Or.inr rfl
    · exact Or.inl rfl
  · exact Or.inr rfl

/-- A rule's forwarder has no validator, so its answers have no AD bit. -/
theorem Route.resolve_unauthentic {route : Forwarding.Route σ} {ctx : Ctx σ} {q m : Msg} {up : Str} {w w' : World σ}
    (h : route.forwarder.resolve lib env ctx q w = (.ok (m, up), w')) : m.authenticatedData = false := by
  obtain ⟨m₁, ad, -, -, hm, -⟩ := (route.forwarder.resolve_ok lib env ctx q w).2 m up (by rw [h])
  rw [hm]
  rfl

/-- **An answer of the router with the AD bit is authentic**, with the anchors of the default forwarder. -/
theorem Router.resolve_authentic {rules : Option (Forwarding.Table σ)} {ctx : Ctx σ} {q m : Msg} {up : Str}
    {w w' : World σ} (h : Forwarding.Router.resolve lib env ⟨rules, f⟩ ctx q w = (.ok (m, up), w'))
    (had : m.authenticatedData = true) :
    q.checkingDisabled = false ∧ Authentic lib env f w' q.question0 m.answer := by
  unfold Forwarding.Router.resolve Forwarding.Router.select at h
  split at h
  · cases hroute : Forwarding.Router.match' ⟨rules, f⟩ q.question0.name with
    | some route =>
      rw [hroute] at h
      have hno := Route.resolve_unauthentic h
      rw [had] at hno
      cases hno
    | none =>
      rw [hroute] at h
      exact Forwarder.resolve_authentic h had
  · exact Forwarder.resolve_authentic h had

/-- What the router answers is vouched for when it is stored. -/
theorem vouched_supplies (rules : Option (Forwarding.Table σ)) :
    Supplies lib env ⟨rules, f⟩ (fun _ => True) (Vouched lib env f) := by
  intro ctx q w m up w' c k _ hres hk had
  have hstored := (retimed_settled c m).trans (Cache.retimed_normalizeNegativeTTL _)
  rw [hstored.ad] at had
  obtain ⟨hcd, hauth⟩ := Router.resolve_authentic hres had
  exact ⟨q, hk, hcd, hauth.congr (equalFold_refl _) rfl rfl hstored.answer⟩

/-! ### Answers -/

/-- What is to be shown of an answer with the AD bit to the query `q`. -/
structure AuthenticResult (lib : Miekg) (env : Env σ) (f : Forwarder σ) (w : World σ) (q : Msg) (res : Result) : Prop where
  cd : q.checkingDisabled = false
  source : res.source = .upstream ∨ res.source = .cache
  answer : Authentic lib env f w q.question0 res.message.answer

theorem chase_ad (s : Zones.Snapshot) (kind : UInt16) (n : ℕ) (name : Str) (m : Msg) :
    (s.chase kind n name m).authenticatedData = m.authenticatedData := by
  induction n generalizing name m with
  | zero => rfl
  | succ n ih =>
    rw [Zones.Snapshot.chase]
    split
    · rfl
    split
    · rfl
    split
    · rw [ih]
    · rfl

/-- A local answer has no AD bit. -/
theorem localMatch_ad {r : Resolver σ} {q : Msg} {l : LocalMatch} (h : r.localMatch q = some l) :
    l.msg.authenticatedData = false := by
  obtain ⟨loc, -, hl⟩ := Option.bind_eq_some_iff.1 h
  rcases (Rewrites.Local.lookup_cases hl).2 with ⟨-, t, rules, -, hrw⟩ | ⟨-, -, s, v, -, -, hmsg⟩
  · rw [(Rewrites.Table.rewrite_eq_some hrw).2.2.2]
    rfl
  · rw [hmsg, chase_ad]
    rfl

theorem Resolver.blocked_ad (r : Resolver σ) (q : Msg) : (r.blocked q).message.authenticatedData = false := by
  unfold blocked
  dsimp only
  split <;> rfl

/-- An answer with the AD bit comes from the cache or the router, and is authentic. -/
theorem Resolves.authentic {r : Resolver σ} {ctx : Ctx σ} {n : ℕ} {q : Msg} {st st' : State σ}
    {out : Except Failure Result} (h : Resolves lib env r ctx n q st out st') (hf : r.forwarder.default = f)
    (hst : Holds (Vouched lib env f) st) :
    ∀ res, out = .ok res → res.message.authenticatedData = true → AuthenticResult lib env f st'.world q res := by
  -- what the resolver makes itself, or starts itself, has no AD bit
  have hblocked : ∀ (w : World σ) (q : Msg) (res : Result),
      (Except.ok (r.blocked q) : Except Failure Result) = Except.ok res → res.message.authenticatedData = true →
      AuthenticResult lib env f w q res := by
    rintro w q res ⟨⟩ had
    rw [r.blocked_ad] at had
    cases had
  cases h with
  | tooDeep => simp
  | cancelled => simp
  | nameBlocked => exact hblocked _ _
  | localBlocked => exact hblocked _ _
  | answered found clean stop =>
    rintro res ⟨⟩ had
    rw [localMatch_ad found] at had
    cases had
  | aliasFailed => simp
  | aliasBlocked => exact hblocked _ _
  | aliasFollowed found clean goes tail unblocked =>
    rintro res ⟨⟩ had
    rw [join, localMatch_ad found] at had
    cases had
  | refused =>
    rintro res ⟨⟩ had
    cases had
  | cacheBlocked => exact hblocked _ _
  | cached nothing rd hit clean =>
    rintro res ⟨⟩ had
    obtain ⟨e, he, hk, rfl⟩ := (hst.get hit).2 _ rfl
    have haged := Cache.retimed_aged e q (env.clock st.world.net)
    rw [haged.ad] at had
    obtain ⟨q₁, hk₁, hcd, hauth⟩ := hst.entries e he had
    -- the entry was stored under the key of this query, so for its name, type, class and CD bit
    have htuple : Cache.tuple q₁ = Cache.tuple q := (Cache.key_eq_iff hk₁ hk).1 rfl
    simp only [Cache.tuple, Cache.Tuple.mk.injEq] at htuple
    obtain ⟨hname, htype, hclass, -, hcd', -⟩ := htuple
    refine ⟨hcd' ▸ hcd, Or.inr rfl, hauth.congr (equalFold_iff.2 hname) htype hclass haged.answer⟩
  | @forwarded n q st cache out st' nothing rd miss sent =>
    rintro res rfl had
    rcases r.forward_cases lib env ctx q { st with cache := cache } with
      ⟨e, w, -, hs⟩ | ⟨m, up, w, hres, ⟨name, -, hs⟩ | ⟨-, hs⟩⟩ <;> rw [hs] at sent
    · cases sent
    · cases sent
      exact hblocked _ _ _ rfl had
    · cases sent
      have hset := retimed_settled cache m
      rw [hset.ad] at had
      have hauth : q.checkingDisabled = false ∧ Authentic lib env f w q.question0 m.answer := by
        have hrouter : r.forwarder = ⟨r.forwarder.rules, f⟩ := by rw [← hf]
        rw [hrouter] at hres
        exact Router.resolve_authentic hres had
      exact ⟨hauth.1, Or.inl rfl, hauth.2.congr (equalFold_refl _) rfl rfl hset.answer⟩

/-- **The AD bit is sound over whole runs.** Whatever queries, changes of the rules and of the rest of the configuration
came before, and whatever the upstreams said: an answer with the AD bit is to a query without the CD bit, comes from an
upstream or the cache, and is, up to TTLs and removed DNSSEC records, the answer of an upstream on which `Validate`
returned secure for the same name, type and class. -/
theorem run_authentic (lib : Miekg) (env : Env σ) (o : Forwarding.Options σ) (r : Resolver σ) (max : ℤ) (net : σ)
    (events : List (Event σ)) (ctx : Ctx σ) (q : Msg) (res : Result)
    (h : ((Node.new r max net).run lib env o events).answer lib env ctx q = .ok res)
    (had : res.message.authenticatedData = true) :
    AuthenticResult lib env r.forwarder.default
      ((Node.new r max net).run lib env o (events ++ [.query ctx q])).state.world q res := by
  obtain ⟨hholds, hdef⟩ := run_entries o vouched_lasting (fun _ _ _ => trivial) r
    (fun rules => vouched_supplies rules) max net events (fun _ _ _ => trivial)
  set node := (Node.new r max net).run lib env o events with hnode
  have hrun : (Node.new r max net).run lib env o (events ++ [.query ctx q]) = node.step lib env o (.query ctx q) := by
    rw [hnode, Node.run, List.foldl_append]
    rfl
  rw [hrun]
  exact (resolves 16 q { node.state with trace := none } rfl).1.authentic hdef hholds.untraced res h had

end

/-! ### The signed zone behind an upstream -/

namespace Sample

/-- A network with one upstream, which serves the signed zone. -/
def env : Env Unit where
  clock _ := now
  id s := (7, s)
  exchange _ _ req s :=
    (.ok { (if req.question0.qtype = typeDNSKEY then keyMsg else signedAnswer) with question := req.question }, s)

def validating : Resolver Unit where
  blockMode := "NXDOMAIN"
  local' := none
  filter := none
  forwarder := ⟨none, { upstreams := ["192.0.2.53:53".toList], retries := 0, validator := some anchors }⟩

def ctx : Ctx Unit := ⟨none, fun _ => none, 5⟩

/-- Services whose upstreams are always well. -/
def options : Forwarding.Options Unit := ⟨0, fun _ => ⟨fun _ s => (true, s), fun _ _ s => s⟩⟩

def events : List (Event Unit) := [.query ctx (query "www.example." typeA), .elapse ()]

end Sample

open Sample in
/-- The second client gets the validated answer from the cache, without the signature it did not ask for. -/
theorem run_authentic_cached :
    ∃ res, ((Node.new validating 16 ()).run Sample.lib Sample.env options events).answer Sample.lib Sample.env Sample.ctx
          (query "WWW.example." typeA) = .ok res ∧
      res.source = .cache ∧ res.message.answer = [address] ∧ res.message.authenticatedData = true ∧
      AuthenticResult Sample.lib Sample.env validating.forwarder.default
        ((Node.new validating 16 ()).run Sample.lib Sample.env options
          (events ++ [.query Sample.ctx (query "WWW.example." typeA)])).state.world (query "WWW.example." typeA) res := by
  have hrun : (((Node.new validating 16 ()).run Sample.lib Sample.env options events).answer Sample.lib Sample.env
      Sample.ctx (query "WWW.example." typeA)).toOption.map
        (fun res => (res.source, res.message.answer, res.message.authenticatedData)) =
      some (.cache, [address], true) := by decide +kernel
  obtain ⟨res, hok, hparts⟩ := Option.map_eq_some_iff.1 hrun
  simp only [Prod.mk.injEq] at hparts
  obtain ⟨hsource, hanswer, had⟩ := hparts
  have hres := Loops.eq_ok_of_toOption hok
  exact ⟨res, hres, hsource, hanswer, had, run_authentic _ _ _ _ _ _ _ _ _ res hres had⟩

end Velora.Dns
