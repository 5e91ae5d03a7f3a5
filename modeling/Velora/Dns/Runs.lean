import Velora.Cache.Refine
import Velora.Dns.Levels
import Velora.Dns.Upstream
import Velora.Zones.Compile

/-!
# Runs of the resolver

A node is a resolver and its state. A run is any sequence of queries of any clients, of changes of the configuration, of
what the administrator and the sweeper do to the cache, and of what the network and the clock do in between. A query
leaves in the cache only entries that were there and answers of the forwarder (`Resolves.entries`), everything else only
removes entries, so that what holds of every answer when it is stored holds of every entry in every run (`run_entries`).
-/

namespace Velora.Dns

open Velora.Lib Velora.Lib.Text Velora.Wire

/-! ### Events -/

/-- The resolver and its state. -/
structure Node (σ : Type) where
  resolver : Resolver σ
  state : State σ

/-- What can happen to a node. A change of rules that drops entries of the cache is two events. -/
inductive Event (σ : Type) where
  | query (ctx : Ctx σ) (q : Msg)
  /-- the services publish new rules, rewrites, zones or a new filter -/
  | forwarding (rules : List Forwarding.Rule)
  | rewrites (rules : List Rewrites.Rule)
  | zones (all : List Zones.Zone)
  | filter (f : Option Filter)
  | blockMode (mode : String)
  | upstreamTTL (seconds : UInt32)
  /-- entries are dropped by name, all at once, or because they have expired -/
  | invalidate (name : Str) (qtype : UInt16) (includeSubdomains : Bool)
  | flush
  | sweep
  /-- time passes and the network changes -/
  | elapse (net : σ)

section

variable {σ : Type} (lib : Miekg) (env : Env σ) (o : Forwarding.Options σ)

/-- The resolver after an event; a list of zones that does not compile is not published. -/
def Resolver.after (r : Resolver σ) : Event σ → Resolver σ
  | .forwarding rules =>
    { r with forwarder := { r.forwarder with rules := r.forwarder.rules.map (Forwarding.compile o rules) } }
  | .rewrites rules =>
    { r with local' := r.local'.map (fun l => { l with rewrites := l.rewrites.map (fun _ => Rewrites.compile rules) }) }
  | .zones all =>
    match Zones.compile lib all with
    | .ok s => { r with local' := r.local'.map (fun l => { l with next := l.next.map (fun _ => s) }) }
    | .error _ => r
  | .filter f => { r with filter := f }
  | .blockMode mode => { r with blockMode := mode }
  | _ => r

/-- The state after an event. -/
def Node.after (node : Node σ) (e : Event σ) : State σ :=
  let st := node.state
  match e with
  | .query ctx q => (node.resolver.resolve lib env ctx q st).2
  | .upstreamTTL seconds => { st with cache := st.cache.setUpstreamTTL seconds }
  | .invalidate name qtype sub => { st with cache := (st.cache.invalidate name qtype sub).1 }
  | .flush => { st with cache := st.cache.flush }
  | .sweep => { st with cache := st.cache.expire (env.clock st.world.net) }
  | .elapse net => { st with world := { st.world with net := net } }
  | _ => st

/-- One event. -/
def Node.step (node : Node σ) (e : Event σ) : Node σ := ⟨node.resolver.after lib o e, node.after lib env e⟩

/-- A run of events. -/
def Node.run (node : Node σ) (events : List (Event σ)) : Node σ := events.foldl (fun n e => n.step lib env o e) node

/-- The answer of a node to a query. -/
def Node.answer (node : Node σ) (ctx : Ctx σ) (q : Msg) : Except Failure Result :=
  (node.resolver.resolve lib env ctx q node.state).1

/-- A node that starts with an empty cache. -/
def Node.new (r : Resolver σ) (max : ℤ) (net : σ) : Node σ := ⟨r, { cache := Cache.new max, world := { net := net } }⟩

end

/-! ### What stays in the cache -/

section

variable {σ : Type} {lib : Miekg} {env : Env σ} {r : Resolver σ} {ctx : Ctx σ}

/-- The cache is consistent, and `P` holds of every entry in the world as it is. -/
structure Holds (P : World σ → Str → Msg → Prop) (st : State σ) : Prop where
  inv : Cache.Inv st.cache
  entries : ∀ e ∈ Cache.values st.cache, P st.world e.key e.message

/-- Every answer the router gives to a query with `Q` has `P` when it is stored. -/
def Supplies (lib : Miekg) (env : Env σ) (router : Forwarding.Router σ) (Q : Msg → Prop)
    (P : World σ → Str → Msg → Prop) : Prop :=
  ∀ ctx q w m up w' c k, Q q → router.resolve lib env ctx q w = (.ok (m, up), w') → Cache.key q = some k →
    P w' k (Cache.normalizeNegativeTTL (settled c m))

/-- What holds of an entry goes on holding when the history of validations grows. -/
def Lasting (P : World σ → Str → Msg → Prop) : Prop :=
  ∀ w w' k m, w.secured <:+ w'.secured → P w k m → P w' k m

variable {P : World σ → Str → Msg → Prop} {Q : Msg → Prop}

theorem Holds.of_subset {st st' : State σ} (h : Holds P st) (hinv : Cache.Inv st'.cache)
    (hsub : ∀ e ∈ Cache.values st'.cache, e ∈ Cache.values st.cache) (hw : st'.world = st.world) : Holds P st' :=
  ⟨hinv, fun e he => hw ▸ h.entries e (hsub e he)⟩

theorem Holds.untraced {st : State σ} (h : Holds P st) : Holds P { st with trace := none } := ⟨h.inv, h.entries⟩

/-- The read of the cache keeps what holds, and what it finds is an entry. -/
theorem Holds.get {st : State σ} {q : Msg} {cache : Cache} {found : Option Msg} {now : ℕ} (h : Holds P st)
    (hget : st.cache.get q now = (cache, found)) :
    Holds P { st with cache := cache } ∧
      ∀ m, found = some m → ∃ e ∈ Cache.values st.cache, Cache.key q = some e.key ∧ m = Cache.aged e q now := by
  obtain ⟨hinv, hent, hfound⟩ := Cache.get_entries h.inv q now
  rw [hget] at hinv hent hfound
  exact ⟨h.of_subset hinv hent rfl, hfound⟩

variable (hP : Lasting P) (hQ : ∀ q target, Q q → Q (retarget q target))

include hP

theorem Holds.world {st : State σ} {w : World σ} (h : Holds P st) (hw : st.world.secured <:+ w.secured) :
    Holds P { st with world := w } :=
  ⟨h.inv, fun e he => hP _ _ _ _ hw (h.entries e he)⟩

theorem forward_entries (ctx : Ctx σ) (hput : Supplies lib env r.forwarder Q P) {q : Msg} {st : State σ} (hq : Q q)
    (h : Holds P st) : Holds P (r.forward lib env ctx q st).2 := by
  have hgrow := (r.forwarder.resolve_world lib env ctx q st.world).2
  rcases r.forward_cases lib env ctx q st with ⟨e, w, hres, hf⟩ | ⟨m, up, w, hres, ⟨name, -, hf⟩ | ⟨-, hf⟩⟩ <;>
    rw [hf] <;> rw [hres] at hgrow
  · exact h.world hP hgrow
  · exact h.world hP hgrow
  · obtain ⟨hinv, hent⟩ := Cache.put_entries h.inv lib q (settled st.cache m) (env.clock w.net)
    refine ⟨hinv, fun e he => ?_⟩
    rcases hent e he with hold | ⟨hk, hm⟩
    · exact hP _ _ _ _ hgrow (h.entries e hold)
    · rw [hm]
      exact hput ctx q st.world m up w st.cache e.key hq hres hk

include hQ

/-- A query keeps what holds of every entry. -/
theorem Resolves.entries {n : ℕ} {q : Msg} {st st' : State σ} {out : Except Failure Result}
    (h : Resolves lib env r ctx n q st out st') (hput : Supplies lib env r.forwarder Q P) (hq : Q q)
    (hst : Holds P st) : Holds P st' := by
  induction h with
  | tooDeep => exact hst
  | cancelled => exact hst
  | nameBlocked => exact hst
  | localBlocked => exact hst
  | answered => exact hst
  | aliasFailed found goes tail ih => exact ih (hQ _ _ hq) hst
  | aliasBlocked found goes tail blocked ih => exact ih (hQ _ _ hq) hst
  | aliasFollowed found clean goes tail unblocked ih => exact ih (hQ _ _ hq) hst
  | refused => exact hst
  | cacheBlocked nothing rd hit blocked => exact (hst.get hit).1
  | cached nothing rd hit clean => exact (hst.get hit).1
  | forwarded nothing rd miss sent =>
    have hkeep := forward_entries hP ctx hput hq (hst.get miss).1
    rw [sent] at hkeep
    exact hkeep

/-- **One event keeps what holds of every entry.** -/
theorem step_entries {o : Forwarding.Options σ} {node : Node σ} {e : Event σ}
    (hput : Supplies lib env node.resolver.forwarder Q P) (he : ∀ ctx q, e = .query ctx q → Q q)
    (h : Holds P node.state) : Holds P (node.step lib env o e).state := by
  cases e with
  | query ctx q =>
    exact (resolves 16 q { node.state with trace := none } rfl).1.entries hP hQ hput (he ctx q rfl) h.untraced
  | upstreamTTL seconds =>
    refine h.of_subset (h.inv.setUpstreamTTL seconds) ?_ rfl
    intro e he
    change e ∈ Cache.values (node.state.cache.setUpstreamTTL seconds) at he
    unfold Cache.setUpstreamTTL at he
    split at he
    · exact he
    · cases he
  | invalidate name qtype sub =>
    obtain ⟨hinv, hent⟩ := Cache.removeWhere_entries h.inv (fun e => _)
    exact h.of_subset hinv hent rfl
  | flush => exact h.of_subset (Cache.Inv.flush _) (fun e he => by cases he) rfl
  | sweep =>
    obtain ⟨hinv, hent⟩ := Cache.removeWhere_entries h.inv (fun e => _)
    exact h.of_subset hinv hent rfl
  | elapse net => exact h.world hP List.suffix_rfl
  | _ => exact h

end

/-! ### Whole runs -/

section

variable {σ : Type} {lib : Miekg} {env : Env σ}

/-- No event changes the default forwarder. -/
theorem Node.step_default {o : Forwarding.Options σ} (node : Node σ) (e : Event σ) :
    (node.step lib env o e).resolver.forwarder.default = node.resolver.forwarder.default := by
  cases e with
  | zones all =>
    simp only [Node.step, Resolver.after]
    split <;> rfl
  | _ => rfl

/-- The zones of a resolver come from `compile`. -/
def Resolver.ZonesCompiled (lib : Miekg) (r : Resolver σ) : Prop :=
  ∀ l s, r.local' = some l → l.next = some s → ∃ all, Zones.compile lib all = .ok s

theorem Node.step_compiled {o : Forwarding.Options σ} {node : Node σ} {e : Event σ}
    (h : node.resolver.ZonesCompiled lib) : (node.step lib env o e).resolver.ZonesCompiled lib := by
  intro l s hl hs
  cases e with
  | zones all =>
    simp only [Node.step, Resolver.after] at hl
    split at hl
    · rename_i s₁ hc
      obtain ⟨l₁, hl₁, rfl⟩ := Option.map_eq_some_iff.1 hl
      obtain ⟨s₂, -, rfl⟩ := Option.map_eq_some_iff.1 hs
      exact ⟨all, hc⟩
    · exact h l s hl hs
  | rewrites rules =>
    obtain ⟨l₁, hl₁, rfl⟩ := Option.map_eq_some_iff.1 hl
    exact h l₁ s hl₁ hs
  | _ => exact h l s hl hs

theorem run_compiled (env : Env σ) (o : Forwarding.Options σ) (node : Node σ) (events : List (Event σ))
    (h : node.resolver.ZonesCompiled lib) : (node.run lib env o events).resolver.ZonesCompiled lib := by
  induction events generalizing node with
  | nil => exact h
  | cons e events ih => exact ih (node.step lib env o e) (Node.step_compiled h)

/-- **What holds of every answer when it is stored holds of every entry, in every run.** The run starts with an empty
cache, and all its queries have `Q`. -/
theorem run_entries (o : Forwarding.Options σ) {P : World σ → Str → Msg → Prop} {Q : Msg → Prop} (hP : Lasting P)
    (hQ : ∀ q target, Q q → Q (retarget q target)) (r : Resolver σ)
    (hput : ∀ rules, Supplies lib env ⟨rules, r.forwarder.default⟩ Q P) (max : ℤ) (net : σ)
    (events : List (Event σ)) (hevents : ∀ ctx q, .query ctx q ∈ events → Q q) :
    let node := (Node.new r max net).run lib env o events
    Holds P node.state ∧ node.resolver.forwarder.default = r.forwarder.default := by
  suffices hall : ∀ node : Node σ, Holds P node.state → node.resolver.forwarder.default = r.forwarder.default →
      Holds P (node.run lib env o events).state ∧
        (node.run lib env o events).resolver.forwarder.default = r.forwarder.default by
    apply hall
    · exact ⟨Cache.Inv.new max, fun e he => by cases he⟩
    · rfl
  induction events with
  | nil => exact fun node h hd => ⟨h, hd⟩
  | cons e events ih =>
    intro node h hd
    have hrest : ∀ ctx q, Event.query ctx q ∈ events → Q q := fun ctx q hq => hevents ctx q (List.mem_cons_of_mem _ hq)
    have hsupply : Supplies lib env node.resolver.forwarder Q P := by
      have := hput node.resolver.forwarder.rules
      rwa [← hd] at this
    refine ih hrest (node.step lib env o e) ?_ ((node.step_default e).trans hd)
    exact step_entries hP hQ hsupply (fun ctx q he => hevents ctx q (he ▸ List.mem_cons_self)) h

end

end Velora.Dns
