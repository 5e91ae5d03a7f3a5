import Velora.Dns.Forwarder

/-!
# Conditional forwarding

`internal/forwarding`: the table of enabled rules and the router that sends a query to the upstreams of the most specific
rule, or to the default forwarder. A rule's forwarder has no validator (`Route.forwarder`): its names are private.
-/

namespace Velora.Forwarding

open Velora.Lib Velora.Lib.Text Velora.Wire Velora.Dns

structure Rule where
  id : ℤ
  domain : Str
  upstreams : List Str
  enabled : Bool
  description : Str
  deriving DecidableEq

structure Route (σ : Type) where
  rule : Rule
  retries : ℤ
  health : Health σ

/-- `forwarder`. -/
def Route.forwarder {σ : Type} (r : Route σ) : Forwarder σ :=
  { upstreams := r.rule.upstreams, retries := r.retries, health := some r.health }

abbrev Table (σ : Type) := Map Str (Route σ)

/-- What the service makes its forwarders with. -/
structure Options (σ : Type) where
  retries : ℤ
  newHealth : List Str → Health σ

section

variable {σ : Type}

/-- `compile`: a rule with the upstreams it had before keeps its health. -/
def compile (o : Options σ) (rules : List Rule) (previous : Table σ) : Table σ :=
  (rules.filter Rule.enabled).foldl (fun out rule =>
    let health := match previous.lookup rule.domain with
      | some old => if old.rule.upstreams = rule.upstreams then old.health else o.newHealth rule.upstreams
      | none => o.newHealth rule.upstreams
    out.insert rule.domain ⟨rule, o.retries, health⟩) ∅

/-- `match`: the most specific enabled rule covering a name. -/
def Table.match' (routes : Table σ) (name : Str) : Option (Route σ) :=
  (suffixes (trimDot (lower name))).findSome? routes.lookup

structure Router (σ : Type) where
  rules : Option (Table σ)
  default : Forwarder σ

/-- The rule that handles a name. -/
def Router.match' (r : Router σ) (name : Str) : Option (Route σ) := r.rules.bind (fun t => t.match' name)

/-- The forwarder `Router.Resolve` selects for a query. -/
def Router.select (r : Router σ) (q : Msg) : Forwarder σ :=
  if q.question.length = 1 then ((r.match' q.question0.name).map Route.forwarder).getD r.default else r.default

/-- `Router.Resolve`; the query goes into the history. -/
def Router.resolve (lib : Miekg) (env : Env σ) (r : Router σ) (ctx : Ctx σ) (q : Msg) (w : World σ) :
    Except Err (Msg × Str) × World σ :=
  (r.select q).resolve lib env ctx q { w with asked := q :: w.asked }

/-- `Router.Route`. -/
def Router.route (r : Router σ) (name : Str) : Option RuleRef :=
  (r.match' name).map (fun route =>
    ⟨route.rule.id, route.rule.domain, List.intercalate ", ".toList route.rule.upstreams⟩)

end

end Velora.Forwarding
