import Velora.Cache.Defs
import Velora.Forwarding.Router
import Velora.Rewrites.Local

/-!
# The resolver

`internal/dns/resolver.go`, `filtering.go` and `explain.go`. One function answers a query and explains an answer: with a
trace in its state it is a dry run, which peeks at the cache instead of reading it and asks no upstream. Its recursion
follows local aliases, and `remaining` counts down from the sixteen levels the source allows.
-/

namespace Velora.Dns

open Velora.Lib Velora.Lib.Text Velora.Wire

/-! ### Results and steps -/

/-- What an answer came from. -/
inductive Source where
  | local | blocked | cache | upstream | refused
  deriving DecidableEq

structure Result where
  message : Msg
  source : Source
  upstream : Str := []
  deriving DecidableEq

/-- An error, with the source of the empty result that comes with it. -/
structure Failure where
  source : Source
  err : Err
  deriving DecidableEq

/-- What a filter says about a decision of its own. -/
structure FilterInfo where
  scope : Str
  client : Str
  mode : Str
  matched : List RuleRef
  allowed : List RuleRef
  deriving DecidableEq

inductive StepResult where
  | passed | blocked | allowed | noMatch | answered | miss | hit | refused | wouldForward | error
  deriving DecidableEq

/-- One stage the resolver considered. -/
structure Step where
  stage : Stage
  result : StepResult
  rules : List RuleRef := []
  filter : Option FilterInfo := none
  ttl : Option UInt32 := none
  depth : ℕ := 0
  detail : String := ""
  deriving DecidableEq

/-- The state of a run; `trace` is there in a dry run only. -/
structure State (σ : Type) where
  cache : Cache
  world : World σ
  trace : Option (List Step) := none

/-- `t.add`. -/
def State.add {σ : Type} (st : State σ) (depth : ℕ) (s : Step) : State σ :=
  { st with trace := st.trace.map (fun steps => steps ++ [{ s with depth := depth }]) }

/-! ### The filter -/

/-- `Filter`, with what a `ClientFilter` and a `FilterExplainer` add. -/
structure Filter where
  blocked : Str → Bool
  blockedFor : Option (Addr → Str → Bool) := none
  explain : Option (Option Addr → Str → FilterInfo) := none

structure Resolver (σ : Type) where
  blockMode : String
  local' : Option Rewrites.Local
  filter : Option Filter
  forwarder : Forwarding.Router σ

section

variable {σ : Type}

/-- `blockedName`: the client's policy when filter and client are known, the global one otherwise. -/
def Resolver.blockedName (r : Resolver σ) (ctx : Ctx σ) (name : Str) : Bool :=
  match r.filter with
  | none => false
  | some filter =>
    match filter.blockedFor, ctx.client with
    | some blockedFor, some client => blockedFor client name
    | _, _ => filter.blocked name

/-- The blocked name of one answer record: its owner, or the target of its alias. -/
def Resolver.blockedRecord (r : Resolver σ) (ctx : Ctx σ) (rr : RR) : Option Str :=
  if r.blockedName ctx rr.name then some rr.name
  else
    match rr.cname? with
    | some target => if r.blockedName ctx target then some target else none
    | none => none

/-- `blockedAnswerName`: the first answer owner or alias target the filter blocks. -/
def Resolver.blockedAnswerName (r : Resolver σ) (ctx : Ctx σ) (m : Msg) : Option Str :=
  m.answer.findSome? (r.blockedRecord ctx)

/-- `blocked`: the answer in place of a blocked one. -/
def Resolver.blocked (r : Resolver σ) (q : Msg) : Result :=
  let m := { setRcode q rcodeNameError with recursionAvailable := true }
  if r.blockMode = "ZERO" then
    let header : Header := ⟨q.question0.name, classINET, 0⟩
    let answer : List RR :=
      if q.question0.qtype = typeA then [⟨header, .a (List.replicate 4 0)⟩]
      else if q.question0.qtype = typeAAAA then [⟨header, .aaaa (List.replicate 16 0)⟩]
      else []
    { message := { m with rcode := rcodeSuccess, answer := answer }, source := .blocked }
  else { message := m, source := .blocked }

/-- `filterStep`. -/
def Resolver.filterStep (r : Resolver σ) (ctx : Ctx σ) (depth : ℕ) (name : Str) (blocked : Bool) (detail : String)
    (st : State σ) : State σ :=
  let info := (r.filter.bind Filter.explain).map (fun explain => explain ctx.client name)
  let result :=
    if blocked then .blocked
    else if (info.map (fun i => !i.allowed.isEmpty)).getD false then .allowed
    else .passed
  st.add depth { stage := .filter, result := result, filter := info, detail := detail }

/-! ### The stages -/

/-- Record what the local layer said. -/
def Resolver.localStep (r : Resolver σ) (depth : ℕ) (found : Option LocalMatch) (st : State σ) : State σ :=
  match r.local', found with
  | none, _ => st
  | some _, some m => st.add depth { stage := m.stage, result := .answered, rules := m.rules }
  | some _, none =>
    (st.add depth { stage := .rewrite, result := .noMatch }).add depth { stage := .zone, result := .noMatch }

/-- The alias at the end of a local answer that has to be followed. -/
def follows (q m : Msg) : Option Str :=
  if q.recursionDesired = true ∧ q.question0.qtype ≠ typeCNAME ∧ m.rcode = rcodeSuccess ∧ m.ns = [] then
    m.answer.getLast?.bind RR.cname?
  else none

/-- The query for the target of an alias. -/
def retarget (q : Msg) (target : Str) : Msg :=
  { q with question := { q.question0 with name := target } :: q.question.tail }

/-- A local answer continued by the answer for the target of its alias. -/
def join (m tail : Msg) : Msg :=
  { m with answer := m.answer ++ tail.answer, ns := tail.ns, extra := tail.extra, rcode := tail.rcode }

/-- Ask the cache: a dry run peeks. -/
def probe (env : Env σ) (depth : ℕ) (q : Msg) (st : State σ) : Option Msg × State σ :=
  let now := env.clock st.world.net
  if st.trace.isSome then
    match st.cache.peek q now with
    | some (m, ttl) => (some m, st.add depth { stage := .cache, result := .hit, ttl := some ttl })
    | none => (none, st.add depth { stage := .cache, result := .miss })
  else
    let (cache, found) := st.cache.get q now
    (found, { st with cache := cache })

/-- The step of a dry run in place of a forwarded query. -/
def Resolver.forwardStep (r : Resolver σ) (name : Str) : Step :=
  match r.forwarder.route name with
  | some rule =>
    { stage := .forwarding, result := .wouldForward, rules := [rule]
      detail := "conditional forwarding rule; no upstream was contacted" }
  | none =>
    { stage := .upstream, result := .wouldForward, detail := "global upstream resolvers; none were contacted" }

/-- Ask an upstream, filter what it says and store it. -/
def Resolver.forward (lib : Miekg) (env : Env σ) (r : Resolver σ) (ctx : Ctx σ) (q : Msg) (st : State σ) :
    Except Failure Result × State σ :=
  match r.forwarder.resolve lib env ctx q st.world with
  | (.error e, w) => (.error ⟨.upstream, e⟩, { st with world := w })
  | (.ok (m, upstream), w) =>
    let st := { st with world := w }
    if (r.blockedAnswerName ctx m).isSome then (.ok (r.blocked q), st)
    else
      let m := st.cache.normalizeUpstreamTTL (Cache.normalizeNegativeTTL m)
      (.ok ⟨m, .upstream, upstream⟩, { st with cache := st.cache.put lib q m (env.clock w.net) })

/-- The stages after the local layer: refusal, cache, upstream. -/
def Resolver.beyond (lib : Miekg) (env : Env σ) (r : Resolver σ) (ctx : Ctx σ) (depth : ℕ) (q : Msg) (st : State σ) :
    Except Failure Result × State σ :=
  if !q.recursionDesired then
    (.ok ⟨{ setRcode q rcodeRefused with recursionAvailable := true }, .refused, []⟩,
      st.add depth { stage := .refused, result := .refused, detail := "recursion not desired" })
  else
    match probe env depth q st with
    | (some m, st) =>
      match r.blockedAnswerName ctx m with
      | some name =>
        (.ok (r.blocked q), r.filterStep ctx depth name true "cached answer or CNAME target is blocked" st)
      | none => (.ok ⟨m, .cache, []⟩, st)
    | (none, st) =>
      if st.trace.isSome then
        (.ok ⟨setReply q, .upstream, []⟩, st.add depth (r.forwardStep q.question0.name))
      else r.forward lib env ctx q st

/-- `resolve`, with the levels of recursion that remain. -/
def Resolver.resolveAt (lib : Miekg) (env : Env σ) (r : Resolver σ) (ctx : Ctx σ) :
    ℕ → Msg → State σ → Except Failure Result × State σ
  | 0, _, st => (.error ⟨.local, .depthExceeded⟩, st)
  | remaining + 1, q, st =>
    let depth := 15 - remaining
    match ctx.err st.world.net with
    | some e => (.error ⟨.local, e⟩, st)
    | none =>
      let name := q.question0.name
      let asks := q.question.length == 1
      let st := if asks && r.filter.isSome then r.filterStep ctx depth name (r.blockedName ctx name) "" st else st
      if asks && r.blockedName ctx name then (.ok (r.blocked q), st)
      else
        let found := r.local'.bind (fun l => l.lookup q)
        let st := r.localStep depth found st
        match found with
        | none => r.beyond lib env ctx depth q st
        | some l =>
          match r.blockedAnswerName ctx l.msg with
          | some name =>
            (.ok (r.blocked q), r.filterStep ctx depth name true "answer or CNAME target is blocked" st)
          | none =>
            match follows q l.msg with
            | none => (.ok ⟨l.msg, .local, []⟩, st)
            | some target =>
              match r.resolveAt lib env ctx remaining (retarget q target) st with
              | (.error e, st) => (.error ⟨.local, e.err⟩, st)
              | (.ok tail, st) =>
                if tail.source = .blocked then (.ok (r.blocked q), st)
                else (.ok ⟨join l.msg tail.message, .local, tail.upstream⟩, st)

/-- `Resolve`. -/
def Resolver.resolve (lib : Miekg) (env : Env σ) (r : Resolver σ) (ctx : Ctx σ) (q : Msg) (st : State σ) :
    Except Failure Result × State σ :=
  r.resolveAt lib env ctx 16 q { st with trace := none }

/-! ### Explanations -/

/-- The result of a dry run; `winner` is `none` where the source leaves the zero step. -/
structure Explanation where
  name : Str
  type : String
  client : Option Addr
  source : Source
  winner : Option Step
  rcode : String
  answers : List String
  steps : List Step
  deriving DecidableEq

/-- The results that end a level. -/
def StepResult.terminal : StepResult → Bool
  | .blocked | .answered | .hit | .refused | .wouldForward => true
  | _ => false

/-- The winner: the first terminal step, or the last step that blocked when the answer is blocked. -/
def winner (source : Source) (steps : List Step) : Option Step :=
  steps.foldl (fun best s =>
    if s.result.terminal && (best.isNone || (source == .blocked && s.result == .blocked)) then some s else best) none

def Source.stage : Source → Stage
  | .local => .local | .blocked => .filter | .cache => .cache | .upstream => .upstream | .refused => .refused

/-- The query `Explain` asks. -/
def explainQuery (id : UInt16) (name : Str) (qtype : UInt16) : Msg := setQuestion id (fqdn name) qtype

/-- The context `Explain` asks in. -/
def explainCtx (ctx : Ctx σ) (client : Option Addr) : Ctx σ :=
  match client with
  | some c => ctx.withClient c.unmap
  | none => ctx

/-- `Explain`; `id` is the identifier `SetQuestion` draws. -/
def Resolver.explain (lib : Miekg) (env : Env σ) (r : Resolver σ) (ctx : Ctx σ) (id : UInt16) (name : Str)
    (qtype : UInt16) (client : Option Addr) (st : State σ) : Explanation × State σ :=
  let q := explainQuery id name qtype
  match r.resolveAt lib env (explainCtx ctx client) 16 q { st with trace := some [] } with
  | (result, st) =>
    let steps := st.trace.getD []
    let out : Explanation :=
      { name := q.question0.name, type := lib.typeToString qtype, client := client.map Addr.unmap
        source := .local, winner := none, rcode := "", answers := [], steps := steps }
    let out := match result with
      | .error e =>
        { out with
          source := e.source
          winner := some { stage := e.source.stage, result := .error, detail := e.err.text } }
      | .ok res =>
        { out with
          source := res.source
          rcode := lib.rcodeToString res.message.rcode
          answers := res.message.answer.map lib.rrString
          winner := winner res.source steps }
    (out, { st with trace := none })

end

end Velora.Dns
