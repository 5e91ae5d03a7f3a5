import Velora.Dns.Runs
import Velora.Filtering.Names
import Velora.Lib.Prog

/-!
# The rules of conditional forwarding, while queries are under way

`internal/forwarding/forwarding.go` and `Resolver.resolve` as programs of atomic steps: a query reads the filter and the
local layer, reads the cache, chooses its route, asks the upstream and stores the answer, each a step of its own; a save or a
delete holds the mutex of the service, publishes the new table and then drops the entries of the rule's domain from the cache,
as `internal/app/app.go` has it.

The history variables at the end of `Live` are read by no program: they number the tables that are published and keep the
number of the table each route was chosen from.
-/

namespace Velora.Forwarding

open Velora.Lib Velora.Lib.Text Velora.Lib.Ip Velora.Wire Velora.Dns
open Velora.Zones (byteLen)

/-! ### Addresses with a port -/

/-- `netip.AddrPort`: the four or sixteen bytes of the address, its zone and the port. -/
structure AddrPort where
  ip : List UInt8
  zone : Str := []
  port : ℕ
  deriving DecidableEq

/-- `netip.ParseAddr`, with the zone an IPv6 address may have. -/
def parseZoned (s : Str) : Option (List UInt8 × Str) :=
  match s.find? (fun c => c == '.' || c == ':' || c == '%'), s.span (· ≠ '%') with
  | some ':', (address, _ :: zone) => if zone = [] then none else (parseIPv6 address).map (fun ip => (ip, zone))
  | _, _ => (parseAddr s).map (fun ip => (ip, []))

/-- `strconv.ParseUint(s, 10, 16)`. -/
def parsePort (s : Str) : Option ℕ :=
  if s ≠ [] ∧ s.all Char.isDigit ∧ Nat.ofDigitChars 10 s 0 < 65536 then some (Nat.ofDigitChars 10 s 0) else none

/-- `netip.ParseAddrPort`: an IPv6 address stands in brackets, an IPv4 address does not. -/
def parseAddrPort (s : Str) : Option AddrPort := do
  let (port, rest) := s.reverse.span (· ≠ ':')
  let host := rest.tail.reverse
  if rest = [] ∨ host = [] then none
  else
    let port ← parsePort port.reverse
    if host.head? = some '[' then
      if host.length < 2 ∨ host.getLast? ≠ some ']' then none
      else
        let (ip, zone) ← parseZoned host.tail.dropLast
        if ip.length = 4 then none else some ⟨ip, zone, port⟩
    else
      let (ip, zone) ← parseZoned host
      if ip.length = 16 then none else some ⟨ip, zone, port⟩

/-- `Addr.Unmap`: the zone of an IPv4-mapped address is dropped too. -/
def AddrPort.unmap (a : AddrPort) : AddrPort :=
  match to4 a.ip with
  | some ip => { a with ip := ip, zone := [] }
  | none => a

/-- `IsUnspecified`, of an address without a zone. -/
def AddrPort.isUnspecified (a : AddrPort) : Bool := a.zone = [] && a.ip.all (· == 0)

def AddrPort.isMulticast (a : AddrPort) : Bool :=
  if a.ip.length = 4 then a.ip.headI &&& 0xf0 == 0xe0 else a.ip.headI == 0xff

def AddrPort.isLoopback (a : AddrPort) : Bool :=
  if a.ip.length = 4 then a.ip.headI == 127 else a.ip == List.replicate 15 0 ++ [1]

/-- `String`, of an address without a zone. -/
def AddrPort.text (a : AddrPort) : Str :=
  if a.ip.length = 4 then ipString a.ip ++ ':' :: decimal a.port
  else '[' :: (ipString a.ip ++ ']' :: ':' :: decimal a.port)

/-! ### Rules that are accepted -/

inductive Error where
  | invalid (text : String)
  | notFound
  | alreadyExists
  | store (text : String)
  deriving DecidableEq

def maxRules : ℕ := 256
def maxUpstreams : ℕ := 4
def maxDescription : ℕ := 200
def defaultUpstreamPort : ℕ := 53

/-- `strings.Trim(s, "[]")`. -/
def trimBrackets (s : Str) : Str :=
  let bracket (c : Char) : Bool := c == '[' || c == ']'
  ((s.dropWhile bracket).reverse.dropWhile bracket).reverse

/-- `%q`, of a text without characters that are escaped. -/
def quoted (s : Str) : String := "\"" ++ String.ofList s ++ "\""

/-- `ParseUpstream`. -/
def parseUpstream (raw : Str) : Except Error AddrPort :=
  let raw := trimSpaces raw
  let parsed := match parseAddrPort raw with
    | some address => some address
    | none => (parseZoned (trimBrackets raw)).map (fun (ip, zone) => ⟨ip, zone, defaultUpstreamPort⟩)
  match parsed with
  | none => .error (.invalid (quoted raw ++ " is not an IP address or IP:port"))
  | some address =>
    let address := address.unmap
    if address.zone ≠ [] ∨ address.isUnspecified ∨ address.isMulticast ∨ address.port = 0 then
      .error (.invalid (quoted raw ++ " is not a usable resolver address"))
    else .ok address

/-- `isSelf`: the address is one of the resolver's own listeners. -/
def isSelf (self : List AddrPort) (address : AddrPort) : Bool :=
  self.any (fun listen => listen.port == address.port &&
    (({ listen with port := 0 } : AddrPort).unmap == { address with port := 0 } ||
      listen.isUnspecified && address.isLoopback))

/-- The loop of `normalize` over the upstreams. -/
def normalizeUpstreams (self : List AddrPort) : List Str → List Str → Except Error (List Str)
  | upstreams, [] => .ok upstreams
  | upstreams, raw :: rest => do
    let address ← parseUpstream raw
    if isSelf self address then
      .error (.invalid (String.ofList address.text ++ " is this resolver's own listener and would create a forwarding loop"))
    else if upstreams.contains address.text then
      .error (.invalid (String.ofList address.text ++ " is listed twice"))
    else normalizeUpstreams self (upstreams ++ [address.text]) rest

/-- `normalize`. -/
def normalize (self : List AddrPort) (rule : Rule) : Except Error Rule :=
  let raw := trimSpaces rule.domain
  if raw.head? = some '*' then
    .error (.invalid "rules already cover subdomains; enter the domain without a wildcard")
  else
    match Filtering.name raw with
    | none => .error (.invalid "enter a valid domain such as corp.example")
    | some domain =>
      let description := trimSpaces rule.description
      if byteLen description > maxDescription ∨ description.any (fun c => c ∈ ['\r', '\n', Char.ofNat 0]) then
        .error (.invalid "description must be a single line of at most 200 characters")
      else if rule.upstreams = [] ∨ rule.upstreams.length > maxUpstreams then
        .error (.invalid "configure between 1 and 4 upstream resolvers")
      else do
        let upstreams ← normalizeUpstreams self [] rule.upstreams
        return { rule with domain := domain, description := description, upstreams := upstreams }

/-- The loop of `save` over the rules: the index of the rule with the same ID, an error for another one of the domain. -/
def findRule (rule : Rule) : ℕ → Option ℕ → List Rule → Except Error (Option ℕ)
  | _, index, [] => .ok index
  | i, index, existing :: rest =>
    if existing.id = rule.id ∧ rule.id ≠ 0 then findRule rule (i + 1) (some i) rest
    else if existing.domain = rule.domain then .error .alreadyExists
    else findRule rule (i + 1) index rest

/-- What a save or a delete does to the list of the rules. -/
inductive Change where
  | added (saved : Rule)
  | replaced (index : ℕ) (saved : Rule)
  | removed (index : ℕ)

def Change.apply (rules : List Rule) : Change → List Rule
  | .added saved => rules ++ [saved]
  | .replaced index saved => rules.set index saved
  | .removed index => rules.eraseIdx index

/-- The domains of the rule that is changed, before and after. -/
def Change.domains (rules : List Rule) : Change → List Str
  | .added saved => [saved.domain]
  | .replaced index saved => saved.domain :: (rules[index]?.map Rule.domain).toList
  | .removed index => (rules[index]?.map Rule.domain).toList

/-! ### Steps -/

inductive Op (σ : Type) where
  /-- what else can happen to a node -/
  | event (e : Event σ)
  /-- `ctx.Err()` -/
  | err (ctx : Ctx σ)
  /-- the filter, the local layer and the block mode, as they are now -/
  | resolver
  | get (q : Msg)
  /-- `Router.Resolve` up to the forwarder it chooses, by the table as it is now -/
  | select (q : Msg)
  | exchange (f : Forwarder σ) (ctx : Ctx σ) (q : Msg)
  | normalizeUpstreamTTL (m : Msg)
  | put (q m : Msg)
  | lock
  | unlock
  | rules
  | saveForwardRule (rule : Rule)
  | deleteForwardRule (id : ℤ)
  /-- `s.rules` and `s.current` -/
  | publish (c : Change)
  /-- `OnChange` -/
  | changed (domain : Str)

abbrev Ans {σ : Type} : Op σ → Type
  | .event _ => Unit
  | .err _ => Option Err
  | .resolver => Resolver σ
  | .get _ => Option Msg
  | .select _ => Forwarder σ
  | .exchange _ _ _ => Except Err (Msg × Str)
  | .normalizeUpstreamTTL _ => Msg
  | .put _ _ => Unit
  | .lock => Unit
  | .unlock => Unit
  | .rules => List Rule
  | .saveForwardRule _ => Except Error Rule
  | .deleteForwardRule _ => Option Error
  | .publish _ => Unit
  | .changed _ => Unit

abbrev Script (σ α : Type) := Prog (Op σ) Ans α

section

variable {σ : Type}

/-! ### Queries -/

/-- Ask an upstream, filter what it says and store it. -/
def forwardSteps (ctx : Ctx σ) (q : Msg) : Script σ (Except Failure Result) := do
  let f : Forwarder σ ← Prog.ask (Op.select q)
  let out : Except Err (Msg × Str) ← Prog.ask (Op.exchange f ctx q)
  match out with
  | .error e => return .error ⟨.upstream, e⟩
  | .ok (m, upstream) =>
    let r : Resolver σ ← Prog.ask Op.resolver
    if (r.blockedAnswerName ctx m).isSome then return .ok (r.blocked q)
    else
      let m : Msg ← Prog.ask (Op.normalizeUpstreamTTL (Cache.normalizeNegativeTTL m))
      let _ : Unit ← Prog.ask (Op.put q m)
      return .ok ⟨m, .upstream, upstream⟩

/-- The stages after the local layer. -/
def beyondSteps (ctx : Ctx σ) (q : Msg) : Script σ (Except Failure Result) :=
  if q.recursionDesired = false then
    return .ok ⟨{ setRcode q rcodeRefused with recursionAvailable := true }, .refused, []⟩
  else do
    let found : Option Msg ← Prog.ask (Op.get q)
    match found with
    | none => forwardSteps ctx q
    | some m =>
      let r : Resolver σ ← Prog.ask Op.resolver
      match r.blockedAnswerName ctx m with
      | some _ => return .ok (r.blocked q)
      | none => return .ok ⟨m, .cache, []⟩

/-- `resolve`, with the levels of recursion that remain. -/
def resolveSteps (ctx : Ctx σ) : ℕ → Msg → Script σ (Except Failure Result)
  | 0, _ => return .error ⟨.local, .depthExceeded⟩
  | remaining + 1, q => do
    let err : Option Err ← Prog.ask (Op.err ctx)
    match err with
    | some e => return .error ⟨.local, e⟩
    | none =>
      let r : Resolver σ ← Prog.ask Op.resolver
      if r.asksBlocked ctx q = true then return .ok (r.blocked q)
      else
        let r : Resolver σ ← Prog.ask Op.resolver
        match r.localMatch q with
        | none => beyondSteps ctx q
        | some l =>
          let r : Resolver σ ← Prog.ask Op.resolver
          match r.blockedAnswerName ctx l.msg with
          | some _ => return .ok (r.blocked q)
          | none =>
            match follows q l.msg with
            | none => return .ok ⟨l.msg, .local, []⟩
            | some target =>
              let tail ← resolveSteps ctx remaining (retarget q target)
              match tail with
              | .error e => return .error ⟨.local, e.err⟩
              | .ok tail =>
                if tail.source = .blocked then
                  let r : Resolver σ ← Prog.ask Op.resolver
                  return .ok (r.blocked q)
                else return .ok ⟨join l.msg tail.message, .local, tail.upstream⟩

/-! ### Changes of rules -/

/-- `save` while it holds the mutex. -/
def saveLocked (normalized : Rule) : Script σ (Except Error Rule) := do
  let rules : List Rule ← Prog.ask Op.rules
  match findRule normalized 0 none rules with
  | .error e => return .error e
  | .ok index =>
    if normalized.id ≠ 0 ∧ index = none then return .error .notFound
    else if normalized.id = 0 ∧ rules.length ≥ maxRules then return .error (.invalid "at most 256 rules")
    else
      let out : Except Error Rule ← Prog.ask (Op.saveForwardRule normalized)
      match out with
      | .error e => return .error e
      | .ok saved =>
        match index with
        | none =>
          let _ : Unit ← Prog.ask (Op.publish (.added saved))
          let _ : Unit ← Prog.ask (Op.changed saved.domain)
          return .ok saved
        | some index =>
          let oldDomain := (rules[index]?.map Rule.domain).getD []
          let _ : Unit ← Prog.ask (Op.publish (.replaced index saved))
          let _ : Unit ← Prog.ask (Op.changed saved.domain)
          if oldDomain ≠ [] ∧ oldDomain ≠ saved.domain then
            let _ : Unit ← Prog.ask (Op.changed oldDomain)
            return .ok saved
          else return .ok saved

/-- `save`. -/
def saveSteps (self : List AddrPort) (rule : Rule) : Script σ (Except Error Rule) :=
  match normalize self rule with
  | .error e => return .error e
  | .ok normalized => do
    let _ : Unit ← Prog.ask Op.lock
    let out ← saveLocked normalized
    let _ : Unit ← Prog.ask Op.unlock
    return out

/-- `Delete` while it holds the mutex. -/
def deleteLocked (id : ℤ) : Script σ (Option Error) := do
  let rules : List Rule ← Prog.ask Op.rules
  match rules.findIdx? (fun rule => rule.id = id) with
  | none => return some .notFound
  | some index =>
    let err : Option Error ← Prog.ask (Op.deleteForwardRule id)
    match err with
    | some e => return some e
    | none =>
      let domain := (rules[index]?.map Rule.domain).getD []
      let _ : Unit ← Prog.ask (Op.publish (.removed index))
      let _ : Unit ← Prog.ask (Op.changed domain)
      return none

/-- `Delete`. -/
def deleteSteps (id : ℤ) : Script σ (Option Error) := do
  let _ : Unit ← Prog.ask Op.lock
  let out ← deleteLocked id
  let _ : Unit ← Prog.ask Op.unlock
  return out

/-! ### Calls -/

inductive Call (σ : Type) where
  | resolve (ctx : Ctx σ) (q : Msg)
  | create (rule : Rule)
  | update (id : ℤ) (rule : Rule)
  | delete (id : ℤ)
  | event (e : Event σ)

inductive Reply where
  | resolved (out : Except Failure Result)
  | saved (out : Except Error Rule)
  | deleted (err : Option Error)
  | done

/-- The reply of a save or a delete that has changed the rules. -/
def Reply.success : Reply → Bool
  | .saved (.ok _) => true
  | .deleted none => true
  | _ => false

/-- What a call does; `self` are the addresses of the resolver's listeners. -/
def Call.body (self : List AddrPort) : Call σ → Script σ Reply
  | .resolve ctx q => Reply.resolved <$> resolveSteps ctx 16 q
  | .create rule => Reply.saved <$> saveSteps self { rule with id := 0 }
  | .update id rule =>
    if id < 1 then return .saved (.error .notFound) else Reply.saved <$> saveSteps self { rule with id := id }
  | .delete id => Reply.deleted <$> deleteSteps id
  | .event e => do
    let _ : Unit ← Prog.ask (Op.event e)
    return .done

/-! ### The node while queries are under way -/

/-- The answer of a cache entry or of a route, for one query of a thread: the number of the table the route was chosen from. -/
structure Origin where
  thread : ℕ
  query : Msg
  via : ℕ

/-- The node and the rules of its service. -/
structure Live (σ : Type) where
  node : Node σ
  rules : List Rule
  /-- the thread that holds the mutex -/
  mu : Option ℕ := none
  /-- history: how many tables were published after the first -/
  version : ℕ := 0
  /-- history: the table from which a thread has chosen its last route -/
  chosen : ℕ → ℕ := fun _ => 0
  /-- history: the table behind what was last stored under a key -/
  via : Str → ℕ := fun _ => 0
  /-- history: the table a thread has published, and the domains of the rule it has changed -/
  published : ℕ → ℕ := fun _ => 0
  domains : ℕ → List Str := fun _ => []
  /-- history: the domains dropped from the cache, with the table after which they were -/
  dropped : List (ℕ × Str) := []
  /-- history: where answers came from, the last first -/
  origins : List Origin := []

/-- What the code around the node is given. -/
structure Site (σ : Type) where
  lib : Miekg
  env : Env σ
  options : Options σ
  self : List AddrPort

/-- What the outside does at a step: the network may have changed, and a statement on the database fails or gives a new
rule its ID. -/
structure Outside (σ : Type) where
  net : Option σ := none
  store : Except Error ℤ := .ok 1

def Live.world (s : Live σ) : World σ := s.node.state.world

def Live.setWorld (s : Live σ) (w : World σ) : Live σ :=
  { s with node := { s.node with state := { s.node.state with world := w } } }

def Live.setCache (s : Live σ) (c : Cache) : Live σ :=
  { s with node := { s.node with state := { s.node.state with cache := c } } }

/-- The network as the outside has left it. -/
def Live.meet (s : Live σ) (x : Outside σ) : Live σ :=
  match x.net with
  | some net => s.setWorld { s.world with net := net }
  | none => s

/-- The events that are no calls of this module. -/
def elsewhere : Event σ → Bool
  | .query _ _ => false
  | .forwarding _ => false
  | _ => true

variable (site : Site σ)

/-- What a step does in a state the outside has met. -/
def perform (i : ℕ) : (op : Op σ) → Except Error ℤ → Live σ → Option (Ans op × Live σ)
  | .event e, _, s =>
    if elsewhere e then some ((), { s with node := s.node.step site.lib site.env site.options e }) else none
  | .err ctx, _, s => some (ctx.err s.world.net, s)
  | .resolver, _, s => some (s.node.resolver, s)
  | .get q, _, s =>
    let (cache, found) := s.node.state.cache.get q (site.env.clock s.world.net)
    let origins := if found.isSome then ⟨i, q, s.via ((Cache.key q).getD [])⟩ :: s.origins else s.origins
    some (found, { s.setCache cache with origins := origins })
  | .select q, _, s =>
    some (s.node.resolver.forwarder.select q,
      { s.setWorld { s.world with asked := q :: s.world.asked } with
        chosen := Function.update s.chosen i s.version
        origins := ⟨i, q, s.version⟩ :: s.origins })
  | .exchange f ctx q, _, s =>
    let (out, w) := f.resolve site.lib site.env ctx q s.world
    some (out, s.setWorld w)
  | .normalizeUpstreamTTL m, _, s => some (s.node.state.cache.normalizeUpstreamTTL m, s)
  | .put q m, _, s =>
    let now := site.env.clock s.world.net
    let via := match Cache.entryOf site.lib s.node.state.cache.max q m now with
      | some e => Function.update s.via e.key (s.chosen i)
      | none => s.via
    some ((), { s.setCache (s.node.state.cache.put site.lib q m now) with via := via })
  | .lock, _, s => if s.mu.isNone then some ((), { s with mu := some i }) else none
  | .unlock, _, s => some ((), { s with mu := none })
  | .rules, _, s => some (s.rules, s)
  | .saveForwardRule rule, x, s =>
    some (match x with
      | .error e => (.error e, s)
      | .ok id => (.ok (if rule.id = 0 then { rule with id := id } else rule), s))
  | .deleteForwardRule _, x, s =>
    some (match x with
      | .error e => (some e, s)
      | .ok _ => (none, s))
  | .publish c, _, s =>
    let rules := c.apply s.rules
    some ((), { s with
      node := s.node.step site.lib site.env site.options (.forwarding rules)
      rules := rules
      version := s.version + 1
      published := Function.update s.published i (s.version + 1)
      domains := Function.update s.domains i (c.domains s.rules) })
  | .changed domain, _, s =>
    some ((), { s with
      node := s.node.step site.lib site.env site.options (.invalidate domain 0 true)
      dropped := (s.published i, domain) :: s.dropped })

def act (i : ℕ) (op : Op σ) (x : Outside σ) (s : Live σ) : Option (Ans op × Live σ) :=
  perform site i op x.store (s.meet x)

abbrev Traffic (σ : Type) := Pool (Live σ) (Call σ) (Op σ) Ans Reply

abbrev Traffic.Turn (σ : Type) := Lib.Turn (Call σ) (Outside σ)

def Traffic.step : Traffic σ → Traffic.Turn σ → Option (Traffic σ) := Pool.step (Call.body site.self) (act site)

/-- The node as it starts: the rules are loaded, the cache is empty and no query is under way. -/
def Traffic.start (r : Resolver σ) (max : ℤ) (net : σ) (rules : List Rule) : Traffic σ :=
  { shared :=
      { node := Node.new { r with forwarder := { r.forwarder with rules := some (compile site.options rules ∅) } } max net
        rules := rules } }

end

end Velora.Forwarding
