import Velora.Dns.Dnssec

/-!
# Forwarding to upstreams (`internal/dns/forwarder.go`)

The network is an environment with a state of its own: an exchange may answer anything, take any time and change
what the next one answers. The state of the program around it is a `World`, which also carries two history variables
that no function reads: the queries handed to an upstream and the responses on which `Validate` returned secure.
Deadlines are part of the exchange (it fails) and of the context (`ctx.Err`).
-/

namespace Velora.Dns

open Velora.Lib Velora.Lib.Text Velora.Wire

/-! ### The network -/

/-- How a message is sent; `tls` carries the name the server has to prove. -/
inductive Proto where
  | udp | tcp | tls (serverName : Str) | https
  deriving DecidableEq

/-- Everything outside the process. -/
structure Env (σ : Type) where
  clock : σ → ℕ
  /-- `wire.Id()` -/
  id : σ → UInt16 × σ
  /-- `ExchangeContext` and `exchangeDoH` -/
  exchange : Proto → Str → Msg → σ → Except Err Msg × σ

/-- The state around the resolver. -/
structure World (σ : Type) where
  net : σ
  /-- history: the queries given to `Upstream.Resolve`, the last first -/
  asked : List Msg := []
  /-- history: the queries and responses on which `Validate` returned secure, the last first -/
  secured : List (Msg × Msg) := []

/-- The two calls of `UpstreamHealth` the forwarder makes. -/
structure Health (σ : Type) where
  begin : Str → σ → Bool × σ
  finish : Str → Option Err → σ → σ

structure Forwarder (σ : Type) where
  upstreams : List Str
  retries : ℤ
  health : Option (Health σ) := none
  /-- `Validator`, by its anchors -/
  validator : Option (Map Str (List (Typed DS))) := none

/-! ### Messages in and out -/

def withoutOPT (records : List RR) : List RR := records.filter (fun rr => rr.rrtype ≠ typeOPT)

/-- The record types `withoutDNSSEC` drops. -/
def dnssecTypes : List UInt16 := [typeRRSIG, typeNSEC, typeNSEC3, typeDNSKEY, typeDS]

def withoutDNSSEC (records : List RR) : List RR := records.filter (fun rr => !dnssecTypes.contains rr.rrtype)

def sameQuestion (a b : Msg) : Bool :=
  a.question.length == 1 && b.question.length == 1 && equalFold a.question0.name b.question0.name &&
    a.question0.qtype == b.question0.qtype && a.question0.qclass == b.question0.qclass

/-- What `validateAnswerChain` keeps while it walks the answer. -/
structure ChainState where
  current : Str
  seen : List Str
  aliases : ℕ := 0
  terminal : Bool := false

/-- One record of the walk. -/
def chainStep (kind : UInt16) (c : ChainState) (rr : RR) : Except Err ChainState :=
  if rr.rrtype = typeRRSIG then .ok c
  else if lower rr.name ≠ c.current then .error .unrelatedAnswer
  else
    match rr.cname? with
    | none => .ok { c with terminal := true }
    | some target =>
      if c.terminal then .error .cnameAfterTerminal
      else if c.aliases + 1 > 16 ∨ c.seen.contains (lower target) = true then .error .invalidChain
      else
        .ok ⟨lower target, lower target :: c.seen, c.aliases + 1, kind == typeCNAME⟩

/-- `validateAnswerChain` (`response_policy.go`). -/
def validateAnswerChain (q response : Msg) : Except Err Unit :=
  if q.question.length ≠ 1 then .error .questionCount
  else do
    let start : ChainState := { current := lower q.question0.name, seen := [lower q.question0.name] }
    let _ ← response.answer.foldlM (chainStep q.question0.qtype) start

/-- What has to be right about a response before it is validated. -/
def checkResponse (lib : Miekg) (q m : Msg) : Except Err Unit :=
  if !m.response || !sameQuestion q m then .error .invalidResponse
  else do
    validateAnswerChain q m
    if m.rcode = rcodeServerFailure ∨ m.rcode = rcodeRefused then .error (.upstreamResponse (lib.rcodeToString m.rcode))

/-- The request sent for a query. -/
def request {σ : Type} (f : Forwarder σ) (id : UInt16) (q : Msg) : Msg :=
  let req := { q with id := id, authenticatedData := false, extra := withoutOPT q.extra }
  match q.isEdns0 with
  | some opt => req.setEdns0 1232 (f.validator.isSome || opt.optDo)
  | none => if f.validator.isSome then req.setEdns0 1232 true else req

/-- Clear the options of the last OPT record of the additional section, the one `IsEdns0` finds. -/
def clearOptions (extra : List RR) : List RR :=
  let rec go : List RR → List RR
    | [] => []
    | rr :: rest => if rr.rrtype = typeOPT then { rr with data := .opt [] } :: rest else rr :: go rest
  (go extra.reverse).reverse

/-- What is returned of an accepted response `m` to the query `q`. -/
def restore {σ : Type} (f : Forwarder σ) (q m : Msg) : Msg :=
  let strip := match q.isEdns0 with
    | some opt => !opt.optDo
    | none => true
  let extra := if q.isEdns0.isNone then withoutOPT m.extra else clearOptions m.extra
  { m with
    id := q.id
    question := q.question
    authenticatedData := if f.validator.isNone || q.checkingDisabled then false else m.authenticatedData
    answer := if strip then withoutDNSSEC m.answer else m.answer
    ns := if strip then withoutDNSSEC m.ns else m.ns
    extra := if strip then withoutDNSSEC extra else extra }

/-! ### One attempt -/

section

variable {σ : Type} (lib : Miekg) (env : Env σ)

/-- Send, and once more when the answer was truncated. -/
def sendTwice (first again : Proto) (address : Str) (req : Msg) (s : σ) : Except Err Msg × σ :=
  match env.exchange first address req s with
  | (.ok m, s) => if m.truncated then env.exchange again address req s else (.ok m, s)
  | (.error e, s) => (.error e, s)

/-- Send a request to one upstream; the outer error is an address that cannot be split. -/
def send (upstream : Str) (req : Msg) (s : σ) : Except Err (Except Err Msg) × σ :=
  if "https://".toList.isPrefixOf upstream then
    let (r, s) := env.exchange .https upstream req s
    (.ok r, s)
  else
    match cutPrefix "tls://".toList upstream with
    | some address =>
      match splitHostPort address with
      | .error e => (.error (.transport ("address " ++ String.ofList address ++ ": " ++ e)), s)
      | .ok host =>
        let (r, s) := sendTwice env (.tls host) (.tls host) address req s
        (.ok r, s)
    | none =>
      let (r, s) := sendTwice env .udp .tcp upstream req s
      (.ok r, s)

/-- How the attempt at one upstream ends. -/
inductive Attempt where
  | answered (m : Msg)
  | failed (e : Err)
  | fatal (e : Err)

/-- How a forwarder validates an accepted response; it may mark the response as authentic. -/
abbrev Validation (σ : Type) := Str → Msg → World σ → Except Err Msg × World σ

/-- One attempt at one upstream, up to the validation of its response. -/
def attempt (f : Forwarder σ) (check : Validation σ) (upstream : Str) (q : Msg) (w : World σ) : Attempt × World σ :=
  let (id, net) := env.id w.net
  match send env upstream (request f id q) net with
  | (.error e, net) => (.fatal e, { w with net := net })
  | (.ok (.error e), net) => (.failed e, { w with net := net })
  | (.ok (.ok m), net) =>
    match checkResponse lib q m with
    | .error e => (.failed e, { w with net := net })
    | .ok _ =>
      match check upstream m { w with net := net } with
      | (.error e, w) => (.failed e, w)
      | (.ok m, w) => (.answered m, w)

def beginHealth (f : Forwarder σ) (upstream : Str) (w : World σ) : Bool × World σ :=
  match f.health with
  | none => (true, w)
  | some h =>
    let (ok, net) := h.begin upstream w.net
    (ok, { w with net := net })

def finishHealth (f : Forwarder σ) (upstream : Str) (e : Option Err) (w : World σ) : World σ :=
  match f.health with
  | none => w
  | some h => { w with net := h.finish upstream e w.net }

/-! ### All attempts -/

/-- The attempts that are left, and the last error. -/
def tryAll (f : Forwarder σ) (check : Validation σ) (ctx : Ctx σ) (q : Msg) :
    List Str → Option Err → World σ → Except Err (Msg × Str) × World σ
  | [], last, w => (.error (.allFailed ((last.map Err.text).getD "<nil>")), w)
  | upstream :: rest, last, w =>
    match ctx.err w.net with
    | some e => (.error e, w)
    | none =>
      match beginHealth f upstream w with
      | (false, w) => tryAll f check ctx q rest (some (last.getD .coolingDown)) w
      | (true, w) =>
        match attempt lib env f check upstream q w with
        | (.fatal e, w) => (.error e, finishHealth f upstream (some e) w)
        | (.failed e, w) => tryAll f check ctx q rest (some e) (finishHealth f upstream (some e) w)
        | (.answered m, w) => (.ok (restore f q m, upstream), finishHealth f upstream none w)

/-- The attempts of `Resolve` in their order: every upstream in every round. -/
def Forwarder.schedule (f : Forwarder σ) : List Str := (List.replicate (f.retries + 1).toNat f.upstreams).flatten

/-- The forwarder without a validator that the validation of an upstream's response asks it with. -/
def validatorExchange (ctx : Ctx σ) (upstream : Str) : Exchange (World σ) := fun query w =>
  let f : Forwarder σ := { upstreams := [upstream], retries := 0 }
  match tryAll lib env f (fun _ m w => (.ok m, w)) ctx query f.schedule none w with
  | (.ok (m, _), w) => (.ok m, w)
  | (.error e, w) => (.error e, w)

/-- The validation step of `Resolve`. -/
def Forwarder.check (f : Forwarder σ) (ctx : Ctx σ) (q : Msg) : Validation σ := fun upstream m w =>
  match f.validator with
  | none => (.ok m, w)
  | some anchors =>
    if q.checkingDisabled then (.ok m, w)
    else
      match validate lib anchors (env.clock w.net) (validatorExchange lib env ctx upstream) ctx.walk q m w with
      | (.error e, w) => (.error (.bogus e), w)
      | (.ok .secure, w) => (.ok { m with authenticatedData := true }, { w with secured := (q, m) :: w.secured })
      | (.ok .insecure, w) => (.ok { m with authenticatedData := false }, w)

/-- `Forwarder.Resolve`. -/
def Forwarder.resolve (f : Forwarder σ) (ctx : Ctx σ) (q : Msg) (w : World σ) : Except Err (Msg × Str) × World σ :=
  tryAll lib env f (f.check lib env ctx q) ctx q f.schedule none w

end

end Velora.Dns
