import Velora.Dns.Cookies
import Velora.Dns.RateLimit
import Velora.Dns.Runs
import Velora.Lib.Prefix
import Velora.Lib.Trace

/-!
# The handler

`ServeDNS` of `internal/dns/handler.go`. A query goes to the resolver if its client is allowed, the rate limiter lets it
through, its EDNS options and its question are in order and one of the slots is free; every query is answered, counted and,
when it has one question, logged. Any number of queries are served beside each other and beside changes of the configuration,
which replaces the slots: those of before are given back where they were taken.

A query of the resolver is one step, as in `Velora.Dns.Runs`. The observer, the query log and the rate limiter are there, as the
program sets them.
-/

namespace Velora.Dns.Handling

open Velora.Lib Velora.Lib.Text Velora.Wire

/-! ### The rate limiter of the program -/

structure RateLimitState where
  enabled : Bool
  limiter : RateLimiter
  rejectedTotal : UInt64 := 0
  lastRejectedAt : Option ℕ := none

namespace RateLimitState

/-- `Allow`, with the state as it leaves it. -/
def allow (s : RateLimitState) (client : Addr) (now : ℕ) : Bool × RateLimitState :=
  if !s.enabled then (true, s)
  else
    let (ok, limiter) := s.limiter.allow client now
    if ok then (true, { s with limiter })
    else (false, { s with limiter, rejectedTotal := s.rejectedTotal + 1, lastRejectedAt := some now })

/-- `Configure`, at the time `now`. -/
def configure (s : RateLimitState) (now : ℕ) (enabled : Bool) (globalQPS clientQPS burst : ℤ) : RateLimitState :=
  { s with enabled, limiter := newRateLimiter now globalQPS clientQPS burst }

/-- `RestoreRejections`; `ResetRejections` is that of none. -/
def restoreRejections (s : RateLimitState) (total : UInt64) : RateLimitState :=
  { s with rejectedTotal := total, lastRejectedAt := none }

end RateLimitState

/-! ### Queries -/

/-- `Prefix.Contains`: no network has an address with a zone. -/
def within (a : Addr) (p : Ip.Prefix) : Bool :=
  match a with
  | .v4 _ => p.contains a.asSlice
  | .v6 _ zone => zone.isEmpty && p.contains a.asSlice

/-- `supported`. -/
def supported (t : UInt16) : Bool :=
  t = typeA || t = typeAAAA || t = typeCNAME || t = typeTXT || t = typeMX || t = typeNS || t = typePTR || t = typeSOA

/-- A query with what its `ResponseWriter` says of the client: the host of the remote address, and the address it is, if it
is one. -/
structure Incoming where
  q : Msg
  udp : Bool
  host : Str
  ip : Option Addr
  started : ℕ

namespace Incoming

variable (x : Incoming)

/-- The message that is there before there is another one, with a response code. -/
def reply (rcode : ℕ) : Msg := { setReply x.q with recursionAvailable := true, rcode := rcode }

/-- The answer to a query whose EDNS options are not in order; `SetRcode` sets again what is already so. -/
def refuseEDNS (cookie : Option (List UInt8)) (rcode : ℕ) : Msg :=
  let m := x.reply rcodeSuccess
  let m := if x.q.isEdns0.isSome then m.setEdns0 1232 false else m
  addResponseCookie { m with rcode := rcode } x.q cookie

/-- The size that a message sent over UDP may have. -/
def size : ℕ :=
  match x.q.isEdns0 with
  | none => 512
  | some opt => min (max opt.hdr.class'.toNat 512) 1232

/-- The kind of a query for the observer. -/
def kind (lib : Miekg) : String :=
  if x.q.question.length = 1 ∧ supported x.q.question0.qtype = true then lib.typeToString x.q.question0.qtype else "other"

end Incoming

def sourceText : Source → String
  | .local => "local" | .blocked => "blocked" | .cache => "cache" | .upstream => "upstream" | .refused => "refused"

/-- `querylog.Entry`, without the duration. -/
structure Entry where
  occurredAt : ℕ
  clientIP : Str
  domain : Str
  type : String
  rcode : String
  source : String
  upstream : Str
  cacheHit : Bool
  deriving DecidableEq

/-- What `ServeDNS` has in its variables when it returns. -/
structure Reply where
  message : Msg
  source : String
  upstream : Str := []

/-! ### Operations -/

/-- An event of a node that is not a query. -/
abbrev Change (σ : Type) := { e : Event σ // ∀ ctx q, e ≠ .query ctx q }

inductive Op (σ : Type) where
  /-- `h.Allowed` and `h.Slots`, read under the lock -/
  | prefixes
  | slots
  | allow (client : Addr) (now : ℕ)
  | acquire (channel : ℕ)
  | release (channel : ℕ)
  | resolve (client : Addr) (q : Msg)
  | overloaded (reason : String)
  | writeMsg (m : Msg)
  | observe (kind source : String) (rcode : ℕ)
  | record (e : Entry)
  | updateConfig (allowed : List Ip.Prefix) (maxConcurrent : ℕ)
  | configure (enabled : Bool) (globalQPS clientQPS burst : ℤ)
  | restoreRejections (total : UInt64)
  | change (e : Change σ)

abbrev Ans {σ : Type} : Op σ → Type
  | .prefixes => List Ip.Prefix
  | .slots => ℕ
  | .allow _ _ => Bool
  | .acquire _ => Bool
  | .resolve _ _ => Except Failure Result
  | _ => Unit

abbrev Script (σ : Type) := Prog (Op σ) Ans

/-- The fixed parts of a handler, and `Msg.Truncate`. -/
structure Setup (σ : Type) where
  hmac : Hmac
  cookieSecret : List UInt8
  lib : Miekg
  env : Env σ
  options : Forwarding.Options σ
  truncate : ℕ → Msg → Msg

section

variable {σ : Type} (s : Setup σ) (x : Incoming)

/-- The query has got a token of the channel. -/
def resolveWith (client : Addr) (cookie : Option (List UInt8)) (channel : ℕ) : Script σ Reply := do
  let result : Except Failure Result ← Prog.ask (Op.resolve client x.q)
  let _ : Unit ← Prog.ask (Op.release channel)
  match result with
  | .error e => return ⟨x.reply rcodeServerFailure, sourceText e.source, []⟩
  | .ok res => return ⟨addResponseCookie res.message x.q cookie, sourceText res.source, res.upstream⟩

/-- From the reading of the slots on. -/
def takeSlot (client : Addr) (cookie : Option (List UInt8)) : Script σ Reply := do
  let channel : ℕ ← Prog.ask Op.slots
  let free : Bool ← Prog.ask (Op.acquire channel)
  if free then resolveWith x client cookie channel
  else do
    let _ : Unit ← Prog.ask (Op.overloaded "concurrency")
    return ⟨x.reply rcodeServerFailure, "overload", []⟩

/-- The checks of the message. -/
def checkQuery (ip : Addr) : Script σ Reply :=
  let (cookie, rcode) := clientEDNS s.hmac x.q ip s.cookieSecret
  if rcode ≠ rcodeSuccess then return ⟨x.refuseEDNS cookie rcode, "refused", []⟩
  else if x.q.response = true ∨ x.q.question.length ≠ 1 ∨ x.q.opcode ≠ opcodeQuery then
    return ⟨x.reply rcodeFormatError, "refused", []⟩
  else if supported x.q.question0.qtype = false ∨ x.q.question0.qclass ≠ classINET then
    return ⟨x.reply rcodeRefused, "refused", []⟩
  else takeSlot x ip.unmap cookie

/-- `ServeDNS` up to its return. -/
def replyTo : Script σ Reply :=
  match x.ip with
  | none => return ⟨x.reply rcodeRefused, "refused", []⟩
  | some ip => do
    let prefixes : List Ip.Prefix ← Prog.ask Op.prefixes
    if prefixes.any (fun p => within ip.unmap p) then do
      let ok : Bool ← Prog.ask (Op.allow ip.unmap x.started)
      if ok then checkQuery s x ip
      else do
        let _ : Unit ← Prog.ask (Op.overloaded "rate_limit")
        return ⟨x.reply rcodeServerFailure, "rate_limit", []⟩
    else return ⟨x.reply rcodeRefused, "refused", []⟩

/-- The message as it is sent. -/
def sent (m : Msg) : Msg := if x.udp then s.truncate x.size m else m

/-- The entry of the query log. -/
def entryOf (r : Reply) : Entry where
  occurredAt := x.started
  clientIP := x.host
  domain := x.q.question0.name
  type := s.lib.typeToString x.q.question0.qtype
  rcode := s.lib.rcodeToString (sent s x r.message).rcode
  source := r.source
  upstream := r.upstream
  cacheHit := r.source = "cache"

/-- The deferred function. -/
def finish (r : Reply) : Script σ Unit := do
  let m := sent s x r.message
  let _ : Unit ← Prog.ask (Op.writeMsg m)
  let _ : Unit ← Prog.ask (Op.observe (x.kind s.lib) r.source m.rcode)
  if x.q.question.length = 1 then Prog.ask (Op.record (entryOf s x r)) else return ()

/-- `ServeDNS`. -/
def serveDNS : Script σ Unit := do
  let r ← replyTo s x
  finish s x r

end

/-- A query, or something that changes what is served. -/
inductive Call (σ : Type) where
  | query (x : Incoming)
  | updateConfig (allowed : List Ip.Prefix) (maxConcurrent : ℕ)
  | configure (enabled : Bool) (globalQPS clientQPS burst : ℤ)
  | restoreRejections (total : UInt64)
  | change (e : Change σ)

def Call.body {σ : Type} (s : Setup σ) : Call σ → Script σ Unit
  | .query x => serveDNS s x
  | .updateConfig allowed maxConcurrent => Prog.ask (Op.updateConfig allowed maxConcurrent)
  | .configure enabled globalQPS clientQPS burst => Prog.ask (Op.configure enabled globalQPS clientQPS burst)
  | .restoreRejections total => Prog.ask (Op.restoreRejections total)
  | .change e => Prog.ask (Op.change e)

/-! ### What they do -/

/-- A buffered channel of tokens. -/
structure Channel where
  capacity : ℕ
  length : ℕ := 0

/-- What happens while queries are served. -/
inductive Did (σ : Type) where
  | allowed (prefixes : List Ip.Prefix)
  | admitted (client : Addr) (now : ℕ)
  | rejected (client : Addr) (now : ℕ)
  | chose (channel : ℕ)
  | acquired (channel : ℕ)
  | full (channel : ℕ)
  | released (channel : ℕ)
  | resolved (ctx : Ctx σ) (q : Msg) (result : Except Failure Result)
  | overloaded (reason : String)
  | wrote (m : Msg)
  | observed (kind source : String) (rcode : ℕ)
  | recorded (e : Entry)
  | restored (total : UInt64)
  | changed (e : Change σ)

/-- A handler and what it works with; the last one of the channels is `Slots`. -/
structure Handler (σ : Type) where
  allowed : List Ip.Prefix
  channels : List Channel
  rateLimit : RateLimitState
  node : Node σ
  history : List (Lib.Deed (Did σ)) := []

/-- What the outside decides at a step: the time, and the context of a query but for its client. -/
structure Outside (σ : Type) where
  now : ℕ
  ctx : Ctx σ

section

variable {σ : Type} (s : Setup σ)

def Handler.tell (h : Handler σ) (i : ℕ) (what : Did σ) : Handler σ := { h with history := ⟨i, what⟩ :: h.history }

def Handler.setLength (h : Handler σ) (channel : ℕ) (c : Channel) (length : ℕ) : Handler σ :=
  { h with channels := h.channels.set channel { c with length } }

/-- One operation of the call `i`. To send to a full channel is refused, and to receive from an empty one has to wait. -/
def serve (i : ℕ) : (op : Op σ) → Outside σ → Handler σ → Option (Ans op × Handler σ)
  | .prefixes, _, h => some (h.allowed, h.tell i (.allowed h.allowed))
  | .slots, _, h => some (h.channels.length - 1, h.tell i (.chose (h.channels.length - 1)))
  | .allow client now, _, h =>
    let (ok, rateLimit) := h.rateLimit.allow client now
    some (ok, { h with rateLimit }.tell i (if ok then .admitted client now else .rejected client now))
  | .acquire channel, _, h =>
    match h.channels[channel]? with
    | none => none
    | some c =>
      if c.length < c.capacity then some (true, (h.setLength channel c (c.length + 1)).tell i (.acquired channel))
      else some (false, h.tell i (.full channel))
  | .release channel, _, h =>
    match h.channels[channel]? with
    | none => none
    | some c => if 0 < c.length then some ((), (h.setLength channel c (c.length - 1)).tell i (.released channel)) else none
  | .resolve client q, x, h =>
    let ctx := x.ctx.withClient client
    some (h.node.answer s.lib s.env ctx q,
      { h with node := h.node.step s.lib s.env s.options (.query ctx q) }.tell i
        (.resolved ctx q (h.node.answer s.lib s.env ctx q)))
  | .overloaded reason, _, h => some ((), h.tell i (.overloaded reason))
  | .writeMsg m, _, h => some ((), h.tell i (.wrote m))
  | .observe kind source rcode, _, h => some ((), h.tell i (.observed kind source rcode))
  | .record e, _, h => some ((), h.tell i (.recorded e))
  | .updateConfig allowed maxConcurrent, _, h =>
    some ((), { h with allowed, channels := h.channels ++ [(⟨maxConcurrent, 0⟩ : Channel)] })
  | .configure enabled globalQPS clientQPS burst, x, h =>
    some ((), { h with rateLimit := h.rateLimit.configure x.now enabled globalQPS clientQPS burst })
  | .restoreRejections total, _, h =>
    some ((), { h with rateLimit := h.rateLimit.restoreRejections total }.tell i (.restored total))
  | .change e, _, h => some ((), { h with node := h.node.step s.lib s.env s.options e.1 }.tell i (.changed e))

/-- Queries that are served beside each other. -/
abbrev Queries (σ : Type) := Pool (Handler σ) (Call σ) (Op σ) Ans Unit

def Queries.step (w : Queries σ) (e : Turn (Call σ) (Outside σ)) : Option (Queries σ) :=
  Pool.step (Call.body s) (serve s) w e

/-- A handler as the program makes it. -/
def Handler.new (allowed : List Ip.Prefix) (maxConcurrent : ℕ) (rateLimit : RateLimitState) (node : Node σ) : Handler σ where
  allowed := allowed
  channels := [⟨maxConcurrent, 0⟩]
  rateLimit := rateLimit
  node := node

end

end Velora.Dns.Handling
