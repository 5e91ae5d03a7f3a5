import Velora.Config.Live
import Velora.Forwarding.Service
import Velora.Lib.Prefix

/-!
# What a configuration has to satisfy

`Validate` of `internal/config/config.go`: all problems of a configuration, each with the path of its field. The loops over
the two domain lists and over the two TLS files visit a map, in any order; here the entries stand in the order in which the
source writes them.
-/

namespace Velora.Config

open Velora.Lib Velora.Lib.Text Velora.Lib.Ip Velora.Forwarding
open Velora.Zones (byteLen)

structure FieldError where
  field : String
  message : String
  deriving DecidableEq

structure ValidationError where
  fields : List FieldError
  deriving DecidableEq

/-- `Error`. -/
def ValidationError.error (e : ValidationError) : String :=
  "; ".intercalate (e.fields.map (fun f => f.field ++ ": " ++ f.message))

/-- `url.Parse`, as far as `address` looks at it. -/
structure URL where
  scheme : Str
  host : Str
  path : Str
  rawQuery : Str
  fragment : Str

/-- The parsers of the libraries: `url.Parse`, and `wire.NewRR` with the type of the record it makes. -/
structure Parsers where
  parseURL : Str → Option URL
  newRR : Str → Option ℕ

/-- `wire.TypeDS` -/
def typeDS : ℕ := 43

/-! ### The checks of single values -/

/-- `strings.FieldsFunc`. -/
def fieldsFunc (p : Char → Bool) (s : Str) : List Str := (s.splitOnP p).filter (· ≠ [])

/-- `safePath`. -/
def safePath (value : Str) : Option String :=
  if value.any (fun c => c ∈ [Char.ofNat 0, '\r', '\n']) ∨ value.tails.any "://".toList.isPrefixOf ∨ byteLen value > 4096 then
    some "must be a plain filesystem path"
  else if ['.', '.'] ∈ fieldsFunc (fun c => c == '/' || c == '\\') value then some "must not contain .. segments"
  else none

/-- The loop over the labels of a domain or a host: none is empty, longer than 63 bytes or bounded by a hyphen, and their
characters are allowed ones. -/
def validLabels (allowed : Char → Bool) (value : Str) : Bool :=
  (value.splitOn '.').all (fun label =>
    label ≠ [] && byteLen label ≤ 63 && label.head? ≠ some '-' && label.getLast? ≠ some '-' && label.all allowed)

/-- `strings.TrimPrefix`. -/
def trimPrefix (p s : Str) : Str := (cutPrefix p s).getD s

/-- `validDomain`. -/
def validDomain (value : Str) : Bool :=
  let value := trimDot (trimPrefix "*.".toList (lower (trimSpaces value)))
  value ≠ [] && byteLen value ≤ 253 &&
    validLabels (fun r => ('a' ≤ r && r ≤ 'z') || ('0' ≤ r && r ≤ '9') || r == '-' || r == '_') value

/-- `validHost`. -/
def validHost (host : Str) : Bool :=
  host == ['*'] || (parseZoned host).isSome ||
    (host ≠ [] && byteLen host ≤ 253 &&
      validLabels (fun r => ('a' ≤ r && r ≤ 'z') || ('A' ≤ r && r ≤ 'Z') || ('0' ≤ r && r ≤ '9') || r == '-') host)

/-- `strconv.Atoi`. -/
def atoi (s : Str) : Option ℤ :=
  let (sign, digits) : ℤ × Str := match s with
    | '-' :: rest => (-1, rest)
    | '+' :: rest => (1, rest)
    | _ => (1, s)
  let n := sign * Nat.ofDigitChars 10 digits 0
  if digits ≠ [] ∧ digits.all Char.isDigit ∧ -2 ^ 63 ≤ n ∧ n < 2 ^ 63 then some n else none

/-- `net.SplitHostPort`, with the port. -/
def hostPort (s : Str) : Except String (Str × Str) :=
  (splitHostPort s).map (fun host => (host, (s.reverse.takeWhile (· ≠ ':')).reverse))

/-- `address`. -/
def address (lib : Parsers) (a : Str) (listen : Bool) : Option String :=
  if !listen && "https://".toList.isPrefixOf a then
    match lib.parseURL a with
    | none => some ("invalid DoH upstream " ++ quoted a)
    | some u =>
      if u.scheme ≠ "https".toList ∨ u.path ≠ "/dns-query".toList ∨ u.rawQuery ≠ [] ∨ u.fragment ≠ [] then
        some ("invalid DoH upstream " ++ quoted a)
      else
        match hostPort u.host with
        | .error _ => some "DoH upstream requires IP literal, port and /dns-query path"
        | .ok (host, port) =>
          if (parseIP host).isNone ∨ port = [] then some "DoH upstream requires IP literal, port and /dns-query path"
          else none
  else
    let a := if listen then a else trimPrefix "tls://".toList a
    match hostPort a with
    | .error _ => some ("invalid address " ++ quoted a)
    | .ok (host, port) =>
      match parseZoned host with
      | none => some ("address must use an IP literal: " ++ quoted a)
      | some (ip, zone) =>
        match atoi port with
        | none => some ("invalid port in " ++ quoted a)
        | some n =>
          if n < 1 ∨ n > 65535 then some ("invalid port in " ++ quoted a)
          else if (⟨unmapAddr ip, zone, 0⟩ : AddrPort).isMulticast ∨ (!listen && (⟨ip, zone, 0⟩ : AddrPort).isUnspecified) then
            some ("invalid IP in " ++ quoted a)
          else none

/-! ### Listeners that exclude each other -/

structure Socket where
  field : String
  network : String
  addr : AddrPort

/-- `addSocket`. -/
def addSocket (field : String) (value : Str) (networks : List String) : List Socket :=
  match parseAddrPort value with
  | none => []
  | some addr => networks.map (fun network => ⟨field, network, addr.unmap⟩)

/-- The path of an element of a list. -/
def element (field : String) (i : ℕ) : String := field ++ "[" ++ toString i ++ "]"

/-- The address at which the DHCP server listens. -/
def dhcpListen (c : Config) : Str := if c.dhcp.listen = [] then "0.0.0.0:67".toList else c.dhcp.listen

def sockets (c : Config) : List Socket :=
  (c.dns.listen.getD []).zipIdx.flatMap (fun (value, i) => addSocket (element "dns.listen" i) value ["udp", "tcp"]) ++
    addSocket "dns.dot_listen" c.dns.doTListen ["tcp"] ++ addSocket "dns.doh_listen" c.dns.doHListen ["tcp"] ++
    addSocket "dns.doq_listen" c.dns.doQListen ["udp"] ++ addSocket "http.listen" c.http.listen ["tcp"] ++
    (if c.dhcp.enabled then addSocket "dhcp.listen" (dhcpListen c) ["udp"] else [])

/-- The address of one of the sockets covers that of the other. -/
def Socket.overlap (a b : Socket) : Bool :=
  let sameFamily := (a.addr.ip.length = 4) == (b.addr.ip.length = 4)
  { a.addr with port := 0 } == { b.addr with port := 0 } || (sameFamily && (a.addr.isUnspecified || b.addr.isUnspecified))

/-- `netip.AddrPort.String`, of an address that may have a zone. -/
def addrPortString (a : AddrPort) : String :=
  if a.zone = [] then String.ofList a.text
  else String.ofList ('[' :: addrString a.ip ++ '%' :: a.zone ++ ']' :: ':' :: decimal a.port)

/-- The inner loop of `listenerConflicts`: the sockets before `a`, with the pairs that have been reported. -/
def conflictsOf (a : Socket) : List Socket → List String → List FieldError × List String
  | [], reported => ([], reported)
  | b :: rest, reported =>
    if a.field = b.field ∨ a.network ≠ b.network ∨ a.addr.port ≠ b.addr.port ∨ a.field ++ b.field ∈ reported then
      conflictsOf a rest reported
    else if a.overlap b then
      let (out, reported) := conflictsOf a rest ((a.field ++ b.field) :: reported)
      (⟨a.field, a.network ++ "/" ++ toString a.addr.port ++ " conflicts with " ++ b.field ++ " (" ++
        addrPortString b.addr ++ ")"⟩ :: out, reported)
    else conflictsOf a rest reported

/-- The outer loop. -/
def conflictsFrom : List Socket → List Socket → List String → List FieldError
  | _, [], _ => []
  | before, a :: rest, reported =>
    let (out, reported) := conflictsOf a before reported
    out ++ conflictsFrom (before ++ [a]) rest reported

/-- `listenerConflicts`. -/
def listenerConflicts (c : Config) : List FieldError := conflictsFrom [] (sockets c) []

/-! ### `Validate` -/

/-- `add`, when something is wrong. -/
def add (wrong : Prop) [Decidable wrong] (field message : String) : List FieldError :=
  if wrong then [⟨field, message⟩] else []

/-- `check`. -/
def check (field : String) : Option String → List FieldError
  | none => []
  | some message => [⟨field, message⟩]

/-- A loop over a list that checks each element by itself. -/
def checkEach (field : String) (values : List Str) (f : Str → Option String) : List FieldError :=
  values.zipIdx.flatMap (fun (value, i) => check (element field i) (f value))

/-- The loop over the listeners, with the addresses seen. -/
def listenErrors (lib : Parsers) : ℕ → List Str → List Str → List FieldError × List Str
  | _, seen, [] => ([], seen)
  | i, seen, a :: rest =>
    match address lib a true with
    | some e =>
      let (errs, seen) := listenErrors lib (i + 1) seen rest
      (⟨element "dns.listen" i, e⟩ :: errs, seen)
    | none =>
      let duplicate := add (a ∈ seen) (element "dns.listen" i) ("duplicate listener " ++ quoted a)
      let (errs, seen) := listenErrors lib (i + 1) (a :: seen) rest
      (duplicate ++ errs, seen)

/-- The check of an upstream, with the addresses of the listeners. -/
def upstreamError (lib : Parsers) (seen : List Str) (a : Str) : Option String :=
  match address lib a false with
  | some e => some e
  | none => if a ∈ seen then some ("upstream " ++ quoted a ++ " is one of this server's own listeners") else none

def managementErrors (m : Management) : List FieldError :=
  add (decide (m.bootstrapUsername = []) ≠ decide (m.bootstrapPassword = []) ∨
      (m.bootstrapPassword ≠ [] ∧ byteLen m.bootstrapPassword < 12))
    "management.bootstrap_password"
    "bootstrap username and password must both be set; password requires at least 12 characters"

def filteringErrors (f : Filtering) : List FieldError :=
  let domain (value : Str) : Option String := if validDomain value then none else some (quoted value ++ " is not a valid domain")
  add (f.blockMode ≠ [] ∧ f.blockMode ≠ "NXDOMAIN".toList ∧ f.blockMode ≠ "ZERO".toList) "filtering.block_mode"
      "must be NXDOMAIN or ZERO" ++
    checkEach "filtering.blocklist" (f.blocklist.getD []) domain ++
    checkEach "filtering.allowlist" (f.allowlist.getD []) domain

def tlsErrors (lib : Parsers) (c : Config) : List FieldError :=
  let file (field : String) (value : Str) := if value = [] then [] else check field (safePath value)
  let anchor (value : Str) : Option String :=
    if lib.newRR value = some typeDS then none else some ("invalid DNSSEC DS trust anchor " ++ quoted value)
  let listener (name field : String) (value : Str) : List FieldError :=
    if value = [] then []
    else
      add (c.dns.tlsCertFile = []) field ("DNS-over-" ++ name ++ " requires a TLS certificate and key") ++
        check field (address lib value true)
  add (decide (c.dns.tlsCertFile = []) ≠ decide (c.dns.tlsKeyFile = [])) "dns.tls_key_file"
      "dns.tls_cert_file and dns.tls_key_file must both be set" ++
    file "dns.tls_cert_file" c.dns.tlsCertFile ++ file "dns.tls_key_file" c.dns.tlsKeyFile ++
    add (c.dns.dnssec = true ∧ (c.dns.trustAnchors.getD []).length = 0) "dns.trust_anchors"
      "required when DNSSEC validation is enabled" ++
    (if c.dhcp.enabled then check "dhcp.listen" (address lib (dhcpListen c) true) else []) ++
    checkEach "dns.trust_anchors" (c.dns.trustAnchors.getD []) anchor ++
    listener "TLS" "dns.dot_listen" c.dns.doTListen ++ listener "HTTPS" "dns.doh_listen" c.dns.doHListen ++
    listener "QUIC" "dns.doq_listen" c.dns.doQListen

def addressErrors (lib : Parsers) (c : Config) : List FieldError :=
  let (listen, seen) := listenErrors lib 0 [] (c.dns.listen.getD [])
  listen ++ checkEach "dns.upstreams" (c.dns.upstreams.getD []) (upstreamError lib seen) ++
    check "http.listen" (address lib c.http.listen true) ++ listenerConflicts c

def hostErrors (h : HTTP) : List FieldError :=
  add ((h.allowedHosts.getD []).length = 0) "http.allowed_hosts" "cannot be empty" ++
    checkEach "http.allowed_hosts" (h.allowedHosts.getD [])
      (fun host => if validHost host then none else some ("invalid host " ++ quoted host))

/-- The check of a client network; a prefix that parses has no zone. -/
def clientError (v : Str) : Option String :=
  if (parseNetipPrefix v).isSome then none
  else some ("invalid client network " ++ quoted v ++ "; use CIDR notation such as 192.168.1.0/24")

def clientErrors (d : DNS) : List FieldError :=
  add ((d.allowedClients.getD []).length = 0) "dns.allowed_clients" "cannot be empty" ++
    checkEach "dns.allowed_clients" (d.allowedClients.getD []) clientError

def minute : ℤ := 60000000000

structure Limit where
  field : String
  value : ℤ
  min : ℤ
  max : ℤ

def limits (c : Config) : List Limit :=
  [⟨"cache.max_entries", c.cache.maxEntries, 0, 1000000⟩, ⟨"dns.max_concurrent", c.dns.maxConcurrent, 1, 10000⟩,
    ⟨"dns.global_qps", c.dns.globalQPS, 1, 100000⟩, ⟨"dns.client_qps", c.dns.clientQPS, 1, 100000⟩,
    ⟨"dns.rate_limit_burst", c.dns.rateLimitBurst, 1, 100000⟩, ⟨"dns.max_tcp_connections", c.dns.maxTCPConns, 1, 100000⟩,
    ⟨"cache.upstream_ttl", c.cache.upstreamTTL, 0, 604800⟩, ⟨"query_log.queue_size", c.queryLog.queueSize, 1, 100000⟩,
    ⟨"query_log.max_rows", c.queryLog.maxRows, 1, 1000000⟩]

def limitErrors (c : Config) : List FieldError :=
  add (c.dns.timeout < 10000000 ∨ c.dns.timeout > 10000000000) "dns.timeout" "must be 10ms–10s" ++
    add (c.dns.retries < 0 ∨ c.dns.retries > 3) "dns.retries" "must be 0–3" ++
    (limits c).flatMap (fun limit => add (limit.value < limit.min ∨ limit.value > limit.max) limit.field
      ("must be " ++ toString limit.min ++ "–" ++ toString limit.max)) ++
    add (c.queryLog.retention < minute ∨ c.queryLog.retention > 365 * 24 * 60 * minute) "query_log.retention"
      "must be 1 minute to 365 days"

def storageErrors (c : Config) : List FieldError :=
  let driver := if c.databaseDriver = [] then "sqlite".toList else c.databaseDriver
  add (driver ≠ "sqlite".toList ∧ driver ≠ "postgres".toList) "database_driver" "must be sqlite or postgres" ++
    add (driver = "postgres".toList ∧ c.databaseURL = []) "database_url" "required when database_driver is postgres" ++
    (if driver = "sqlite".toList then
      if c.databasePath = [] then [⟨"database_path", "cannot be empty for sqlite"⟩]
      else check "database_path" (safePath c.databasePath)
    else []) ++
    (if c.http.webDir = [] then [⟨"http.web_dir", "cannot be empty"⟩] else check "http.web_dir" (safePath c.http.webDir)) ++
    add (c.logLevel ∉ ["debug".toList, "info".toList, "warn".toList, "error".toList]) "log_level"
      "must be debug, info, warn or error"

def errs (lib : Parsers) (c : Config) : List FieldError :=
  let listen := (c.dns.listen.getD []).length
  let upstreams := (c.dns.upstreams.getD []).length
  managementErrors c.management ++ filteringErrors c.filtering ++
    add (listen = 0 ∨ listen > 8) "dns.listen" "DNS requires 1–8 listeners" ++
    add (upstreams = 0 ∨ upstreams > 8) "dns.upstreams" "DNS requires 1–8 upstreams" ++
    tlsErrors lib c ++ addressErrors lib c ++ hostErrors c.http ++ clientErrors c.dns ++ limitErrors c ++ storageErrors c

/-- `Validate`. -/
def validate (lib : Parsers) (c : Config) : Option ValidationError :=
  if errs lib c = [] then none else some ⟨errs lib c⟩

/-! ### What an accepted configuration satisfies -/

variable {lib : Parsers} {c : Config}

theorem add_eq_nil {wrong : Prop} [Decidable wrong] {field message : String} : add wrong field message = [] ↔ ¬ wrong := by
  simp [add]

theorem check_eq_nil {field : String} {e : Option String} : check field e = [] ↔ e = none := by
  cases e <;> simp [check]

theorem checkEach_eq_nil {field : String} {values : List Str} {f : Str → Option String} :
    checkEach field values f = [] ↔ ∀ v ∈ values, f v = none := by
  simp only [checkEach, List.flatMap_eq_nil_iff, check_eq_nil]
  constructor
  · intro h v hv
    obtain ⟨i, hi, rfl⟩ := List.getElem_of_mem hv
    exact h (values[i], i) (List.mem_zipIdx_iff_getElem?.2 (List.getElem?_eq_getElem hi))
  · intro h p hp
    exact h p.1 (List.fst_mem_of_mem_zipIdx hp)

theorem validate_eq_none : validate lib c = none ↔ errs lib c = [] := by
  simp [validate]

/-- The values of an accepted configuration lie within their limits. -/
theorem limit_of_validate (h : validate lib c = none) {l : Limit} (hl : l ∈ limits c) : l.min ≤ l.value ∧ l.value ≤ l.max := by
  have hnil : limitErrors c = [] := by
    have := validate_eq_none.1 h
    simp only [errs, List.append_eq_nil_iff] at this
    exact this.1.2
  simp only [limitErrors, List.append_eq_nil_iff, List.flatMap_eq_nil_iff, add_eq_nil] at hnil
  have := hnil.1.2 l hl
  omega

/-- The client networks of an accepted configuration parse. -/
theorem client_of_validate (h : validate lib c = none) {v : Str} (hv : v ∈ c.dns.allowedClients.getD []) :
    ∃ p, parseNetipPrefix v = some p := by
  have hnil : clientErrors c.dns = [] := by
    have := validate_eq_none.1 h
    simp only [errs, List.append_eq_nil_iff] at this
    exact this.1.1.2
  simp only [clientErrors, List.append_eq_nil_iff, checkEach_eq_nil] at hnil
  have hnone := hnil.2 v hv
  rw [← Option.isSome_iff_exists]
  by_contra hp
  simp [clientError, hp] at hnone

end Velora.Config
