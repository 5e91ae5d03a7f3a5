import Velora.Lib.Fields
import Velora.Lib.Text

/-!
# The configuration and what of it can change while the server runs

`internal/config/config.go` (the types) and `internal/config/live.go`. A slice is an optional list: `none` is the nil
slice, which `reflect.DeepEqual` tells from an empty one. Durations are nanoseconds.

`restartRequiredFields` is the list of the fields in which two configurations differ, out of the table `settings` of all
fields that are neither live nor skipped (`restartRequiredFields_eq`), and that table with the live and the skipped fields is
the whole configuration (`settings_cover`). `Clone` keeps every field except that it turns an empty slice into a nil one,
which decides when a configuration accepts its own clone (`live_accepted_iff`).
-/

namespace Velora.Config

open Velora.Lib

/-! ### The types -/

structure DNS where
  listen : Option (List Str) := none
  upstreams : Option (List Str) := none
  allowedClients : Option (List Str) := none
  timeout : ℤ := 0
  retries : ℤ := 0
  maxConcurrent : ℤ := 0
  globalQPS : ℤ := 0
  clientQPS : ℤ := 0
  rateLimitBurst : ℤ := 0
  rateLimitEnabled : Bool := false
  maxTCPConns : ℤ := 0
  doTListen : Str := []
  doHListen : Str := []
  doQListen : Str := []
  tlsCertFile : Str := []
  tlsKeyFile : Str := []
  dnssec : Bool := false
  trustAnchors : Option (List Str) := none
  deriving DecidableEq

structure Cache where
  maxEntries : ℤ := 0
  upstreamTTL : ℤ := 0
  deriving DecidableEq

structure HTTP where
  allowedHosts : Option (List Str) := none
  listen : Str := []
  webDir : Str := []
  deriving DecidableEq

structure Filtering where
  blockMode : Str := []
  blocklist : Option (List Str) := none
  allowlist : Option (List Str) := none
  deriving DecidableEq

structure QueryLog where
  maxRows : ℤ := 0
  enabled : Bool := false
  queueSize : ℤ := 0
  retention : ℤ := 0
  deriving DecidableEq

structure Management where
  bootstrapUsername : Str := []
  bootstrapPassword : Str := []
  deriving DecidableEq

structure TSIGKey where
  name : Str
  algorithm : Str
  secret : Str
  deriving DecidableEq

structure TSIG where
  keys : Option (List TSIGKey) := none
  deriving DecidableEq

structure Transfer where
  zone : Str
  primary : Str
  tsigKey : Str
  interval : ℤ
  deriving DecidableEq

structure DHCP where
  enabled : Bool := false
  listen : Str := []
  publishDNS : Bool := false
  deriving DecidableEq

structure Cluster where
  enabled : Bool := false
  primaryDSN : Str := []
  replicaDSNs : Option (List Str) := none
  maxOpenConns : ℤ := 0
  maxIdleConns : ℤ := 0
  connMaxLifetime : ℤ := 0
  deriving DecidableEq

structure Node where
  id : Str := []
  name : Str := []
  address : Str := []
  deriving DecidableEq

end Velora.Config

open Velora.Lib Velora.Config in
structure Velora.Config where
  dns : DNS := {}
  cache : Cache := {}
  http : HTTP := {}
  filtering : Filtering := {}
  queryLog : QueryLog := {}
  tsig : TSIG := {}
  transfers : Option (List Transfer) := none
  dhcp : DHCP := {}
  cluster : Cluster := {}
  node : Node := {}
  management : Management := {}
  databasePath : Str := []
  databaseDriver : Str := []
  databaseURL : Str := []
  logLevel : Str := []
  deriving DecidableEq

namespace Velora.Config

open Velora.Lib

/-- `Default`. -/
def default : Config where
  dns := { listen := some ["127.0.0.1:3535".toList], upstreams := some ["1.1.1.1:53".toList, "9.9.9.9:53".toList],
           allowedClients := some ["127.0.0.0/8".toList, "::1/128".toList], timeout := 2000000000, retries := 1,
           maxConcurrent := 256, globalQPS := 1000, clientQPS := 100, rateLimitBurst := 100, rateLimitEnabled := false,
           maxTCPConns := 256 }
  cache := { maxEntries := 10000, upstreamTTL := 86400 }
  http := { listen := "127.0.0.1:8080".toList, webDir := "web/dist".toList,
            allowedHosts := some ["localhost".toList, "127.0.0.1".toList, "::1".toList] }
  queryLog := { enabled := false, maxRows := 100000, queueSize := 1024, retention := 604800000000000 }
  cluster := { maxOpenConns := 10, maxIdleConns := 5, connMaxLifetime := 300000000000 }
  node := { id := "node-1".toList, name := "Primary".toList }
  databasePath := "data/velora.db".toList
  databaseDriver := "sqlite".toList
  logLevel := "info".toList

/-! ### `Clone` -/

/-- `append([]T(nil), s...)`: a copy, and nil also for an empty slice. -/
def copied {α : Type} : Option (List α) → Option (List α)
  | some (a :: l) => some (a :: l)
  | _ => none

/-- `Clone`. -/
def clone (c : Config) : Config :=
  { c with
    dns := { c.dns with
      listen := copied c.dns.listen
      upstreams := copied c.dns.upstreams
      allowedClients := copied c.dns.allowedClients
      trustAnchors := copied c.dns.trustAnchors }
    http := { c.http with allowedHosts := copied c.http.allowedHosts }
    filtering := { c.filtering with blocklist := copied c.filtering.blocklist, allowlist := copied c.filtering.allowlist }
    tsig := { c.tsig with keys := copied c.tsig.keys }
    transfers := copied c.transfers
    cluster := { c.cluster with replicaDSNs := copied c.cluster.replicaDSNs } }

/-! ### `RestartRequiredFields` -/

/-- The fields of each struct in the order of the source, with the names of their `json` tags. -/
def DNS.fields : List (FieldOf DNS) :=
  [⟨"listen", DNS.listen⟩, ⟨"upstreams", DNS.upstreams⟩, ⟨"allowed_clients", DNS.allowedClients⟩, ⟨"timeout", DNS.timeout⟩,
    ⟨"retries", DNS.retries⟩, ⟨"max_concurrent", DNS.maxConcurrent⟩, ⟨"global_qps", DNS.globalQPS⟩,
    ⟨"client_qps", DNS.clientQPS⟩, ⟨"rate_limit_burst", DNS.rateLimitBurst⟩, ⟨"rate_limit_enabled", DNS.rateLimitEnabled⟩,
    ⟨"max_tcp_connections", DNS.maxTCPConns⟩, ⟨"dot_listen", DNS.doTListen⟩, ⟨"doh_listen", DNS.doHListen⟩,
    ⟨"doq_listen", DNS.doQListen⟩, ⟨"tls_cert_file", DNS.tlsCertFile⟩, ⟨"-", DNS.tlsKeyFile⟩, ⟨"dnssec", DNS.dnssec⟩,
    ⟨"trust_anchors", DNS.trustAnchors⟩]

def Cache.fields : List (FieldOf Cache) := [⟨"max_entries", Cache.maxEntries⟩, ⟨"upstream_ttl", Cache.upstreamTTL⟩]

def HTTP.fields : List (FieldOf HTTP) :=
  [⟨"allowed_hosts", HTTP.allowedHosts⟩, ⟨"listen", HTTP.listen⟩, ⟨"web_dir", HTTP.webDir⟩]

def Filtering.fields : List (FieldOf Filtering) :=
  [⟨"block_mode", Filtering.blockMode⟩, ⟨"blocklist", Filtering.blocklist⟩, ⟨"allowlist", Filtering.allowlist⟩]

def QueryLog.fields : List (FieldOf QueryLog) :=
  [⟨"max_rows", QueryLog.maxRows⟩, ⟨"enabled", QueryLog.enabled⟩, ⟨"queue_size", QueryLog.queueSize⟩,
    ⟨"retention", QueryLog.retention⟩]

def TSIG.fields : List (FieldOf TSIG) := [⟨"keys", TSIG.keys⟩]

def DHCP.fields : List (FieldOf DHCP) :=
  [⟨"enabled", DHCP.enabled⟩, ⟨"listen", DHCP.listen⟩, ⟨"publish_dns", DHCP.publishDNS⟩]

def Cluster.fields : List (FieldOf Cluster) :=
  [⟨"enabled", Cluster.enabled⟩, ⟨"-", Cluster.primaryDSN⟩, ⟨"-", Cluster.replicaDSNs⟩,
    ⟨"max_open_conns", Cluster.maxOpenConns⟩, ⟨"max_idle_conns", Cluster.maxIdleConns⟩,
    ⟨"conn_max_lifetime", Cluster.connMaxLifetime⟩]

def Node.fields : List (FieldOf Node) := [⟨"id", Node.id⟩, ⟨"name", Node.name⟩, ⟨"address", Node.address⟩]

/-- The loop of `compare` over the fields of a struct. -/
def compare {S : Type} (pre : String) (fields : List (FieldOf S)) (before after : S) (live : List String) : List String :=
  fields.filterMap (fun f =>
    if f.name = "-" ∨ f.name ∈ live then none
    else if f.get before = f.get after then none
    else some (pre ++ f.name))

/-- `RestartRequiredFields`. -/
def restartRequiredFields (previous next : Config) : List String :=
  compare "dns." DNS.fields previous.dns next.dns
      ["allowed_clients", "max_concurrent", "global_qps", "client_qps", "rate_limit_burst", "rate_limit_enabled"] ++
    compare "cache." Cache.fields previous.cache next.cache ["upstream_ttl"] ++
    compare "http." HTTP.fields previous.http next.http ["allowed_hosts", "web_dir"] ++
    compare "filtering." Filtering.fields previous.filtering next.filtering ["block_mode"] ++
    compare "query_log." QueryLog.fields previous.queryLog next.queryLog ["enabled"] ++
    compare "tsig." TSIG.fields previous.tsig next.tsig [] ++
    (if previous.transfers = next.transfers then [] else ["transfers"]) ++
    compare "dhcp." DHCP.fields previous.dhcp next.dhcp [] ++
    compare "cluster." Cluster.fields previous.cluster next.cluster [] ++
    compare "node." Node.fields previous.node next.node [] ++
    (if previous.logLevel = next.logLevel then [] else ["log_level"])

/-! ### Live, skipped and all other fields -/

/-- The fields listed as live. -/
structure Live where
  allowedClients : Option (List Str)
  maxConcurrent : ℤ
  globalQPS : ℤ
  clientQPS : ℤ
  rateLimitBurst : ℤ
  rateLimitEnabled : Bool
  upstreamTTL : ℤ
  allowedHosts : Option (List Str)
  webDir : Str
  blockMode : Str
  queryLogging : Bool

def withLive (c : Config) (l : Live) : Config :=
  { c with
    dns := { c.dns with
      allowedClients := l.allowedClients, maxConcurrent := l.maxConcurrent, globalQPS := l.globalQPS
      clientQPS := l.clientQPS, rateLimitBurst := l.rateLimitBurst, rateLimitEnabled := l.rateLimitEnabled }
    cache := { c.cache with upstreamTTL := l.upstreamTTL }
    http := { c.http with allowedHosts := l.allowedHosts, webDir := l.webDir }
    filtering := { c.filtering with blockMode := l.blockMode }
    queryLog := { c.queryLog with enabled := l.queryLogging } }

/-- The fields whose `json` tag is `-`, which no request can set. -/
structure Skipped where
  tlsKeyFile : Str
  primaryDSN : Str
  replicaDSNs : Option (List Str)
  management : Management
  databasePath : Str
  databaseDriver : Str
  databaseURL : Str

def withSkipped (c : Config) (s : Skipped) : Config :=
  { c with
    dns := { c.dns with tlsKeyFile := s.tlsKeyFile }
    cluster := { c.cluster with primaryDSN := s.primaryDSN, replicaDSNs := s.replicaDSNs }
    management := s.management
    databasePath := s.databasePath
    databaseDriver := s.databaseDriver
    databaseURL := s.databaseURL }

/-- All other fields, with their paths. -/
def settings : List (FieldOf Config) :=
  [⟨"dns.listen", (·.dns.listen)⟩, ⟨"dns.upstreams", (·.dns.upstreams)⟩, ⟨"dns.timeout", (·.dns.timeout)⟩,
    ⟨"dns.retries", (·.dns.retries)⟩, ⟨"dns.max_tcp_connections", (·.dns.maxTCPConns)⟩,
    ⟨"dns.dot_listen", (·.dns.doTListen)⟩, ⟨"dns.doh_listen", (·.dns.doHListen)⟩, ⟨"dns.doq_listen", (·.dns.doQListen)⟩,
    ⟨"dns.tls_cert_file", (·.dns.tlsCertFile)⟩, ⟨"dns.dnssec", (·.dns.dnssec)⟩,
    ⟨"dns.trust_anchors", (·.dns.trustAnchors)⟩, ⟨"cache.max_entries", (·.cache.maxEntries)⟩,
    ⟨"http.listen", (·.http.listen)⟩, ⟨"filtering.blocklist", (·.filtering.blocklist)⟩,
    ⟨"filtering.allowlist", (·.filtering.allowlist)⟩, ⟨"query_log.max_rows", (·.queryLog.maxRows)⟩,
    ⟨"query_log.queue_size", (·.queryLog.queueSize)⟩, ⟨"query_log.retention", (·.queryLog.retention)⟩,
    ⟨"tsig.keys", (·.tsig.keys)⟩, ⟨"transfers", transfers⟩, ⟨"dhcp.enabled", (·.dhcp.enabled)⟩,
    ⟨"dhcp.listen", (·.dhcp.listen)⟩, ⟨"dhcp.publish_dns", (·.dhcp.publishDNS)⟩, ⟨"cluster.enabled", (·.cluster.enabled)⟩,
    ⟨"cluster.max_open_conns", (·.cluster.maxOpenConns)⟩, ⟨"cluster.max_idle_conns", (·.cluster.maxIdleConns)⟩,
    ⟨"cluster.conn_max_lifetime", (·.cluster.connMaxLifetime)⟩, ⟨"node.id", (·.node.id)⟩, ⟨"node.name", (·.node.name)⟩,
    ⟨"node.address", (·.node.address)⟩, ⟨"log_level", logLevel⟩]

/-- `compare` lists the fields of the struct that are left when the live and the skipped ones are taken out. -/
theorem compare_eq {S : Type} (pre : String) (fields : List (FieldOf S)) (part : Config → S) (live : List String)
    (c d : Config) :
    compare pre fields (part c) (part d) live =
      FieldOf.changed ((fields.filter (fun f => ¬ (f.name = "-" ∨ f.name ∈ live))).map (FieldOf.at' pre part)) c d := by
  rw [FieldOf.changed, List.filterMap_map, List.filterMap_filter]
  refine List.filterMap_congr (fun f _ => ?_)
  by_cases hskip : f.name = "-" ∨ f.name ∈ live
  · simp [hskip]
  · by_cases heq : f.get (part c) = f.get (part d) <;> simp [hskip, FieldOf.at', heq]

/-- The fields that need a restart are the settings in which the configurations differ. -/
theorem restartRequiredFields_eq (c d : Config) : restartRequiredFields c d = FieldOf.changed settings c d := by
  have htransfers : (if c.transfers = d.transfers then [] else ["transfers"]) =
      FieldOf.changed [⟨"transfers", transfers⟩] c d := by
    by_cases h : c.transfers = d.transfers <;> simp [FieldOf.changed, h]
  have hlevel : (if c.logLevel = d.logLevel then [] else ["log_level"]) = FieldOf.changed [⟨"log_level", logLevel⟩] c d := by
    by_cases h : c.logLevel = d.logLevel <;> simp [FieldOf.changed, h]
  rw [restartRequiredFields, compare_eq "dns." _ dns, compare_eq "cache." _ cache, compare_eq "http." _ http,
    compare_eq "filtering." _ filtering, compare_eq "query_log." _ queryLog, compare_eq "tsig." _ tsig,
    compare_eq "dhcp." _ dhcp, compare_eq "cluster." _ cluster, compare_eq "node." _ node, htransfers, hlevel]
  simp only [← FieldOf.changed_append]
  rfl

def live (c : Config) : Live where
  allowedClients := c.dns.allowedClients
  maxConcurrent := c.dns.maxConcurrent
  globalQPS := c.dns.globalQPS
  clientQPS := c.dns.clientQPS
  rateLimitBurst := c.dns.rateLimitBurst
  rateLimitEnabled := c.dns.rateLimitEnabled
  upstreamTTL := c.cache.upstreamTTL
  allowedHosts := c.http.allowedHosts
  webDir := c.http.webDir
  blockMode := c.filtering.blockMode
  queryLogging := c.queryLog.enabled

def skipped (c : Config) : Skipped where
  tlsKeyFile := c.dns.tlsKeyFile
  primaryDSN := c.cluster.primaryDSN
  replicaDSNs := c.cluster.replicaDSNs
  management := c.management
  databasePath := c.databasePath
  databaseDriver := c.databaseDriver
  databaseURL := c.databaseURL

/-- The settings, the live fields and the skipped ones are the whole configuration. -/
theorem settings_cover {c d : Config} :
    (∀ f ∈ settings, f.get c = f.get d) ↔ ∃ l s, d = (c.withLive l).withSkipped s := by
  constructor
  · intro h
    refine ⟨d.live, d.skipped, ?_⟩
    simp only [settings, List.forall_mem_cons] at h
    obtain ⟨_, _, _, _, _, ⟨_⟩, _, ⟨_, _, _⟩, _, ⟨_, _, _⟩, _, _, _, _, _⟩ := c
    obtain ⟨_, _, _, _, _, ⟨_⟩, _, ⟨_, _, _⟩, _, ⟨_, _, _⟩, _, _, _, _, _⟩ := d
    simp only at h
    simp only [withLive, withSkipped, live, skipped, h]
  · rintro ⟨l, s, rfl⟩
    simp [settings, withLive, withSkipped]

/-! ### When a configuration accepts its own clone -/

theorem copied_eq {α : Type} {s : Option (List α)} : copied s = s ↔ s ≠ some [] := by
  rcases s with _ | _ | ⟨a, l⟩ <;> simp [copied]

/-- No list that is compared is empty without being nil. -/
structure NoEmptyList (c : Config) : Prop where
  listen : c.dns.listen ≠ some []
  upstreams : c.dns.upstreams ≠ some []
  trustAnchors : c.dns.trustAnchors ≠ some []
  blocklist : c.filtering.blocklist ≠ some []
  allowlist : c.filtering.allowlist ≠ some []
  keys : c.tsig.keys ≠ some []
  transfers : c.transfers ≠ some []

/-- The clone agrees with the configuration on the settings when no list among them is empty without being nil. -/
theorem clone_agrees {c : Config} : (∀ f ∈ settings, f.get c = f.get c.clone) ↔ NoEmptyList c := by
  have hlist {α : Type} (s : Option (List α)) : s = copied s ↔ s ≠ some [] := eq_comm.trans copied_eq
  constructor
  · intro h
    simp only [settings, List.forall_mem_cons, clone, hlist] at h
    exact ⟨h.1, h.2.1, by tauto, by tauto, by tauto, by tauto, by tauto⟩
  · rintro ⟨hlisten, hupstreams, hanchors, hblock, hallow, hkeys, htransfers⟩
    simp only [settings, List.forall_mem_cons, clone, hlist]
    simp [*]

/-- The live and the skipped fields are not among the settings. -/
theorem changed_withLive (c d : Config) (l : Live) :
    FieldOf.changed settings c (d.withLive l) = FieldOf.changed settings c d := rfl

/-- A configuration accepts its clone, with any change to its live fields, exactly when none of its compared lists is empty
without being nil; and every other change is reported with the path of the field. -/
theorem live_accepted_iff (c : Config) :
    (restartRequiredFields c c.clone = [] ↔ NoEmptyList c) ∧
    ((∀ l, restartRequiredFields c (c.clone.withLive l) = []) ↔ NoEmptyList c) ∧
    ∀ d, (∀ f ∈ settings, f.get c ≠ f.get d → f.name ∈ restartRequiredFields c d) ∧
      ((∀ f ∈ settings, f.get c = f.get d) → ∃ l s, d = (c.withLive l).withSkipped s) := by
  have hclone : FieldOf.changed settings c c.clone = [] ↔ NoEmptyList c := FieldOf.changed_eq_nil.trans clone_agrees
  refine ⟨?_, ?_, fun d => ⟨fun f hf hne => ?_, settings_cover.1⟩⟩
  · rw [restartRequiredFields_eq, hclone]
  · simp only [restartRequiredFields_eq, changed_withLive, hclone]
    exact ⟨fun h => h c.live, fun h _ => h⟩
  · rw [restartRequiredFields_eq]
    exact FieldOf.mem_changed.2 ⟨f, hf, hne, rfl⟩

/-- An empty block list in the file, and nothing changed: the clone needs a restart. -/
theorem live_refused :
    restartRequiredFields { default with filtering := { blocklist := some [] } }
      (clone { default with filtering := { blocklist := some [] } }) = ["filtering.blocklist"] := by
  decide

end Velora.Config
