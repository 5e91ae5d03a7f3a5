import Velora.Config.Validate
import Velora.Lib.Loops
import Velora.Lib.Prog

/-!
# Changing the configuration while the server runs

`PUT /api/v1/config` of `internal/api/server.go` with `applyConfig` of `internal/app/app.go` and `Save` of
`internal/config/config.go`: a candidate is checked, applied to the running services, the readiness is probed and the file is
replaced; a failure after the first applies the current configuration again.

The runtime settings are then those of the current configuration, as they were before (`Settled.newRuntime`), apart from the
rate limits: those can come from the database at the start, or from `PUT /api/v1/settings/rate-limit`, and the current
configuration knows neither.
-/

namespace Velora.Config

open Velora.Lib Velora.Lib.Ip Velora.Lib.Loops

/-! ### The running server -/

structure RateLimits where
  enabled : Bool
  globalQPS : ℤ
  clientQPS : ℤ
  burst : ℤ
  deriving DecidableEq

/-- The settings of the running services that `applyConfig` writes. -/
structure Runtime where
  upstreamTTL : UInt32
  queryLogging : Bool
  rateLimits : RateLimits
  allowed : List Prefix
  maxConcurrent : ℤ
  blockMode : Str
  /-- the configuration that the backup manager writes into its bundles -/
  backup : Config
  deriving DecidableEq

/-- The contents of the files there are. -/
abbrev Files := Str → Option Str

/-- The process: `currentConfig` of the API, `appliedConfig` of the application, the services and the files. -/
structure Server where
  current : Config
  applied : Config
  runtime : Runtime
  files : Files

/-! ### `applyConfig` -/

inductive ApplyError where
  | restartRequired (fields : List String)
  | upstreamTTL
  | clientNetwork (cidr : Str)
  deriving DecidableEq

def maxCacheUpstreamTTL : ℤ := 604800

/-- `Error`; the library says what is wrong with a network. -/
def ApplyError.error : ApplyError → String
  | .restartRequired fields => "configuration requires a restart for: " ++ ", ".intercalate fields
  | .upstreamTTL => "cache upstream TTL must be between 0 and " ++ toString maxCacheUpstreamTTL ++ " seconds"
  | .clientNetwork cidr => "netip.ParsePrefix(" ++ Forwarding.quoted cidr ++ ")"

/-- `cacheUpstreamTTL`. -/
def cacheUpstreamTTL (seconds : ℤ) : Except ApplyError UInt32 :=
  if seconds < 0 ∨ seconds > maxCacheUpstreamTTL then .error .upstreamTTL else .ok (UInt32.ofNat seconds.toNat)

def parseClient (cidr : Str) : Except ApplyError Prefix :=
  match parseNetipPrefix cidr with
  | some p => .ok p
  | none => .error (.clientNetwork cidr)

/-- The arguments of `Configure`. -/
def rateLimits (c : Config) : RateLimits :=
  ⟨c.dns.rateLimitEnabled, c.dns.globalQPS, c.dns.clientQPS, c.dns.rateLimitBurst⟩

/-- What `applyConfig` computes before it changes anything, as the settings it then makes. -/
def newRuntime (updated : Config) : Except ApplyError Runtime := do
  let upstreamTTL ← cacheUpstreamTTL updated.cache.upstreamTTL
  let newAllowed ← (updated.dns.allowedClients.getD []).mapM parseClient
  pure { upstreamTTL, queryLogging := updated.queryLog.enabled, rateLimits := updated.rateLimits, allowed := newAllowed
         maxConcurrent := updated.dns.maxConcurrent, blockMode := updated.filtering.blockMode, backup := updated.clone }

/-- `applyConfig`. -/
def applyConfig (s : Server) (updated : Config) : Except ApplyError Server := do
  if restartRequiredFields s.applied updated ≠ [] then
    .error (.restartRequired (restartRequiredFields s.applied updated))
  else
    let runtime ← newRuntime updated
    pure { s with runtime, applied := updated }

/-! ### `Save` -/

/-- What the libraries answer to the calls that `Save` makes: the YAML text, the name of a new temporary file, the errors,
what has been written when the write fails, and whether the temporary file can be removed. -/
structure Saving where
  marshal : Config → Except String Str
  createTemp : Except String Str
  chmod : Option String := none
  write : Option (String × Str) := none
  sync : Option String := none
  close : Option String := none
  rename : Option String := none
  removable : Bool := true

/-- `os.CreateTemp`: it makes a file that was not there, under a random name. -/
def createTemp (o : Saving) (path : Str) (files : Files) : Except String Str := do
  let name ← o.createTemp
  if (files name).isSome ∨ name = path then .error "file exists" else pure name

/-- `Save`: an error, or nothing, and the files as it leaves them. -/
def save (o : Saving) (path : Str) (c : Config) (files : Files) : Option String × Files :=
  match o.marshal c with
  | .error e => (some ("marshal config: " ++ e), files)
  | .ok data =>
    match createTemp o path files with
    | .error e => (some ("create temporary config: " ++ e), files)
    | .ok name =>
      -- the deferred `os.Remove`
      let remove (files : Files) : Files := if o.removable then Function.update files name none else files
      let holding (text : Str) : Files := Function.update files name (some text)
      match o.chmod, o.write, o.sync, o.close, o.rename with
      | some e, _, _, _, _ => (some ("set config permissions: " ++ e), remove (holding []))
      | _, some (e, part), _, _, _ => (some ("write temporary config: " ++ e), remove (holding part))
      | _, _, some e, _, _ => (some ("sync temporary config: " ++ e), remove (holding data))
      | _, _, _, some e, _ => (some ("close temporary config: " ++ e), remove (holding data))
      | _, _, _, _, some e => (some ("replace config: " ++ e), remove (holding data))
      | none, none, none, none, none => (none, Function.update files path (some data))

/-! ### The requests -/

/-- What `readJSON` finds in the body: one JSON value with known fields, which fills them in, or what is wrong with it. -/
inductive Body (α : Type) where
  | value (fill : α → α)
  | tooLarge
  | malformed

/-- A request: its content type as it stands and as `mime.ParseMediaType` reads it, its body, and what the services answer
while it is handled. -/
structure Request (α : Type) where
  contentType : Str
  mediaType : Option Str
  body : Body α

structure ConfigRequest extends Request Config where
  ready : Bool
  saving : Saving

inductive Reply where
  | ok
  | failure (status : ℕ) (code message : String) (fields : List FieldError)
  deriving DecidableEq

def Reply.status : Reply → ℕ
  | .ok => 200
  | .failure status _ _ _ => status

/-- `failure`. -/
def failure (status : ℕ) (code message : String) : Reply := .failure status code message []

def json : Str := "application/json".toList

/-- `readJSON`, into a value with its defaults. -/
def readJSON {α : Type} (r : Request α) (target : α) : Except Reply α :=
  if r.mediaType ≠ some json then .error (failure 415 "unsupported_media_type" "Use application/json")
  else
    match r.body with
    | .value fill => .ok (fill target)
    | .tooLarge => .error (failure 413 "payload_too_large" "Request exceeds 1 MiB")
    | .malformed =>
      .error (failure 400 "invalid_json" "Expected one JSON object with known fields and valid field types")

/-- `configFailure` of a validation error. -/
def invalidConfig (e : ValidationError) : Reply := .failure 400 "invalid_config" e.error e.fields

/-- `configFailure` of an error of `applyConfig`: it answers when a restart is required. -/
def configFailure : ApplyError → Option Reply
  | .restartRequired fields => some (.failure 409 "config_requires_restart" (ApplyError.restartRequired fields).error
      (fields.map (fun field =>
        ⟨field, "takes effect only after a restart; edit the configuration file and restart Velora DNS"⟩)))
  | _ => none

variable (lib : Parsers) (configPath : Str)

/-- `PUT /api/v1/config`. -/
def putConfig (s : Server) (r : ConfigRequest) : Reply × Server :=
  if configPath = [] then (failure 500 "config_path_missing" "Config path not configured", s)
  else if r.contentType ≠ json then (failure 415 "unsupported_media_type" "Use application/json", s)
  else
    match readJSON r.toRequest s.current.clone with
    | .error reply => (reply, s)
    | .ok newConfig =>
      match validate lib newConfig with
      | some e => (invalidConfig e, s)
      | none =>
        match applyConfig s newConfig with
        | .error e =>
          match configFailure e with
          | some reply => (reply, s)
          | none =>
            match applyConfig s s.current with
            | .error rollback =>
              (failure 500 "config_rollback_failed" ("Apply failed: " ++ e.error ++ "; rollback failed: " ++ rollback.error), s)
            | .ok s' => (failure 500 "config_apply_failed" e.error, s')
        | .ok s₁ =>
          if !r.ready then
            match applyConfig s₁ s₁.current with
            | .error rollback =>
              (failure 500 "config_rollback_failed" ("Readiness failed; rollback failed: " ++ rollback.error), s₁)
            | .ok s' => (failure 503 "config_not_ready" "Services are not ready after applying configuration", s')
          else
            match save r.saving configPath newConfig s₁.files with
            | (some e, files) =>
              let s₂ := { s₁ with files }
              match applyConfig s₂ s₂.current with
              | .error rollback =>
                (failure 500 "config_rollback_failed" ("Save failed: " ++ e ++ "; rollback failed: " ++ rollback.error), s₂)
              | .ok s' => (failure 500 "config_save_failed" e, s')
            | (none, files) => (.ok, { s₁ with files, current := newConfig })

/-- `SetRateLimitSettings`, with what the database answers. -/
def setRateLimitSettings (l : RateLimits) (stored : Option String) : Option String :=
  if l.globalQPS < 1 ∨ l.globalQPS > 100000 ∨ l.clientQPS < 1 ∨ l.clientQPS > 100000 ∨ l.burst < 1 ∨ l.burst > 100000 then
    some "invalid rate limit settings"
  else stored

/-- `PUT /api/v1/settings/rate-limit`. -/
def putRateLimit (s : Server) (r : Request RateLimits) (stored : Option String) : Reply × Server :=
  match readJSON r ⟨false, 0, 0, 0⟩ with
  | .error reply => (reply, s)
  | .ok input =>
    match setRateLimitSettings input stored with
    | some _ => (failure 400 "invalid_settings" "Rate limit values are invalid", s)
    | none => (.ok, { s with runtime := { s.runtime with rateLimits := input } })

/-! ### The run of the server -/

/-- `Run`, as far as it makes the settings: `persisted` are the rate limits that the database holds. -/
def start (c : Config) (persisted : Option RateLimits) (files : Files) : Option Server :=
  match validate lib c, newRuntime c with
  | none, .ok runtime =>
    let rateLimits := match persisted with
      | some l => if l.enabled ∨ l.globalQPS > 0 ∨ l.clientQPS > 0 ∨ l.burst > 0 then l else runtime.rateLimits
      | none => runtime.rateLimits
    some { current := c, applied := c, runtime := { runtime with rateLimits }, files }
  | _, _ => none

inductive Event where
  | putConfig (r : ConfigRequest)
  | putRateLimit (r : Request RateLimits) (stored : Option String)
  /-- somebody else changes the files -/
  | edit (files : Files)

def step (s : Server) : Event → Option Server
  | .putConfig r => some (putConfig lib configPath s r).2
  | .putRateLimit r stored => some (putRateLimit s r stored).2
  | .edit files => some { s with files }

/-! ### `Save` leaves the file alone when it fails -/

theorem createTemp_eq_ok {o : Saving} {path name : Str} {files : Files} (h : createTemp o path files = .ok name) :
    files name = none ∧ name ≠ path := by
  simp only [createTemp, bind_eq_ok] at h
  obtain ⟨n, -, h⟩ := h
  split at h
  · cases h
  · next hno =>
    obtain rfl := pure_eq_ok.1 h
    rw [not_or] at hno
    exact ⟨by simpa using hno.1, hno.2⟩

theorem save_error {o : Saving} {path : Str} {c : Config} {files files' : Files} {e : String}
    (h : save o path c files = (some e, files')) : files' path = files path := by
  unfold save at h
  cases hm : o.marshal c with
  | error => simp only [hm, Prod.mk.injEq] at h; rw [← h.2]
  | ok data =>
    cases ht : createTemp o path files with
    | error => simp only [hm, ht, Prod.mk.injEq] at h; rw [← h.2]
    | ok name =>
      have hne := (createTemp_eq_ok ht).2
      -- every file the failing branches leave differs from the old ones at the temporary name only
      have hkeep : ∀ text, (if o.removable then Function.update (Function.update files name (some text)) name none
          else Function.update files name (some text)) path = files path := by
        intro text
        split <;> simp [Function.update_of_ne hne.symm]
      simp only [hm, ht] at h
      split at h <;> cases h <;> exact hkeep _

/-! ### The settings are those of the current configuration -/

variable {lib configPath} {s s' : Server} {c : Config} {runtime : Runtime}

/-- An accepted configuration can be made into settings. -/
theorem newRuntime_of_validate (h : validate lib c = none) : ∃ runtime, newRuntime c = .ok runtime := by
  have httl := limit_of_validate h (l := ⟨"cache.upstream_ttl", c.cache.upstreamTTL, 0, 604800⟩) (by simp [limits])
  have hseconds : cacheUpstreamTTL c.cache.upstreamTTL = .ok (UInt32.ofNat c.cache.upstreamTTL.toNat) := by
    simp only at httl
    rw [cacheUpstreamTTL, if_neg]
    simp only [maxCacheUpstreamTTL]
    omega
  obtain ⟨ps, hps⟩ := exists_mapM_ok (l := c.dns.allowedClients.getD []) (f := parseClient) (fun v hv => by
    obtain ⟨p, hp⟩ := client_of_validate h hv
    exact ⟨p, by rw [parseClient, hp]⟩)
  exact ⟨_, bind_eq_ok.2 ⟨_, hseconds, bind_eq_ok.2 ⟨ps, hps, rfl⟩⟩⟩

theorem newRuntime_rateLimits (h : newRuntime c = .ok runtime) : runtime.rateLimits = c.rateLimits := by
  simp only [newRuntime, bind_eq_ok, pure_eq_ok] at h
  obtain ⟨_, -, _, -, rfl⟩ := h
  rfl

theorem applyConfig_eq_ok : applyConfig s c = .ok s' ↔
    restartRequiredFields s.applied c = [] ∧ ∃ runtime, newRuntime c = .ok runtime ∧ s' = { s with runtime, applied := c } := by
  unfold applyConfig
  split
  · next hne => exact iff_of_false (fun h => nomatch h) (fun h => hne h.1)
  · next heq => simp only [bind_eq_ok, pure_eq_ok, not_not.1 heq, true_and, eq_comm (b := s')]

/-- What is left after every request: the application has applied the current configuration, which is valid, and the settings
are its settings, the rate limits apart. -/
structure Settled (lib : Parsers) (s : Server) : Prop where
  applied : s.applied = s.current
  valid : validate lib s.current = none
  newRuntime : newRuntime s.current = .ok { s.runtime with rateLimits := s.current.rateLimits }

/-- Applying the current configuration again, after a candidate that needed no restart. -/
theorem Settled.rollback (h : Settled lib s) {files : Files} (hfields : restartRequiredFields s.current c = []) :
    applyConfig { s with runtime, applied := c, files } s.current =
      .ok { s with runtime := { s.runtime with rateLimits := s.current.rateLimits }, files } := by
  refine applyConfig_eq_ok.2 ⟨?_, _, h.newRuntime, ?_⟩
  · rw [restartRequiredFields_eq, FieldOf.changed_comm, ← restartRequiredFields_eq]
    exact hfields
  · rw [← h.applied]

/-- The request is answered before anything is applied. -/
def ConfigRequest.Rejected (lib : Parsers) (configPath : Str) (current : Config) (r : ConfigRequest) : Prop :=
  configPath = [] ∨ r.contentType ≠ json ∨ ∀ newConfig, readJSON r.toRequest current.clone = .ok newConfig →
    validate lib newConfig ≠ none ∨ restartRequiredFields current newConfig ≠ []

/-- What a request can do. -/
inductive Outcome (lib : Parsers) (configPath : Str) (s : Server) (r : ConfigRequest) : Reply × Server → Prop where
  | rejected (reply : Reply) (hr : r.Rejected lib configPath s.current) : Outcome lib configPath s r (reply, s)
  | restored (reply : Reply) (files : Files) (hr : ¬ r.Rejected lib configPath s.current)
      (hfile : files configPath = s.files configPath) : Outcome lib configPath s r
        (reply, { s with runtime := { s.runtime with rateLimits := s.current.rateLimits }, files })
  | saved (newConfig : Config) (runtime : Runtime) (files : Files) (hvalid : validate lib newConfig = none)
      (hruntime : newRuntime newConfig = .ok runtime) :
      Outcome lib configPath s r (.ok, { current := newConfig, applied := newConfig, runtime, files })

/-- Every way through `PUT /api/v1/config`: the second call of `applyConfig` never fails. -/
theorem Settled.putConfig (h : Settled lib s) (configPath : Str) (r : ConfigRequest) :
    Outcome lib configPath s r (putConfig lib configPath s r) := by
  unfold Config.putConfig
  split
  · next hpath => exact .rejected _ (.inl hpath)
  split
  · next htype => exact .rejected _ (.inr (.inl htype))
  next hpath htype =>
  cases hread : readJSON r.toRequest s.current.clone with
  | error reply => exact .rejected _ (.inr (.inr fun n hn => nomatch hread.symm.trans hn))
  | ok newConfig =>
    have hrejected : r.Rejected lib configPath s.current ↔
        validate lib newConfig ≠ none ∨ restartRequiredFields s.current newConfig ≠ [] := by
      simp [ConfigRequest.Rejected, hpath, htype, hread]
    cases hvalid : validate lib newConfig with
    | some e =>
      simp only [hvalid]
      exact .rejected _ (hrejected.2 (.inl (by simp [hvalid])))
    | none =>
      obtain ⟨runtime, hruntime⟩ := newRuntime_of_validate hvalid
      by_cases hfields : restartRequiredFields s.current newConfig = []
      · have hno : ¬ r.Rejected lib configPath s.current := by simp [hrejected, hvalid, hfields]
        have happly : applyConfig s newConfig = .ok { s with runtime, applied := newConfig } :=
          applyConfig_eq_ok.2 ⟨h.applied ▸ hfields, runtime, hruntime, rfl⟩
        simp only [hvalid, happly]
        split
        · rw [h.rollback hfields]
          exact .restored _ s.files hno rfl
        · split
          · next e files hsave =>
            rw [h.rollback hfields]
            exact .restored _ files hno (save_error hsave)
          · exact .saved newConfig runtime _ hvalid hruntime
      · have happly : applyConfig s newConfig = .error (.restartRequired (restartRequiredFields s.applied newConfig)) := by
          rw [applyConfig, if_pos (by rw [h.applied]; exact hfields)]
        simp only [hvalid, happly, configFailure]
        exact .rejected _ (hrejected.2 (.inr hfields))

theorem Settled.step (h : Settled lib s) (e : Event) (hstep : step lib configPath s e = some s') : Settled lib s' := by
  cases e with
  | putConfig r =>
    obtain rfl := Option.some.inj hstep
    have hout := h.putConfig configPath r
    generalize Config.putConfig lib configPath s r = result at hout
    cases hout with
    | rejected => exact h
    | restored reply files => exact ⟨h.applied, h.valid, h.newRuntime⟩
    | saved newConfig runtime files hvalid hruntime =>
      exact ⟨rfl, hvalid, by rw [← newRuntime_rateLimits hruntime]; exact hruntime⟩
  | putRateLimit r stored =>
    obtain rfl := Option.some.inj hstep
    unfold putRateLimit
    split
    · exact h
    · split
      · exact h
      · exact ⟨h.applied, h.valid, h.newRuntime⟩
  | edit files =>
    obtain rfl := Option.some.inj hstep
    exact ⟨h.applied, h.valid, h.newRuntime⟩

theorem settled_start {persisted : Option RateLimits} {files : Files} (h : start lib c persisted files = some s) :
    Settled lib s := by
  unfold start at h
  split at h
  · next runtime hvalid hruntime =>
    obtain rfl := Option.some.inj h
    exact ⟨rfl, hvalid, by rw [← newRuntime_rateLimits hruntime]; exact hruntime⟩
  · cases h

/-- A configuration change that is not answered with 200 leaves the runtime settings, the configuration and its file as they
were, in every state of the server, exactly when nothing was applied or the rate limits in force are those of the current
configuration. -/
theorem config_change_iff {persisted : Option RateLimits} {files : Files} {s₀ : Server} {es : List Event}
    (hstart : start lib c persisted files = some s₀) (hrun : run (step lib configPath) s₀ es = some s) (r : ConfigRequest)
    (hstatus : (putConfig lib configPath s r).1.status ≠ 200) :
    ((putConfig lib configPath s r).2.runtime = s.runtime ∧ (putConfig lib configPath s r).2.current = s.current ∧
      (putConfig lib configPath s r).2.files configPath = s.files configPath) ↔
    r.Rejected lib configPath s.current ∨ s.runtime.rateLimits = s.current.rateLimits := by
  have hs : Settled lib s := run_keeps (fun _ e _ h hstep => h.step e hstep) hrun (settled_start hstart)
  have hout := hs.putConfig configPath r
  generalize putConfig lib configPath s r = result at hout hstatus
  cases hout with
  | rejected reply hr => simp [hr]
  | restored reply files hr hfile =>
    simp only [hfile, hr, and_true, false_or]
    exact ⟨fun h => (congrArg Runtime.rateLimits h).symm, fun h => by rw [← h]⟩
  | saved => exact absurd rfl hstatus

namespace Sample

/-- No text is parsed that the default configuration does not have. -/
def parsers : Parsers := ⟨fun _ => none, fun _ => none⟩

def path : Str := "velora.yaml".toList

/-- The block mode is changed while the DNS listeners are not ready. -/
def request : ConfigRequest where
  contentType := json
  mediaType := some json
  body := .value (fun c => { c with filtering := { c.filtering with blockMode := "ZERO".toList } })
  ready := false
  saving := { marshal := fun _ => .ok [], createTemp := .ok "temp".toList }

/-- The server with the default configuration and the given rate limits. -/
def server (rateLimits : RateLimits) : Server where
  current := default
  applied := default
  runtime := { upstreamTTL := 86400, queryLogging := false, rateLimits
               allowed := ["127.0.0.0/8", "::1/128"].filterMap (fun p => parseNetipPrefix p.toList)
               maxConcurrent := 256, blockMode := [], backup := default }
  files := fun _ => none

theorem start_default (persisted : Option RateLimits) (h : ∀ l ∈ persisted, l.enabled = true) :
    start parsers default persisted (fun _ => none) = some (server (persisted.getD default.rateLimits)) := by
  have hvalid : validate parsers default = none := by decide +kernel
  have hruntime : newRuntime default = .ok (server default.rateLimits).runtime := by decide +kernel
  rw [start, hvalid, hruntime]
  cases persisted with
  | none => rfl
  | some l => simp [server, h l rfl]

end Sample

open Velora.Config.Sample in
/-- The limits were set by an administrator: the failed change puts those of the file in their place. -/
theorem config_change_resets :
    start parsers default (some ⟨true, 500, 50, 25⟩) (fun _ => none) = some (server ⟨true, 500, 50, 25⟩) ∧
    (putConfig parsers path (server ⟨true, 500, 50, 25⟩) request).1.status = 503 ∧
    (putConfig parsers path (server ⟨true, 500, 50, 25⟩) request).2.runtime.rateLimits = ⟨false, 1000, 100, 100⟩ := by
  exact ⟨start_default _ (by decide), by decide +kernel, by decide +kernel⟩

open Velora.Config.Sample in
/-- Without such limits everything is as it was. -/
theorem config_change_restores :
    (putConfig parsers path (server default.rateLimits) request).2.runtime = (server default.rateLimits).runtime :=
  have hrun : run (step parsers path) (server default.rateLimits) [] = some (server default.rateLimits) := rfl
  ((config_change_iff (start_default none (by decide)) hrun request (by decide +kernel)).2 (.inr rfl)).1

end Velora.Config
