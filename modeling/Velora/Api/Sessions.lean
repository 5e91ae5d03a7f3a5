import Velora.Api.Auth
import Velora.Lib.Trace

/-!
# Sessions

The way of a request through the handler of `internal/api/server.go`: it is authenticated by a token or by the cookie of a
session, authorised, checked against forgery, written into the audit log and given one of the slots; then the routes of
`internal/api/auth.go` work on the tables of `internal/database/auth.go` and `internal/database/audit.go`, one statement at a
time. Any number of requests run beside each other.

The texts of cookies and headers are modelled by the bytes they decode to.
-/

namespace Velora.Api.Sessions

open Velora.Lib Velora.Lib.Text

abbrev Bytes := List UInt8

/-- What `rand.Read` fills an array of 32 bytes with. -/
abbrev Secret := { l : Bytes // l.length = 32 }

/-- SHA-256, and `GenerateFromPassword` (of a password and a salt) and `CompareHashAndPassword` of bcrypt. -/
structure Crypto where
  sha256 : Bytes → Bytes
  generate : Str → Bytes → Option Bytes
  compare : Bytes → Str → Bool

/-! ### Tables -/

/-- A row of `sessions`. -/
structure Session where
  tokenHash : Bytes
  userID : ℕ
  csrfToken : Bytes
  expiresAt : ℤ
  deriving DecidableEq

inductive Action where
  | login | loginFailed
  | request (method : Method)
  deriving DecidableEq

inductive Result where
  | pending | success | failure
  deriving DecidableEq

/-- A row of `audit_events`. -/
structure AuditEvent where
  id : ℕ
  occurredAt : ℤ
  userID : Option ℕ
  role : Option Role := none
  action : Action
  target : Str
  result : Result
  statusCode : ℕ := 0
  deriving DecidableEq

/-- What a login gives: the session of a user, with the token against forged requests, from a time on. -/
structure Grant where
  user : ℕ
  csrf : Bytes
  start : ℤ
  deriving DecidableEq

/-- Twelve hours, in seconds. -/
def lifetime : ℤ := 12 * 3600

/-- What has happened, to follow the runs by. -/
inductive What where
  /-- a hash of a password was stored for a user -/
  | hashed (id : ℕ) (hash : Bytes)
  /-- a password was compared with the hash of a user and is right -/
  | checked (user : User) (hash : Bytes)
  | login (tokenHash : Bytes) (grant : Grant)
  | logout (tokenHash : Bytes)
  /-- the request came with the token of a session, or with an API token -/
  | accepted (tokenHash : Bytes) (user : User) (csrf : Bytes) (now : ℤ)
  | acceptedToken (user : User) (scopes : Str)
  | pruned (now : ℤ)
  | began (id : ℕ) (user : User) (method : Method) (path : Str) (time : ℤ)
  /-- the request has a slot -/
  | entered
  /-- a statement on users or tokens was made; a user was disabled by it -/
  | managed
  | disabled (id : ℕ)
  | completed (id : ℕ) (status : ℕ)
  deriving DecidableEq

abbrev Event := Lib.Deed What

structure State where
  store : Store := {}
  /-- the column `password_hash` of the users -/
  passwords : ℕ → Bytes := fun _ => []
  sessions : List Session := []
  audit : List AuditEvent := []
  nextAudit : ℕ := 1
  /-- the slots that are taken -/
  busy : ℕ := 0
  /-- history, the last event first -/
  history : List Event := []

namespace State

variable (c : Crypto) (s : State)

/-- `Authenticate`; the column of the names does not distinguish upper and lower case. -/
def authenticate (username password : Str) : Option User :=
  (s.store.users.find? (fun u => u.username.map Char.toLower = (trimSpaces username).map Char.toLower)).filter
    (fun u => c.compare (s.passwords u.id) password && !u.disabled)

/-- `CreateSession`. -/
def createSession (user : User) (token csrf : Bytes) (now : ℤ) : Option State :=
  if s.sessions.any (fun r => r.tokenHash = c.sha256 token) then none
  else some { s with sessions := s.sessions ++ [⟨c.sha256 token, user.id, csrf, now + lifetime⟩] }

/-- `Session`. -/
def session (now : ℤ) (token : Bytes) : Option (User × Bytes) := do
  let row ← s.sessions.find? (fun r => r.tokenHash = c.sha256 token)
  let user ← s.store.enabled row.userID
  if now < row.expiresAt then some (user, row.csrfToken) else none

/-- `RevokeSession`. -/
def revokeSession (token : Bytes) : State := { s with sessions := s.sessions.filter (fun r => r.tokenHash ≠ c.sha256 token) }

/-- The second statement of `DisableUser`. -/
def deleteSessions (id : ℕ) : State := { s with sessions := s.sessions.filter (fun r => r.userID ≠ id) }

/-- Ninety days, in seconds. -/
def retention : ℤ := 90 * 24 * 3600

/-- `pruneAudit`. -/
def pruneAudit (now : ℤ) : State := { s with audit := s.audit.filter (fun e => now - retention ≤ e.occurredAt) }

/-- The insertion of a row into the audit log; the database numbers it. -/
def insertAudit (time : ℤ) (userID : Option ℕ) (role : Option Role) (action : Action) (target : Str) (result : Result) : State :=
  { s with audit := s.audit ++ [⟨s.nextAudit, time, userID, role, action, target, result, 0⟩], nextAudit := s.nextAudit + 1 }

/-- `CompleteAudit`. -/
def completeAudit (id status : ℕ) : State :=
  let result := if 200 ≤ status ∧ status < 400 then Result.success else .failure
  { s with audit := s.audit.map (fun e => if e.id = id then { e with result := result, statusCode := status } else e) }

/-- `CreateUser`, with the hash of the password. -/
def createUser (username password role : Str) (hash : Option Bytes) : Except String (User × State) :=
  match hash with
  | none => .error "bcrypt: password length exceeds 72 bytes"
  | some hash =>
    match s.store.createUser username (bytes password) role with
    | .error e => .error e
    | .ok (user, store) => .ok (user, { s with store := store, passwords := Function.update s.passwords user.id hash })

/-- `UpdateUserPassword`, with the hash of the password. -/
def updateUserPassword (id : ℕ) (password : Str) (hash : Option Bytes) : Except String State :=
  match hash with
  | none => .error "bcrypt: password length exceeds 72 bytes"
  | some hash =>
    match s.store.updateUserPassword id (bytes password) with
    | .error e => .error e
    | .ok store => .ok { s with store := store, passwords := Function.update s.passwords id hash }

def tell (i : ℕ) (whats : List What) : State := { s with history := whats.map (fun w => ⟨i, w⟩) ++ s.history }

end State

/-! ### Requests -/

inductive Task where
  | login (username password : Str)
  | logout
  | createToken (input : TokenInput)
  | revokeToken (id : ℕ)
  | createUser (username password role : Str)
  | disableUser (id : ℕ)
  | updatePassword (id : ℕ) (password : Str)
  | updateRole (id : ℕ) (role : Str)
  | other (method : Method) (path : Str)
  deriving DecidableEq

/-- The route, which has the length of a password only. -/
def Task.route : Task → Route
  | .login _ _ => .other .post "/api/v1/auth/login".toList
  | .logout => .other .post "/api/v1/auth/logout".toList
  | .createToken input => .createToken input
  | .revokeToken id => .revokeToken id
  | .createUser username password role => .createUser username (bytes password) role
  | .disableUser id => .disableUser id
  | .updatePassword id password => .updatePassword id (bytes password)
  | .updateRole id role => .updateRole id role
  | .other method path => .other method path

/-- A cookie: the bytes of its value up to the first that cannot be decoded, and whether there is none. -/
structure Cookie where
  bytes : Bytes
  valid : Bool
  deriving DecidableEq

structure Request where
  /-- what follows `Bearer velora_` in the header, if it starts so; and if that are 32 bytes -/
  bearer : Option (Option ℕ) := none
  cookie : Option Cookie := none
  /-- `X-CSRF-Token`, if it can be decoded -/
  csrf : Option Bytes := none
  cluster : Cluster := {}
  task : Task

/-- The user whom the task disables. -/
def Task.disables : Task → Option ℕ
  | .disableUser id => some id
  | _ => none

def Request.method (r : Request) : Method := r.task.route.method
def Request.path (r : Request) : Str := r.task.route.path

/-- The request changes something and is not the dry run. -/
def Request.recorded (r : Request) : Bool := r.method.changes && !explains r.method r.path

inductive Credential where
  | session (csrf : Bytes)
  | token (scopes : Str)
  deriving DecidableEq

structure Caller where
  user : User
  credential : Credential
  deriving DecidableEq

def Caller.scopes (w : Caller) : Option Str :=
  match w.credential with
  | .session _ => none
  | .token scopes => some scopes

/-- A request that changes something needs the token of its session. -/
def Caller.forged (w : Caller) (r : Request) : Bool :=
  match w.credential with
  | .session csrf => r.method.changes && r.csrf ≠ some csrf
  | .token _ => false

/-! ### Statements -/

inductive Op where
  | authenticateAPIToken (raw : ℕ)
  | session (token : Bytes)
  | beginAudit (user : User) (method : Method) (path : Str)
  | enter
  | authenticate (username password : Str)
  | createSession (user : User)
  | audit (userID : Option ℕ) (action : Action)
  | revokeSession (token : Bytes)
  | manage (caller : User) (task : Task)
  | deleteSessions (id : ℕ)
  | leave
  | completeAudit (id status : ℕ)
  | bootstrap (username password : Str)

abbrev Ans : Op → Type
  | .authenticateAPIToken _ => Option (User × APIToken)
  | .session _ => Option (User × Bytes)
  | .beginAudit _ _ _ => Option ℕ
  | .enter => Bool
  | .authenticate _ _ => Option User
  | .createSession _ => Option (Secret × Secret)
  | .audit _ _ => Unit
  | .revokeSession _ => Unit
  | .manage _ _ => Reply
  | .deleteSessions _ => Unit
  | .leave => Unit
  | .completeAudit _ _ => Unit
  | .bootstrap _ _ => Unit

/-- The answer to a request; that to a login has the token of the session, for the cookie, and the one against forgery. -/
abbrev Answer := Reply × Option (Secret × Secret)

abbrev Script := Prog Op Ans

/-- `authenticate` of `internal/api/auth.go`. -/
def authenticate (r : Request) : Script (Option Caller) :=
  match r.bearer with
  | some none => return none
  | some (some raw) => do
    let found : Option (User × APIToken) ← Prog.ask (Op.authenticateAPIToken raw)
    return found.map (fun f => ⟨f.1, .token f.2.scopes⟩)
  | none =>
    match r.cookie with
    | some ⟨token, true⟩ =>
      if token.length = 32 then do
        let found : Option (User × Bytes) ← Prog.ask (Op.session token)
        return found.map (fun f => ⟨f.1, .session f.2⟩)
      else return none
    | _ => return none

/-- The routes of users and tokens, and what only reads or is served outside of this model: one statement, and a second one
when a user was disabled. -/
def management (caller : User) (task : Task) : Script Answer := do
  let reply : Reply ← Prog.ask (Op.manage caller task)
  match task.disables.filter (fun _ => reply.status = 200) with
  | none => return (reply, none)
  | some id => do
    let _ : Unit ← Prog.ask (Op.deleteSessions id)
    return (reply, none)

/-- The routes. Without a caller only what needs none is served. -/
def handler (r : Request) (caller : Option Caller) : Script Answer :=
  match r.task with
  | .login username password => do
    let user : Option User ← Prog.ask (Op.authenticate username password)
    match user with
    | none => do
      let _ : Unit ← Prog.ask (Op.audit none .loginFailed)
      return (⟨401, "invalid_credentials", "Invalid username or password", none⟩, none)
    | some user => do
      let created : Option (Secret × Secret) ← Prog.ask (Op.createSession user)
      match created with
      | none => return (⟨503, "session_unavailable", "Session could not be created", none⟩, none)
      | some tokens => do
        let _ : Unit ← Prog.ask (Op.audit (some user.id) .login)
        return (⟨200, "", "", none⟩, some tokens)
  | .logout =>
    match r.cookie with
    | none => return (⟨400, "session_required", "Logout requires a browser session", none⟩, none)
    | some cookie => do
      let _ : Unit ← Prog.ask (Op.revokeSession cookie.bytes)
      return (⟨200, "", "", none⟩, none)
  | task =>
    match caller with
    | none => return (⟨200, "", "", none⟩, none)
    | some caller => management caller.user task

/-- The handler behind its 32 slots. -/
def limited (r : Request) (caller : Option Caller) : Script Answer := do
  let free : Bool ← Prog.ask Op.enter
  if free then do
    let answer ← handler r caller
    let _ : Unit ← Prog.ask Op.leave
    return answer
  else return (⟨429, "busy", "Too many requests", none⟩, none)

/-- A request, from its authentication on. -/
def Request.body (r : Request) : Script Answer :=
  if guarded r.cluster r.path then do
    let caller ← authenticate r
    match caller with
    | none => return (⟨401, "authentication_required", "Sign in to access management", none⟩, none)
    | some caller =>
      match authorize r.cluster caller.user.role caller.scopes r.method r.path with
      | some failure => return (failure, none)
      | none =>
        if caller.forged r then return (⟨403, "invalid_csrf", "Valid CSRF token required", none⟩, none)
        else if r.recorded then do
          let id : Option ℕ ← Prog.ask (Op.beginAudit caller.user r.method r.path)
          match id with
          | none => return (⟨503, "audit_unavailable", "Audit event could not be recorded", none⟩, none)
          | some id => do
            let answer ← limited r (some caller)
            let _ : Unit ← Prog.ask (Op.completeAudit id answer.1.status)
            return answer
        else limited r (some caller)
  else limited r none

/-- A request, or the start of the program, which creates the first user. -/
inductive Call where
  | request (r : Request)
  | start (username password : Str)

def Call.body : Call → Script Answer
  | .request r => r.body
  | .start username password => do
    let _ : Unit ← Prog.ask (Op.bootstrap username password)
    return (⟨200, "", "", none⟩, none)

/-! ### What they do -/

/-- What the outside decides at a statement: the time, also that of the database, whether the statement fails, or the second
one, and what is drawn. -/
structure Outside where
  now : ℤ
  time : ℤ
  fails : Bool := false
  failsNext : Bool := false
  salt : Bytes := []
  raw : ℕ := 0
  drawn : Option (Secret × Secret) := none

/-- A statement on users and tokens, with the answer of its route. When it fails nothing has changed; those answers are left
out, but for the hash of a password. -/
def State.manage (c : Crypto) (s : State) (i : ℕ) (x : Outside) (caller : User) : Task → Reply × State
  | .createUser username password role =>
    match s.createUser username password role (c.generate password x.salt) with
    | .error _ => (⟨400, "invalid_user", "Username, password or role is invalid or already exists", none⟩, s)
    | .ok (user, s') => (⟨201, "", "", none⟩, s'.tell i [.hashed user.id (s'.passwords user.id), .managed])
  | .updatePassword id password =>
    if id < 1 then (⟨400, "invalid_id", "Invalid user ID", none⟩, s)
    else
      match s.updateUserPassword id password (c.generate password x.salt) with
      | .error _ => (⟨400, "invalid_password", "Password must be at least 12 characters or user not found", none⟩, s)
      | .ok s' => (⟨200, "", "", none⟩, s'.tell i [.hashed id (s'.passwords id), .managed])
  | task =>
    let r := handle s.store { now := x.now, raw := x.raw } caller task.route
    let disabled := task.disables.filter (fun _ => r.1.status = 200)
    (r.1, { s with store := r.2 }.tell i (disabled.toList.map What.disabled ++ [What.managed]))

def act (c : Crypto) (i : ℕ) : (op : Op) → Outside → State → Option (Ans op × State)
  | .authenticateAPIToken raw, x, s =>
    let found := if x.fails then none else s.store.authenticateAPIToken x.now raw
    some (found, s.tell i (found.toList.map (fun f => .acceptedToken f.1 f.2.scopes)))
  | .session token, x, s =>
    let found := if x.fails then none else s.session c x.now token
    some (found, s.tell i (found.toList.map (fun f => .accepted (c.sha256 token) f.1 f.2 x.now)))
  | .beginAudit user method path, x, s =>
    if x.fails then some (none, s)
    else
      let s := (s.pruneAudit x.now).tell i [.pruned x.now]
      if x.failsNext then some (none, s)
      else some (some s.nextAudit, (s.insertAudit x.time (some user.id) (some user.role) (.request method) path .pending).tell i
        [.began s.nextAudit user method path x.time])
  | .enter, _, s => if s.busy < 32 then some (true, { s with busy := s.busy + 1 }.tell i [.entered]) else some (false, s)
  | .authenticate username password, x, s =>
    let found := if x.fails then none else s.authenticate c username password
    some (found, s.tell i (found.toList.map (fun u => .checked u (s.passwords u.id))))
  | .createSession user, x, s =>
    match x.drawn with
    | none => some (none, s)
    | some (token, csrf) =>
      match if x.fails then none else s.createSession c user token csrf x.now with
      | none => some (none, s)
      | some s' => some (some (token, csrf), s'.tell i [.login (c.sha256 token) ⟨user.id, csrf, x.now⟩])
  | .audit userID action, x, s =>
    if x.fails then some ((), s)
    else
      let s := (s.pruneAudit x.now).tell i [.pruned x.now]
      if x.failsNext then some ((), s)
      else some ((), s.insertAudit x.time userID none action "authentication".toList
        (if action = .login then .success else .failure))
  | .revokeSession token, x, s =>
    if x.fails then some ((), s) else some ((), (s.revokeSession c token).tell i [.logout (c.sha256 token)])
  | .manage caller task, x, s => some (s.manage c i x caller task)
  | .deleteSessions id, x, s => if x.fails then some ((), s) else some ((), s.deleteSessions id)
  | .leave, _, s => some ((), { s with busy := s.busy - 1 })
  | .completeAudit id status, x, s =>
    if x.fails then some ((), s) else some ((), (s.completeAudit id status).tell i [.completed id status])
  | .bootstrap username password, x, s =>
    if s.store.users = [] then
      match s.createUser username password "admin".toList (c.generate password x.salt) with
      | .error _ => some ((), s)
      | .ok (user, s') => some ((), s'.tell i [.hashed user.id (s'.passwords user.id)])
    else some ((), s)

abbrev Requests := Pool State Call Op Ans Answer

abbrev Requests.Turn := Lib.Turn Call Outside

def Requests.step (c : Crypto) : Requests → Requests.Turn → Option Requests := Pool.step Call.body (act c)

end Velora.Api.Sessions
