import Velora.Lib.Text

/-!
# Management authentication

The model of `internal/api/auth.go` and `internal/database/auth.go`, with the authorisation part of the handler in
`internal/api/server.go`. The store holds the users and the API tokens; a token is found by its secret, of which the source
stores the hash. Passwords and sessions are left out: what is modelled is what a request may do and what it does to users and
tokens.
-/

namespace Velora.Api

open Velora.Lib Velora.Lib.Text

/-! ### The store -/

inductive Role where
  | admin | operator | viewer
  deriving DecidableEq

/-- `validRole`, with the role. -/
def Role.parse (s : Str) : Option Role :=
  if s = "admin".toList then some .admin
  else if s = "operator".toList then some .operator
  else if s = "viewer".toList then some .viewer
  else none

structure User where
  id : ℕ
  username : Str
  role : Role
  disabled : Bool := false
  deriving DecidableEq

structure APIToken where
  id : ℕ
  name : Str
  secret : ℕ
  scopes : Str
  expiresAt : ℤ
  createdBy : ℕ
  revoked : Bool := false
  deriving DecidableEq

structure Store where
  users : List User := []
  tokens : List APIToken := []
  /-- the ids that are given next -/
  nextUser : ℕ := 1
  nextToken : ℕ := 1
  deriving DecidableEq

/-- The length of a text in bytes. -/
def bytes (s : Str) : ℕ := (s.map Char.utf8Size).sum

/-- `validScopes`. -/
def validScopes (scopes : Str) : Bool :=
  scopes ≠ [] && (scopes.splitOn ',').all (fun scope => scope ∈ ["read".toList, "write".toList, "admin".toList])

/-- `hasScope`. -/
def hasScope (scopes wanted : Str) : Bool := (scopes.splitOn ',').any (fun scope => scope = wanted)

namespace Store

variable (s : Store)

/-- The user with an id who is not disabled. -/
def enabled (id : ℕ) : Option User := s.users.find? (fun u => u.id = id && !u.disabled)

/-- `CreateUser`, with the length of the password. -/
def createUser (username : Str) (password : ℕ) (role : Str) : Except String (User × Store) :=
  let username := trimSpaces username
  match Role.parse role with
  | none => .error "invalid user input"
  | some role =>
    if bytes username < 3 ∨ bytes username > 64 ∨ password < 12 then .error "invalid user input"
    -- the column does not distinguish upper and lower case
    else if s.users.any (fun u => u.username.map Char.toLower = username.map Char.toLower) then
      .error "UNIQUE constraint failed: users.username"
    else
      let user : User := { id := s.nextUser, username := username, role := role }
      .ok (user, { s with users := s.users ++ [user], nextUser := s.nextUser + 1 })

/-- `CreateAPIToken`. -/
def createAPIToken (now : ℤ) (userID : ℕ) (name scopes : Str) (raw : ℕ) (expires : ℤ) : Except String (APIToken × Store) :=
  let name := trimSpaces name
  let scopes := trimSpaces scopes
  if name = [] ∨ bytes name > 64 ∨ ¬ now < expires ∨ validScopes scopes = false then .error "invalid API token"
  else if s.tokens.any (fun t => t.secret = raw) then .error "UNIQUE constraint failed: api_tokens.token_hash"
  else
    let token : APIToken :=
      { id := s.nextToken, name := name, secret := raw, scopes := scopes, expiresAt := expires, createdBy := userID }
    .ok (token, { s with tokens := s.tokens ++ [token], nextToken := s.nextToken + 1 })

/-- `AuthenticateAPIToken`. -/
def authenticateAPIToken (now : ℤ) (raw : ℕ) : Option (User × APIToken) := do
  let token ← s.tokens.find? (fun t => t.secret = raw && !t.revoked)
  let user ← s.enabled token.createdBy
  if now < token.expiresAt then some (user, token) else none

/-- `RevokeAPIToken`. -/
def revokeAPIToken (id userID : ℕ) : Except String Store :=
  if s.tokens.any (fun t => t.id = id && t.createdBy = userID && !t.revoked) then
    .ok { s with tokens := s.tokens.map (fun t => if t.id = id ∧ t.createdBy = userID then { t with revoked := true } else t) }
  else .error "authentication failed"

/-- The statement that changes the user with an id who is not disabled; it fails when there is none. -/
def updateUser (id : ℕ) (f : User → User) : Except String Store :=
  if s.users.any (fun u => u.id = id && !u.disabled) then
    .ok { s with users := s.users.map (fun u => if u.id = id ∧ u.disabled = false then f u else u) }
  else .error "authentication failed"

/-- `DisableUser`, without the sessions it deletes. -/
def disableUser (id : ℕ) : Except String Store := s.updateUser id (fun u => { u with disabled := true })

/-- `UpdateUserRole`. -/
def updateUserRole (id : ℕ) (role : Str) : Except String Store :=
  match Role.parse role with
  | none => .error "invalid role"
  | some role => s.updateUser id (fun u => { u with role := role })

/-- `UpdateUserPassword`, with the length of the password; the password itself is not in the model. -/
def updateUserPassword (id password : ℕ) : Except String Store :=
  if password < 12 then .error "password must be at least 12 characters" else s.updateUser id (fun u => u)

end Store

/-! ### Authorisation -/

inductive Method where
  | get | head | options | post | put | delete | other
  deriving DecidableEq

/-- The method is none of those that change nothing. -/
def Method.changes : Method → Bool
  | .get | .head | .options => false
  | _ => true

/-- An answer: a status with the code and the message of a failure, and the secret when a token was created. -/
structure Reply where
  status : ℕ
  code : String := ""
  message : String := ""
  secret : Option ℕ := none
  deriving DecidableEq

/-- The dry run of a decision, which is a `POST` only because it has a body. -/
def explains (method : Method) (path : Str) : Bool := path = "/api/v1/diagnostics/explain".toList && method = .post

/-- The paths that only administrators may use. -/
def adminOnly (path : Str) : Bool :=
  "/api/v1/users".toList.isPrefixOf path || "/api/v1/webhooks".toList.isPrefixOf path ||
    path ∈ ["/api/v1/audit".toList, "/api/v1/stats/reset".toList, "/api/v1/backup/create".toList,
      "/api/v1/backup/inspect".toList, "/api/v1/backup/restore".toList]

/-- What the handler looks at besides the request: whether there is a cluster service and whether it keeps the zones
read-only. -/
structure Cluster where
  node : Bool := false
  zonesReadOnly : Bool := false

/-- The paths that need authentication. -/
def guarded (c : Cluster) (path : Str) : Bool :=
  ("/api/".toList.isPrefixOf path || path = "/metrics".toList) && path ≠ "/api/v1/auth/login".toList &&
    !(c.node && "/api/v1/cluster/peer/".toList.isPrefixOf path)

/-- The mark of an event as read. -/
def marksRead (method : Method) (path : Str) : Bool :=
  "/api/v1/events/".toList.isPrefixOf path && "/read".toList.isSuffixOf path && method = .post

/-- The request came without a token, or with one that has a scope. -/
def grants (scopes : Option Str) (wanted : Str) : Bool := scopes.all (fun scopes => hasScope scopes wanted)

/-- The user is an administrator, and so is the token. -/
def isAdmin (role : Role) (scopes : Option Str) : Bool := role = .admin && grants scopes "admin".toList

/-- The authorisation of a request: the failure it is answered with, if any. `scopes` are those of the token, if the request
came with one; the check against forged requests, which is made without a token only, is left out. -/
def authorize (c : Cluster) (role : Role) (scopes : Option Str) (method : Method) (path : Str) : Option Reply :=
  if !guarded c path then none
  else if adminOnly path && !isAdmin role scopes then some ⟨403, "insufficient_role", "Admin role required", none⟩
  else if method.changes && "/api/v1/cluster/".toList.isPrefixOf path && !isAdmin role scopes then
    some ⟨403, "insufficient_role", "Admin role required", none⟩
  else if method.changes && "/api/v1/zones".toList.isPrefixOf path && c.node && c.zonesReadOnly then
    some ⟨409, "zones_managed_by_primary", "This node is a cluster replica; change zones on the primary", none⟩
  else if method.changes && !explains method path &&
      ((!marksRead method path && role = .viewer) || (!grants scopes "write".toList && !grants scopes "admin".toList)) then
    some ⟨403, "insufficient_role", "Viewer role is read-only", none⟩
  else none

/-- What is authorised. -/
theorem authorize_eq_none {c : Cluster} {role : Role} {scopes : Option Str} {method : Method} {path : Str} :
    authorize c role scopes method path = none ↔ (guarded c path = true →
      (adminOnly path = true → isAdmin role scopes = true) ∧
      (method.changes = true → "/api/v1/cluster/".toList.isPrefixOf path = true → isAdmin role scopes = true) ∧
      ¬ (method.changes = true ∧ "/api/v1/zones".toList.isPrefixOf path = true ∧ c.node = true ∧ c.zonesReadOnly = true) ∧
      (method.changes = true → explains method path = false →
        (marksRead method path = true ∨ role ≠ .viewer) ∧
          (grants scopes "write".toList = true ∨ grants scopes "admin".toList = true))) := by
  unfold authorize
  cases guarded c path with
  | false => simp
  | true =>
    cases adminOnly path <;> cases isAdmin role scopes <;> cases method.changes <;>
      cases "/api/v1/cluster/".toList.isPrefixOf path <;> cases "/api/v1/zones".toList.isPrefixOf path <;>
      simp <;> grind

/-! ### Requests -/

/-- The body of a request to create a token. -/
structure TokenInput where
  name : Str
  scopes : List Str
  expiresInHours : ℤ
  deriving DecidableEq

/-- The routes that change users or tokens, with their arguments, and the other ones. A body that cannot be read has been
answered for already. -/
inductive Route where
  | createToken (input : TokenInput)
  | revokeToken (id : ℕ)
  | createUser (username : Str) (password : ℕ) (role : Str)
  | disableUser (id : ℕ)
  | updatePassword (id password : ℕ)
  | updateRole (id : ℕ) (role : Str)
  | other (method : Method) (path : Str)
  deriving DecidableEq

def Route.method : Route → Method
  | .createToken _ => .post
  | .revokeToken _ => .delete
  | .createUser _ _ _ => .post
  | .disableUser _ => .delete
  | .updatePassword _ _ => .put
  | .updateRole _ _ => .put
  | .other method _ => method

/-- The digits of an id. -/
def idText (id : ℕ) : Str := (Nat.toDigits 10 id)

def Route.path : Route → Str
  | .createToken _ => "/api/v1/tokens".toList
  | .revokeToken id => "/api/v1/tokens/".toList ++ idText id
  | .createUser _ _ _ => "/api/v1/users".toList
  | .disableUser id => "/api/v1/users/".toList ++ idText id
  | .updatePassword id _ => "/api/v1/users/".toList ++ idText id ++ "/password".toList
  | .updateRole id _ => "/api/v1/users/".toList ++ idText id ++ "/role".toList
  | .other _ path => path

/-- What is decided outside: the time in seconds, the secret that is drawn, and whether the event can be recorded, there is a
free slot and the random source works. -/
structure Choice where
  now : ℤ
  raw : ℕ
  audit : Bool := true
  slot : Bool := true
  random : Bool := true

/-- The handlers, for a caller who is authorised. -/
def handle (s : Store) (x : Choice) (caller : User) : Route → Reply × Store
  | .createToken input =>
    if input.expiresInHours < 1 ∨ input.expiresInHours > 24 * 365 then
      (⟨400, "invalid_token", "Expiration must be 1–8760 hours", none⟩, s)
    else if !x.random then (⟨503, "token_unavailable", "Token could not be created", none⟩, s)
    else
      match s.createAPIToken x.now caller.id input.name (List.intercalate [','] input.scopes) x.raw
        (x.now + input.expiresInHours * 3600) with
      | .error _ => (⟨400, "invalid_token", "Token name, scopes or expiration is invalid", none⟩, s)
      | .ok (token, s') => (⟨201, "", "", some token.secret⟩, s')
  | .revokeToken id =>
    if id < 1 then (⟨400, "invalid_id", "Token ID must be positive", none⟩, s)
    else
      match s.revokeAPIToken id caller.id with
      | .error _ => (⟨404, "not_found", "Token not found", none⟩, s)
      | .ok s' => (⟨200, "", "", none⟩, s')
  | .createUser username password role =>
    match s.createUser username password role with
    | .error _ => (⟨400, "invalid_user", "Username, password or role is invalid or already exists", none⟩, s)
    | .ok (_, s') => (⟨201, "", "", none⟩, s')
  | .disableUser id =>
    if id < 1 then (⟨400, "invalid_id", "Invalid user ID", none⟩, s)
    else if caller.id = id then (⟨400, "cannot_disable_self", "Cannot disable your own account", none⟩, s)
    else
      match s.disableUser id with
      | .error _ => (⟨404, "not_found", "User not found", none⟩, s)
      | .ok s' => (⟨200, "", "", none⟩, s')
  | .updatePassword id password =>
    if id < 1 then (⟨400, "invalid_id", "Invalid user ID", none⟩, s)
    else
      match s.updateUserPassword id password with
      | .error _ =>
        (⟨400, "invalid_password", "Password must be at least 12 characters or user not found", none⟩, s)
      | .ok s' => (⟨200, "", "", none⟩, s')
  | .updateRole id role =>
    if id < 1 then (⟨400, "invalid_id", "Invalid user ID", none⟩, s)
    else if caller.id = id then (⟨400, "cannot_change_own_role", "Cannot change your own role", none⟩, s)
    else
      match s.updateUserRole id role with
      | .error _ => (⟨400, "invalid_role", "Role must be admin, operator, or viewer", none⟩, s)
      | .ok s' => (⟨200, "", "", none⟩, s')
  | .other _ _ => (⟨200, "", "", none⟩, s)

/-- A request with a token. -/
structure Request where
  secret : ℕ
  route : Route
  deriving DecidableEq

/-- The request is authenticated by its token and authorised. -/
def authorised (c : Cluster) (s : Store) (now : ℤ) (r : Request) : Option User := do
  let (user, token) ← s.authenticateAPIToken now r.secret
  if authorize c user.role (some token.scopes) r.route.method r.route.path = none then some user else none

/-- A request with a token, from its authentication on. -/
def serve (c : Cluster) (s : Store) (x : Choice) (r : Request) : Reply × Store :=
  match s.authenticateAPIToken x.now r.secret with
  | none => (⟨401, "authentication_required", "Sign in to access management", none⟩, s)
  | some (user, token) =>
    match authorize c user.role (some token.scopes) r.route.method r.route.path with
    | some failure => (failure, s)
    | none =>
      if r.route.method.changes && !explains r.route.method r.route.path && !x.audit then
        (⟨503, "audit_unavailable", "Audit event could not be recorded", none⟩, s)
      else if !x.slot then (⟨429, "busy", "Too many requests", none⟩, s)
      else handle s x user r.route

end Velora.Api
