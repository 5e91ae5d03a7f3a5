import Velora.Api.Auth
import Velora.Lib.Prog

/-!
# Scopes of API tokens

A client that has one token of a user, and those it creates with its tokens. What the tokens it has may do is compared with
what the first one may do. The route that creates a token asks for the scope `write` and gives the new token any scopes, and
the scope `admin` counts for administrators only: a client gains something exactly when its user is an administrator and its
token has `write` and not `admin` (`scopes_escalate_iff`).
-/

namespace Velora.Api

open Velora.Lib Velora.Lib.Text

/-! ### The client -/

/-- The store and the secrets that the client has. -/
structure Client where
  store : Store
  held : List ℕ

/-- A request of the client, with one of its tokens. When a token is created the client gets its secret. -/
def Client.step (w : Client) (e : Cluster × Choice × Request) : Option Client :=
  if e.2.2.secret ∈ w.held then
    let (reply, store) := serve e.1 w.store e.2.1 e.2.2
    some { store := store, held := reply.secret.toList ++ w.held }
  else none

/-- The scopes do not let the user do more than those of the first token. -/
def Within (c : Cluster) (role : Role) (scopes first : Str) (method : Method) (path : Str) : Prop :=
  authorize c role (some scopes) method path = none → authorize c role (some first) method path = none

/-! ### What scopes allow -/

section

variable {c : Cluster} {role : Role} {scopes first : Str} {method : Method} {path : Str}

/-- With the scope `admin` a token may do all that its user may do with any other. -/
theorem within_admin (h : hasScope first "admin".toList = true) : Within c role scopes first method path := by
  intro hauth
  rw [authorize_eq_none] at hauth ⊢
  intro hguarded
  obtain ⟨hadmin, hcluster, hzones, hwrite⟩ := hauth hguarded
  have hgrants : grants (some first) "admin".toList = true := h
  have hup : isAdmin role (some scopes) = true → isAdmin role (some first) = true := by
    intro hup
    simp only [isAdmin, Bool.and_eq_true] at hup ⊢
    exact ⟨hup.1, hgrants⟩
  exact ⟨fun ha => hup (hadmin ha), fun hm hc => hup (hcluster hm hc), hzones,
    fun hm he => ⟨(hwrite hm he).1, Or.inr hgrants⟩⟩

/-- The scopes of a user who is not an administrator make no difference but that of `write`. -/
theorem within_write (hrole : role ≠ .admin) (h : hasScope first "write".toList = true) :
    Within c role scopes first method path := by
  intro hauth
  rw [authorize_eq_none] at hauth ⊢
  intro hguarded
  obtain ⟨hadmin, hcluster, hzones, hwrite⟩ := hauth hguarded
  have hno : isAdmin role (some scopes) = false := by simp [isAdmin, hrole]
  rw [hno] at hadmin hcluster
  exact ⟨fun ha => absurd (hadmin ha) (by simp), fun hm hc => absurd (hcluster hm hc) (by simp), hzones,
    fun hm he => ⟨(hwrite hm he).1, Or.inl h⟩⟩

/-- What is asked of the routes of the tokens and of the users. -/
theorem routes_table :
    (∀ node readOnly, guarded ⟨node, readOnly⟩ "/api/v1/tokens".toList = true ∧
      guarded ⟨node, readOnly⟩ "/api/v1/users".toList = true) ∧
    explains .post "/api/v1/tokens".toList = false ∧
    (adminOnly "/api/v1/tokens".toList = false ∧ "/api/v1/cluster/".toList.isPrefixOf "/api/v1/tokens".toList = false) ∧
    adminOnly "/api/v1/users".toList = true ∧
    authorize {} .admin (some "admin".toList) .get "/api/v1/users".toList = none := by
  decide +kernel

theorem guarded_tokens (c : Cluster) : guarded c "/api/v1/tokens".toList = true :=
  (routes_table.1 c.node c.zonesReadOnly).1

theorem guarded_users (c : Cluster) : guarded c "/api/v1/users".toList = true := (routes_table.1 c.node c.zonesReadOnly).2

/-- Without `write` and `admin` no token is created. -/
theorem createToken_refused {input : TokenInput} (hw : hasScope first "write".toList = false)
    (ha : hasScope first "admin".toList = false) :
    authorize c role (some first) (Route.createToken input).method (Route.createToken input).path ≠ none := by
  intro hauth
  have hno : explains .post "/api/v1/tokens".toList = false := routes_table.2.1
  obtain ⟨-, -, -, hwrite⟩ := authorize_eq_none.1 hauth (guarded_tokens c)
  obtain ⟨-, h | h⟩ := hwrite rfl hno
  · exact Bool.false_ne_true (hw.symm.trans h)
  · exact Bool.false_ne_true (ha.symm.trans h)

end

/-! ### What the routes do -/

section

variable {s s' : Store} {user u : User} {token : APIToken} {now : ℤ} {raw : ℕ}

theorem authenticate_eq_some (h : s.authenticateAPIToken now raw = some (u, token)) :
    token ∈ s.tokens ∧ token.secret = raw ∧ s.enabled token.createdBy = some u := by
  simp only [Store.authenticateAPIToken, bind, Option.bind_eq_some_iff] at h
  obtain ⟨t, ht, v, hv, hif⟩ := h
  split at hif
  · rw [Option.some.injEq, Prod.mk.injEq] at hif
    obtain ⟨rfl, rfl⟩ := hif
    have hsecret := List.find?_some ht
    simp only [Bool.and_eq_true, decide_eq_true_eq] at hsecret
    exact ⟨List.mem_of_find?_eq_some ht, hsecret.1, hv⟩
  · cases hif

/-- A change of another user does not touch this one. -/
theorem enabled_updateUser {id : ℕ} {f : User → User} (hs : s.updateUser id f = .ok s') (hf : ∀ v, (f v).id = v.id)
    (hid : user.id ≠ id ∨ f = fun v => v) (h : s.enabled user.id = some user) : s'.enabled user.id = some user := by
  unfold Store.updateUser at hs
  split at hs
  · cases hs
    rw [Store.enabled, List.find?_map]
    rcases hid with hid | rfl
    · have hsame : (s.users.find? ((fun v => v.id = user.id && !v.disabled) ∘
          fun v => if v.id = id ∧ v.disabled = false then f v else v)) = some user := by
        rw [← h]
        refine List.find?_congr fun v _ => ?_
        simp only [Function.comp]
        split
        · rename_i hv
          rw [hf v, hv.1]
          simp [Ne.symm hid]
        · rfl
      rw [hsame, Option.map_some]
      have hne : ¬ (user.id = id ∧ user.disabled = false) := fun hv => hid hv.1
      rw [if_neg hne]
    · simpa [Store.enabled, Function.comp_def] using h
  · cases hs

theorem enabled_createUser {username role : Str} {password : ℕ} {v : User}
    (hs : s.createUser username password role = .ok (v, s')) (h : s.enabled user.id = some user) :
    s'.tokens = s.tokens ∧ s'.enabled user.id = some user := by
  unfold Store.createUser at hs
  split at hs
  · cases hs
  · dsimp only at hs
    split at hs
    · cases hs
    · split at hs
      · cases hs
      · cases hs
        refine ⟨rfl, ?_⟩
        rw [Store.enabled] at h ⊢
        rw [List.find?_append, h, Option.some_or]

theorem updateUser_tokens {id : ℕ} {f : User → User} (hs : s.updateUser id f = .ok s') : s'.tokens = s.tokens := by
  unfold Store.updateUser at hs
  split at hs <;> cases hs
  rfl

/-- What a new token is: it has the secret that was drawn, which no other has, and belongs to the caller. -/
theorem createAPIToken_eq_ok {userID : ℕ} {name scopes : Str} {expires : ℤ}
    (hs : s.createAPIToken now userID name scopes raw expires = .ok (token, s')) :
    token.secret = raw ∧ token.createdBy = userID ∧ s'.tokens = s.tokens ++ [token] ∧ s'.users = s.users ∧
      ∀ t ∈ s.tokens, t.secret ≠ raw := by
  unfold Store.createAPIToken at hs
  dsimp only at hs
  split at hs
  · cases hs
  · split at hs
    · cases hs
    · rename_i hfresh
      cases hs
      refine ⟨rfl, rfl, rfl, rfl, fun t ht heq => hfresh ?_⟩
      exact List.any_eq_true.2 ⟨t, ht, by simpa using heq⟩

/-! ### Every run -/

/-- A token with these scopes can create tokens. -/
def mints (scopes : Str) : Bool := hasScope scopes "write".toList || hasScope scopes "admin".toList

/-- What holds in every run of a client that started with the scopes `first`: its user is as at the start, and its tokens are
the user's, with other scopes only if tokens can be created at all. -/
structure Client.Inv (user : User) (first : Str) (w : Client) : Prop where
  row : w.store.enabled user.id = some user
  tokens : ∀ t ∈ w.store.tokens, t.secret ∈ w.held → t.createdBy = user.id ∧ (t.scopes = first ∨ mints first = true)

variable {first : Str} {w w' : Client}

/-- A request of the client is one of its user. -/
theorem Client.Inv.caller (h : w.Inv user first) (hraw : raw ∈ w.held)
    (hauth : w.store.authenticateAPIToken now raw = some (u, token)) :
    u = user ∧ (token.scopes = first ∨ mints first = true) := by
  obtain ⟨hmem, hsecret, henabled⟩ := authenticate_eq_some hauth
  obtain ⟨hby, hscopes⟩ := h.tokens token hmem (hsecret ▸ hraw)
  rw [hby, h.row, Option.some.injEq] at henabled
  exact ⟨henabled.symm, hscopes⟩

/-- Changes to the users keep it. -/
theorem Client.Inv.users (h : w.Inv user first) {s' : Store} (ht : s'.tokens = w.store.tokens)
    (hu : s'.enabled user.id = some user) : Client.Inv user first { store := s', held := w.held } := by
  refine ⟨hu, fun t hmem hheld => h.tokens t ?_ hheld⟩
  rw [← ht]
  exact hmem

/-- A token that is created for the client is of its user. -/
theorem Client.Inv.create (h : w.Inv user first) {name scopes : Str} {expires : ℤ} {s' : Store}
    (hs : w.store.createAPIToken now user.id name scopes raw expires = .ok (token, s')) (hmint : mints first = true) :
    Client.Inv user first { store := s', held := token.secret :: w.held } := by
  obtain ⟨hsecret, hby, htokens, hu, hfresh⟩ := createAPIToken_eq_ok hs
  refine ⟨?_, fun t hmem hheld => ?_⟩
  · rw [Store.enabled, hu]
    exact h.row
  · rw [htokens, List.mem_append, List.mem_singleton] at hmem
    rcases hmem with hmem | rfl
    · refine h.tokens t hmem ?_
      rcases List.mem_cons.1 hheld with heq | hheld
      · exact absurd (heq.trans hsecret) (hfresh t hmem)
      · exact hheld
    · exact ⟨hby, Or.inr hmint⟩

/-- A token that is revoked is the same otherwise. -/
theorem Client.Inv.revoke (h : w.Inv user first) {id userID : ℕ} {s' : Store}
    (hs : w.store.revokeAPIToken id userID = .ok s') : Client.Inv user first { store := s', held := w.held } := by
  unfold Store.revokeAPIToken at hs
  split at hs
  · cases hs
    refine ⟨h.row, fun t hmem hheld => ?_⟩
    obtain ⟨t', hmem', rfl⟩ := List.mem_map.1 hmem
    have hsame := h.tokens t' hmem'
    split at hheld <;> rename_i hcond
    · rw [if_pos hcond]
      exact hsame hheld
    · rw [if_neg hcond]
      exact hsame hheld
  · cases hs

/-- The handlers keep it, when a token is created only with scopes that can. -/
theorem handle_inv {x : Choice} {route : Route} (h : w.Inv user first)
    (hmint : ∀ input, route = .createToken input → mints first = true) :
    Client.Inv user first
      { store := (handle w.store x user route).2, held := (handle w.store x user route).1.secret.toList ++ w.held } := by
  cases route with
  | createToken input =>
    simp only [handle]
    split
    · exact h
    split
    · exact h
    split
    · exact h
    · rename_i hs
      exact h.create hs (hmint input rfl)
  | revokeToken id =>
    simp only [handle]
    split
    · exact h
    split
    · exact h
    · rename_i hs
      exact h.revoke hs
  | createUser username password role =>
    simp only [handle]
    split
    · exact h
    · rename_i v s' hs
      obtain ⟨ht, hu⟩ := enabled_createUser hs h.row
      exact h.users ht hu
  | disableUser id =>
    simp only [handle]
    split
    · exact h
    split
    · exact h
    rename_i hself
    split
    · exact h
    · rename_i s' hs
      unfold Store.disableUser at hs
      exact h.users (updateUser_tokens hs) (enabled_updateUser hs (fun _ => rfl) (Or.inl hself) h.row)
  | updatePassword id password =>
    simp only [handle]
    split
    · exact h
    split
    · exact h
    · rename_i s' hs
      unfold Store.updateUserPassword at hs
      split at hs
      · cases hs
      · exact h.users (updateUser_tokens hs) (enabled_updateUser hs (fun _ => rfl) (Or.inr rfl) h.row)
  | updateRole id role =>
    simp only [handle]
    split
    · exact h
    split
    · exact h
    rename_i hself
    split
    · exact h
    · rename_i s' hs
      unfold Store.updateUserRole at hs
      split at hs
      · cases hs
      · exact h.users (updateUser_tokens hs) (enabled_updateUser hs (fun _ => rfl) (Or.inl hself) h.row)
  | other method path => exact h

theorem Client.step_inv {e : Cluster × Choice × Request} (h : w.Inv user first) (hstep : w.step e = some w') :
    w'.Inv user first := by
  obtain ⟨c, x, r⟩ := e
  simp only [Client.step] at hstep
  split at hstep
  · rename_i hheld
    cases hstep
    unfold serve
    split
    · exact h
    · rename_i u token hauth
      obtain ⟨rfl, hscopes⟩ := h.caller hheld hauth
      split
      · rename_i failure hfailure
        have hnone : failure.secret = none := by
          unfold authorize at hfailure
          split_ifs at hfailure
          all_goals (cases hfailure; rfl)
        rw [hnone]
        exact h
      rename_i hnone
      split
      · exact h
      split
      · exact h
      refine handle_inv h fun input hroute => ?_
      rcases hscopes with hscopes | hmint
      · by_contra hno
        rw [hscopes, hroute] at hnone
        simp only [mints, Bool.or_eq_true, not_or, Bool.not_eq_true] at hno
        exact createToken_refused hno.1 hno.2 hnone
      · exact hmint
  · cases hstep

end

/-- No request of a client that starts with a token is authorised that would be refused to that token. -/
def Confined (s : Store) (user : User) (token : APIToken) : Prop :=
  ∀ (es : List (Cluster × Choice × Request)) (w : Client),
    run Client.step { store := s, held := [token.secret] } es = some w →
    ∀ (c : Cluster) (now : ℤ) (r : Request), r.secret ∈ w.held → (authorised c w.store now r).isSome = true →
      authorize c user.role (some token.scopes) r.route.method r.route.path = none

section

variable {s : Store} {user : User} {token : APIToken} {now : ℤ}

/-- Where a client can gain nothing, it does not. -/
theorem confined_of_not (h : s.authenticateAPIToken now token.secret = some (user, token))
    (hunique : (s.tokens.map APIToken.secret).Nodup)
    (hcond : ¬ (user.role = .admin ∧ hasScope token.scopes "write".toList = true ∧
      hasScope token.scopes "admin".toList = false)) : Confined s user token := by
  intro es w hrun c now' r hheld hauth
  obtain ⟨hmem, -, henabled⟩ := authenticate_eq_some h
  have hid : user.id = token.createdBy := by
    have hfound := List.find?_some henabled
    simp only [Bool.and_eq_true, decide_eq_true_eq] at hfound
    exact hfound.1
  have hstart : Client.Inv user token.scopes { store := s, held := [token.secret] } := by
    refine ⟨by rw [hid]; exact henabled, fun t ht hsecret => ?_⟩
    rw [List.inj_on_of_nodup_map hunique ht hmem (by simpa using hsecret)]
    exact ⟨hid.symm, Or.inl rfl⟩
  have hinv : w.Inv user token.scopes :=
    run_keeps (P := Client.Inv user token.scopes) (fun w e w' h hs => Client.step_inv h hs) hrun hstart
  obtain ⟨v, hv⟩ := Option.isSome_iff_exists.1 hauth
  simp only [authorised, bind, Option.bind_eq_some_iff] at hv
  obtain ⟨⟨u, t⟩, hut, hif⟩ := hv
  split at hif
  · rename_i hnone
    obtain ⟨rfl, hscopes⟩ := hinv.caller hheld hut
    by_cases hadmin : hasScope token.scopes "admin".toList = true
    · exact within_admin hadmin hnone
    rw [Bool.not_eq_true] at hadmin
    by_cases hwrite : hasScope token.scopes "write".toList = true
    · exact within_write (fun hrole => hcond ⟨hrole, hwrite, hadmin⟩) hwrite hnone
    rw [Bool.not_eq_true] at hwrite
    rcases hscopes with hscopes | hmint
    · rw [← hscopes]
      exact hnone
    · rw [mints, hwrite, hadmin] at hmint
      cases hmint
  · cases hif

/-- The request for a token with the scope `admin`, and the token. -/
def mintAdmin (secret : ℕ) : Request := ⟨secret, .createToken ⟨"t".toList, ["admin".toList], 1⟩⟩

def adminToken (s : Store) (user : User) (now : ℤ) (raw : ℕ) : APIToken :=
  ⟨s.nextToken, "t".toList, raw, "admin".toList, now + 1 * 3600, user.id, false⟩

theorem authorize_mint {role : Role} {scopes : Str} (hrole : role ≠ .viewer) (hwrite : hasScope scopes "write".toList = true) :
    authorize {} role (some scopes) .post "/api/v1/tokens".toList = none := by
  obtain ⟨hadmin, hcluster⟩ := routes_table.2.2.1
  rw [authorize_eq_none, hadmin, hcluster]
  intro _
  exact ⟨by simp, by simp, by simp, fun _ _ => ⟨Or.inr hrole, Or.inl hwrite⟩⟩

theorem createAPIToken_admin {raw : ℕ} (hfresh : ∀ t ∈ s.tokens, t.secret ≠ raw) :
    s.createAPIToken now user.id "t".toList (List.intercalate [','] ["admin".toList]) raw (now + 1 * 3600) =
      .ok (adminToken s user now raw,
        { s with tokens := s.tokens ++ [adminToken s user now raw], nextToken := s.nextToken + 1 }) := by
  have hname : trimSpaces "t".toList = "t".toList := by decide +kernel
  have hscopes : trimSpaces (List.intercalate [','] ["admin".toList]) = "admin".toList := by decide +kernel
  have hany : s.tokens.any (fun t => t.secret = raw) = false := by
    rw [List.any_eq_false]
    simpa using hfresh
  have hvalid : ¬ ("t".toList = [] ∨ bytes "t".toList > 64 ∨ ¬ now < now + 1 * 3600 ∨
      validScopes "admin".toList = false) := by
    rintro (hempty | hlong | hexpired | hscope)
    · exact absurd hempty (by decide +kernel)
    · exact absurd hlong (by decide +kernel)
    · omega
    · exact absurd hscope (by decide +kernel)
  simp only [Store.createAPIToken, hname, hscopes, if_neg hvalid, hany, Bool.false_eq_true, if_false]
  rfl

/-- An administrator's token with `write` gets a token with `admin`. -/
theorem step_mintAdmin {raw : ℕ} (h : s.authenticateAPIToken now token.secret = some (user, token))
    (hrole : user.role = .admin) (hwrite : hasScope token.scopes "write".toList = true)
    (hfresh : ∀ t ∈ s.tokens, t.secret ≠ raw) :
    Client.step { store := s, held := [token.secret] } ({}, ⟨now, raw, true, true, true⟩, mintAdmin token.secret) =
      some { store := { s with tokens := s.tokens ++ [adminToken s user now raw], nextToken := s.nextToken + 1 }
             held := [raw, token.secret] } := by
  have hmint : authorize {} user.role (some token.scopes) (mintAdmin token.secret).route.method
      (mintAdmin token.secret).route.path = none := by
    rw [hrole]
    exact authorize_mint (by decide) hwrite
  have hserve : serve {} s ⟨now, raw, true, true, true⟩ (mintAdmin token.secret) = (⟨201, "", "", some raw⟩,
      { s with tokens := s.tokens ++ [adminToken s user now raw], nextToken := s.nextToken + 1 }) := by
    have hcreated := @createAPIToken_admin s user now raw hfresh
    unfold serve
    simp only [h, mintAdmin] at hmint ⊢
    simp only [hmint, Bool.not_true, Bool.and_false, Bool.false_eq_true, if_false, handle, hcreated]
    rfl
  have hheld : (mintAdmin token.secret).secret ∈ [token.secret] := by simp [mintAdmin]
  simp only [Client.step, if_pos hheld, hserve]
  rfl

/-- The new token authenticates its user. -/
theorem authenticate_adminToken {raw : ℕ} (henabled : s.enabled user.id = some user)
    (hfresh : ∀ t ∈ s.tokens, t.secret ≠ raw) :
    Store.authenticateAPIToken
        { s with tokens := s.tokens ++ [adminToken s user now raw], nextToken := s.nextToken + 1 } now raw =
      some (user, adminToken s user now raw) := by
  have hold : s.tokens.find? (fun t => t.secret = raw && !t.revoked) = none := by
    rw [List.find?_eq_none]
    intro t ht
    simp [hfresh t ht]
  have hnew : [adminToken s user now raw].find? (fun t => t.secret = raw && !t.revoked) =
      some (adminToken s user now raw) := by simp [adminToken]
  have hexpires : now < (adminToken s user now raw).expiresAt := by
    simp only [adminToken]
    omega
  simp only [Store.authenticateAPIToken, List.find?_append, hold, hnew, Option.none_or, bind, Option.bind_some]
  rw [show Store.enabled { s with tokens := s.tokens ++ [adminToken s user now raw], nextToken := s.nextToken + 1 }
    (adminToken s user now raw).createdBy = some user from henabled, Option.bind_some, if_pos hexpires]

/-- A token of an administrator that has `write` and not `admin` is not confined: the token it creates may list the users. -/
theorem escalates (h : s.authenticateAPIToken now token.secret = some (user, token)) (hrole : user.role = .admin)
    (hwrite : hasScope token.scopes "write".toList = true) (hadmin : hasScope token.scopes "admin".toList = false) :
    ¬ Confined s user token := by
  intro hconfined
  obtain ⟨raw, hraw⟩ := Infinite.exists_notMem_finset (s.tokens.map APIToken.secret).toFinset
  have hfresh : ∀ t ∈ s.tokens, t.secret ≠ raw := by
    intro t ht heq
    exact hraw (by simpa using ⟨t, ht, heq⟩)
  have henabled : s.enabled user.id = some user := by
    obtain ⟨-, -, hfound⟩ := authenticate_eq_some h
    have hid := List.find?_some hfound
    simp only [Bool.and_eq_true, decide_eq_true_eq] at hid
    rw [hid.1]
    exact hfound
  have hrun := @run_cons _ _ Client.step { store := s, held := [token.secret] }
    ({}, ⟨now, raw, true, true, true⟩, mintAdmin token.secret) []
  rw [step_mintAdmin h hrole hwrite hfresh, Option.bind_some, run_nil] at hrun
  have hlist : authorize {} user.role (some "admin".toList) .get "/api/v1/users".toList = none := by
    rw [hrole]
    exact routes_table.2.2.2.2
  have hauth : (authorised {} { s with tokens := s.tokens ++ [adminToken s user now raw], nextToken := s.nextToken + 1 } now
      ⟨raw, .other .get "/api/v1/users".toList⟩).isSome = true := by
    unfold authorised
    rw [authenticate_adminToken henabled hfresh]
    simp only [bind, Option.bind_some]
    exact Option.isSome_iff_exists.2 ⟨user, if_pos hlist⟩
  have hfirst := hconfined _ _ hrun {} now ⟨raw, .other .get "/api/v1/users".toList⟩ (by simp) hauth
  have honly : adminOnly "/api/v1/users".toList = true := routes_table.2.2.2.1
  have hisAdmin := (authorize_eq_none.1 hfirst (guarded_users {})).1 honly
  rw [isAdmin, Bool.and_eq_true] at hisAdmin
  exact Bool.false_ne_true (hadmin.symm.trans hisAdmin.2)

end

/-- **Scopes and escalation.** For every user and every token of the user that can be used, in a store in which secrets are
unique: no finite sequence of requests, each with that token or with one that was created in the sequence, gets a request authorised
that would be refused to the token, if and only if it is not the case that the user is an administrator and the token has the
scope `write` and not the scope `admin`. -/
theorem scopes_escalate_iff (s : Store) (user : User) (token : APIToken) (now : ℤ)
    (hunique : (s.tokens.map APIToken.secret).Nodup)
    (h : s.authenticateAPIToken now token.secret = some (user, token)) :
    Confined s user token ↔ ¬ (user.role = .admin ∧ hasScope token.scopes "write".toList = true ∧
      hasScope token.scopes "admin".toList = false) :=
  ⟨fun hconfined hcond => escalates h hcond.1 hcond.2.1 hcond.2.2 hconfined, confined_of_not h hunique⟩

/-! ### A token that gains -/

namespace Sample

/-- An administrator with a token for changes. -/
def root : User := { id := 1, username := "root".toList, role := .admin }

def writer : APIToken :=
  { id := 1, name := "ci".toList, secret := 7, scopes := "read,write".toList, expiresAt := 100, createdBy := 1 }

def reader : APIToken := { writer with scopes := "read".toList }

def store (token : APIToken) : Store := { users := [root], tokens := [token], nextUser := 2, nextToken := 2 }

end Sample

open Sample in
/-- A token that can only read is confined. -/
theorem scopes_escalate_reader : Confined (store reader) root reader :=
  (scopes_escalate_iff (store reader) root reader 0 (by decide) (by decide +kernel)).2 (by decide +kernel)

open Sample in
/-- With the scopes `read` and `write` an administrator's token creates one with the scope `admin` and lists the users with it,
which it may not do itself. -/
theorem scopes_escalate_writer :
    ∃ w, run Client.step { store := store writer, held := [writer.secret] } [({}, ⟨0, 8, true, true, true⟩, mintAdmin 7)] = some w ∧
      8 ∈ w.held ∧ (authorised {} w.store 0 ⟨8, .other .get "/api/v1/users".toList⟩).isSome = true ∧
      authorize {} root.role (some writer.scopes) .get "/api/v1/users".toList ≠ none := by
  have hend : (run Client.step { store := store writer, held := [writer.secret] } [({}, ⟨0, 8, true, true, true⟩, mintAdmin 7)]).map
      (fun w => (w.held, (authorised {} w.store 0 ⟨8, .other .get "/api/v1/users".toList⟩).isSome)) =
      some ([8, 7], true) := by decide +kernel
  obtain ⟨w, hw, hout⟩ := Option.map_eq_some_iff.1 hend
  rw [Prod.mk.injEq] at hout
  refine ⟨w, hw, ?_, hout.2, by decide +kernel⟩
  rw [hout.1]
  simp

end Velora.Api
