import Velora.Api.Auth
import Velora.Lib.Prog

/-!
# The last administrator

Requests that disable users or change their roles, running at the same time: each authenticates its caller, checks that it is
not aimed at the caller and then makes one statement on the database. As long as the caller is still an administrator when the
statement is made (`stillAdmin`), there is always an administrator (`admin_remains`); two administrators who disable each other
at the same time leave none (`admins_lost`).
-/

namespace Velora.Api

open Velora.Lib Velora.Lib.Text

/-! ### The requests -/

inductive Op where
  /-- the user of a session or token, who must not be disabled -/
  | authenticate (id : ℕ)
  | disableUser (id : ℕ)
  | updateUserRole (id : ℕ) (role : Str)

abbrev Ans : Op → Type
  | .authenticate _ => Option User
  | .disableUser _ => Option String
  | .updateUserRole _ _ => Option String

/-- A request: its caller, the scopes when it comes with a token, and its route. -/
structure Call where
  caller : ℕ
  scopes : Option Str
  cluster : Cluster := {}
  route : Route

abbrev Script := Prog Op Ans Reply

/-- The handlers of the two routes, one statement on the database at a time; no other route is taken here. -/
def handleSteps (caller : User) : Route → Script
  | .disableUser id =>
    if id < 1 then return ⟨400, "invalid_id", "Invalid user ID", none⟩
    else if caller.id = id then return ⟨400, "cannot_disable_self", "Cannot disable your own account", none⟩
    else do
      let err : Option String ← Prog.ask (Op.disableUser id)
      match err with
      | some _ => return ⟨404, "not_found", "User not found", none⟩
      | none => return ⟨200, "", "", none⟩
  | .updateRole id role =>
    if id < 1 then return ⟨400, "invalid_id", "Invalid user ID", none⟩
    else if caller.id = id then return ⟨400, "cannot_change_own_role", "Cannot change your own role", none⟩
    else do
      let err : Option String ← Prog.ask (Op.updateUserRole id role)
      match err with
      | some _ => return ⟨400, "invalid_role", "Role must be admin, operator, or viewer", none⟩
      | none => return ⟨200, "", "", none⟩
  | _ => return ⟨404, "not_found", "Endpoint not found", none⟩

/-- A request, from its authentication on. -/
def Call.body (c : Call) : Script := do
  let user : Option User ← Prog.ask (Op.authenticate c.caller)
  match user with
  | none => return ⟨401, "authentication_required", "Sign in to access management", none⟩
  | some user =>
    match authorize c.cluster user.role c.scopes c.route.method c.route.path with
    | some failure => return failure
    | none => handleSteps user c.route

/-- What a statement does that fails or succeeds. -/
def stored (s : Store) : Except String Store → Option String × Store
  | .error e => (some e, s)
  | .ok s' => (none, s')

/-- One statement; `x` is the error of the database, if it has one. -/
def act (_ : ℕ) : (op : Op) → Option String → Store → Option (Ans op × Store)
  | .authenticate id, _, s => some (s.enabled id, s)
  | .disableUser id, x, s => some (match x with | some e => (some e, s) | none => stored s (s.disableUser id))
  | .updateUserRole id role, x, s => some (match x with | some e => (some e, s) | none => stored s (s.updateUserRole id role))

abbrev Requests := Pool Store Call Op Ans Reply

abbrev Requests.Turn := Lib.Turn Call (Option String)

def Requests.step : Requests → Requests.Turn → Option Requests := Pool.step Call.body act

/-- There is an administrator who is not disabled. -/
def Store.hasAdmin (s : Store) : Prop := ∃ u ∈ s.users, u.role = .admin ∧ u.disabled = false

/-- The user is an administrator who is not disabled. -/
def Store.isAdmin (s : Store) (id : ℕ) : Bool := (s.enabled id).any (fun u => u.role = .admin)

/-- A request changes the database only while its caller is an administrator. -/
def stillAdmin (w : Requests) : Requests.Turn → Bool
  | .start _ => true
  | .turn i _ =>
    match w.threads[i]? with
    | some (c, .call (.disableUser _) _) => w.shared.isAdmin c.caller
    | some (c, .call (.updateUserRole _ _) _) => w.shared.isAdmin c.caller
    | _ => true

/-! ### Alone -/

/-- A request that runs alone does what the handler does. -/
theorem handleSteps_alone (s : Store) (x : Choice) (caller : User) (c : Route)
    (hc : (∃ id, c = .disableUser id) ∨ ∃ id role, c = .updateRole id role) :
    (handleSteps caller c).exec (act 0) none s = some (handle s x caller c) := by
  rcases hc with ⟨id, rfl⟩ | ⟨id, role, rfl⟩
  · simp only [handleSteps, handle]
    split
    · rfl
    split
    · rfl
    simp only [Prog.ask_bind, Prog.exec_call, act, stored, Option.bind_some]
    cases s.disableUser id <;> rfl
  · simp only [handleSteps, handle]
    split
    · rfl
    split
    · rfl
    simp only [Prog.ask_bind, Prog.exec_call, act, stored, Option.bind_some]
    cases s.updateUserRole id role <;> rfl

/-! ### Every run -/

/-- The statements that are left are not aimed at the caller. -/
def Spares (caller : ℕ) : Script → Prop
  | .done _ => True
  | .call (.authenticate id) k => id = caller ∧ ∀ u : Option User, (∀ v, u = some v → v.id = caller) → Spares caller (k u)
  | .call (.disableUser id) k => id ≠ caller ∧ ∀ a, Spares caller (k a)
  | .call (.updateUserRole id _) k => id ≠ caller ∧ ∀ a, Spares caller (k a)

theorem spares_handleSteps (user : User) (route : Route) : Spares user.id (handleSteps user route) := by
  cases route with
  | disableUser id =>
    simp only [handleSteps]
    split
    · trivial
    split
    · trivial
    rename_i hself
    refine ⟨Ne.symm hself, fun err => ?_⟩
    cases err <;> trivial
  | updateRole id role =>
    simp only [handleSteps]
    split
    · trivial
    split
    · trivial
    rename_i hself
    refine ⟨Ne.symm hself, fun err => ?_⟩
    cases err <;> trivial
  | _ => trivial

theorem spares_body (c : Call) : Spares c.caller c.body := by
  simp only [Call.body, Prog.ask_bind, Prog.pure_eq]
  refine ⟨rfl, fun u hu => ?_⟩
  cases u with
  | none => trivial
  | some user =>
    dsimp only
    split
    · trivial
    · rw [← hu user rfl]
      exact spares_handleSteps user c.route

/-- The row of a user who is not the target of a statement. -/
theorem updateUser_mem {s s' : Store} {id : ℕ} {f : User → User} (hs : s.updateUser id f = .ok s') {u : User}
    (hu : u ∈ s.users) (hid : u.id ≠ id) : u ∈ s'.users := by
  unfold Store.updateUser at hs
  split at hs
  · cases hs
    have hsame : ¬ (u.id = id ∧ u.disabled = false) := fun h => hid h.1
    exact List.mem_map.2 ⟨u, hu, if_neg hsame⟩
  · cases hs

/-- A statement that is not aimed at an administrator leaves this one. -/
theorem hasAdmin_updateUser {s s' : Store} {id caller : ℕ} {f : User → User} (hs : s.updateUser id f = .ok s')
    (hadmin : s.isAdmin caller = true) (hid : id ≠ caller) : s'.hasAdmin := by
  obtain ⟨u, hu, hrole⟩ := (Option.any_eq_true _ _).1 hadmin
  have hfound := List.find?_some hu
  simp only [Bool.and_eq_true, decide_eq_true_eq, Bool.not_eq_true'] at hfound
  refine ⟨u, updateUser_mem hs (List.mem_of_find?_eq_some hu) ?_, by simpa using hrole, hfound.2⟩
  rw [hfound.1]
  exact Ne.symm hid

/-- A statement that fails changes nothing. -/
theorem hasAdmin_stored {s s' : Store} {r : Except String Store} {err : Option String} (hs : s.hasAdmin)
    (h : ∀ t, r = .ok t → t.hasAdmin) (hstored : stored s r = (err, s')) : s'.hasAdmin := by
  cases r with
  | error e =>
    cases hstored
    exact hs
  | ok t =>
    cases hstored
    exact h _ rfl

theorem enabled_id {s : Store} {id : ℕ} {u : User} (h : s.enabled id = some u) : u.id = id := by
  have hfound := List.find?_some h
  simp only [Bool.and_eq_true, decide_eq_true_eq] at hfound
  exact hfound.1

/-- One step of a request whose caller is still an administrator. -/
theorem act_hasAdmin {w : Requests} {i : ℕ} {x : Option String} {c : Call} {op : Op} {k : Ans op → Script} {a : Ans op}
    {s' : Store} (hok : stillAdmin w (.turn i x) = true) (hi : w.threads[i]? = some (c, .call op k)) (hI : w.shared.hasAdmin)
    (hT : Spares c.caller (.call op k)) (hact : act i op x w.shared = some (a, s')) :
    s'.hasAdmin ∧ Spares c.caller (k a) := by
  cases op with
  | authenticate id =>
    cases hact
    obtain ⟨rfl, hrest⟩ := hT
    exact ⟨hI, hrest _ fun v hv => enabled_id hv⟩
  | disableUser id =>
    obtain ⟨hid, hrest⟩ := hT
    refine ⟨?_, hrest a⟩
    have hadmin : w.shared.isAdmin c.caller = true := by simpa [stillAdmin, hi] using hok
    simp only [act, Option.some.injEq] at hact
    cases x with
    | some e =>
      cases hact
      exact hI
    | none =>
      exact hasAdmin_stored hI (fun t ht => hasAdmin_updateUser ht hadmin hid) hact
  | updateUserRole id role =>
    obtain ⟨hid, hrest⟩ := hT
    refine ⟨?_, hrest a⟩
    have hadmin : w.shared.isAdmin c.caller = true := by simpa [stillAdmin, hi] using hok
    simp only [act, Option.some.injEq] at hact
    cases x with
    | some e =>
      cases hact
      exact hI
    | none =>
      refine hasAdmin_stored hI (fun t ht => ?_) hact
      unfold Store.updateUserRole at ht
      split at ht
      · cases ht
      · exact hasAdmin_updateUser ht hadmin hid

/-- **An administrator remains**, in every run of requests that disable users and change roles, from every store that has
one, when each statement is made while its caller is an administrator. -/
theorem admin_remains (s : Store) (hs : s.hasAdmin) (es : List Requests.Turn) (w : Requests)
    (hok : Meets Requests.step (fun w e => stillAdmin w e = true) { shared := s } es)
    (hrun : run Requests.step { shared := s } es = some w) : w.shared.hasAdmin := by
  have hholds : w.Holds Store.hasAdmin (fun _ _ c p => Spares c.caller p) := by
    refine Pool.run_holds (fun _ _ c _ => spares_body c) ?_ hok hrun ⟨hs, by simp⟩
    intro w i x c op k a s' hok hi hI hT hact
    obtain ⟨hI', hT'⟩ := act_hasAdmin hok hi hI hT hact
    exact ⟨hI', hT', fun _ _ _ _ h => h⟩
  exact hholds.shared

/-! ### Two administrators -/

namespace Mutual

/-- Two administrators. -/
def store : Store :=
  { users := [⟨1, "ann".toList, .admin, false⟩, ⟨2, "bob".toList, .admin, false⟩], nextUser := 3 }

def disables (caller target : ℕ) : Call := { caller := caller, scopes := none, route := .disableUser target }

/-- Each disables the other; they take turns in this order. -/
def turns (order : List ℕ) : List Requests.Turn :=
  [.start (disables 1 2), .start (disables 2 1)] ++ order.map (fun i => .turn i none)

def admins (w : Requests) : List Bool := [w.shared.isAdmin 1, w.shared.isAdmin 2]

end Mutual

open Mutual in
/-- One after the other: the second is refused. -/
theorem admin_remains_serial :
    ∃ w, run Requests.step { shared := store } (turns [0, 0, 1]) = some w ∧ w.shared.hasAdmin := by
  have hok : checks Requests.step stillAdmin { shared := store } (turns [0, 0, 1]) = true := by decide +kernel
  have hend : ((run Requests.step { shared := store } (turns [0, 0, 1])).map admins) = some [true, false] := by
    decide +kernel
  obtain ⟨w, hw, -⟩ := Option.map_eq_some_iff.1 hend
  refine ⟨w, hw, admin_remains store ⟨_, List.mem_cons_self, rfl, rfl⟩ _ w (meets_of_checks hok) hw⟩

open Mutual in
/-- Both have been authenticated before either is disabled: no administrator is left. -/
theorem admins_lost :
    store.hasAdmin ∧ ∃ w, run Requests.step { shared := store } (turns [0, 1, 0, 1]) = some w ∧ ¬ w.shared.hasAdmin := by
  have hend : (run Requests.step { shared := store } (turns [0, 1, 0, 1])).map (fun w => w.shared.users.map User.disabled) =
      some [true, true] := by decide +kernel
  obtain ⟨w, hw, hdisabled⟩ := Option.map_eq_some_iff.1 hend
  refine ⟨⟨_, List.mem_cons_self, rfl, rfl⟩, w, hw, ?_⟩
  rintro ⟨u, hu, -, henabled⟩
  have hmem := List.mem_map_of_mem (f := User.disabled) hu
  rw [hdisabled, henabled] at hmem
  simp at hmem

end Velora.Api
