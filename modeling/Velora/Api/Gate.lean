import Velora.Api.Sessions

/-!
# What goes before a request is served

In every run of requests, whatever the order of their statements is and whichever of them fail, the token of a session is
accepted as the user who has logged in with it, for twelve hours, until it is given up or the user is disabled; and nothing is
done for a request that has not been authenticated, authorised, checked against forgery and recorded (`sessions_sound`).
-/

namespace Velora.Api.Sessions

open Velora.Lib Velora.Lib.Text

/-! ### The history -/

/-- What an event says about the session with a hash: it begins, or it ends. -/
def What.session (hash : Bytes) : What → Option (Option Grant)
  | .login h g => if h = hash then some (some g) else none
  | .logout h => if h = hash then some none else none
  | _ => none

def What.password (id : ℕ) : What → Option Bytes
  | .hashed id' hash => if id' = id then some hash else none
  | _ => none

/-- The login that gave the session with a hash, unless it has been given up since. -/
def live (hash : Bytes) (history : List Event) : Option Grant := (history.findSome? (fun e => e.what.session hash)).join

/-- The hash of the password that was set last for a user. -/
def passwordOf (id : ℕ) (history : List Event) : Option Bytes := history.findSome? (fun e => e.what.password id)

@[simp] theorem live_cons (hash : Bytes) (e : Event) (past : List Event) :
    live hash (e :: past) = ((e.what.session hash).or (past.findSome? (fun e => e.what.session hash))).join := by
  rw [live, List.findSome?_cons]
  cases e.what.session hash <;> rfl

@[simp] theorem passwordOf_cons (id : ℕ) (e : Event) (past : List Event) :
    passwordOf id (e :: past) = (e.what.password id).or (passwordOf id past) := by
  rw [passwordOf, List.findSome?_cons]
  cases e.what.password id <;> rfl

section

variable (r : Request) (w : Caller) (past : List What)

/-- The request has been authenticated as coming from this caller. -/
def Accepted : Prop :=
  match w.credential with
  | .session csrf => ∃ hash now, .accepted hash w.user csrf now ∈ past
  | .token scopes => .acceptedToken w.user scopes ∈ past

/-- And the caller may make it. -/
def Passed : Prop :=
  Accepted w past ∧ authorize r.cluster w.user.role w.scopes r.method r.path = none ∧ w.forged r = false

/-- The request may be served: it needs no authentication, or it has passed and, if it changes something, was recorded. -/
def Cleared : Prop := guarded r.cluster r.path = true →
  ∃ w, Passed r w past ∧ (r.recorded = true → ∃ id time, .began id w.user r.method r.path time ∈ past)

/-- A request that manages users or tokens has a slot and has passed. -/
def Managing : Prop := .entered ∈ past ∧ ∃ w, Passed r w past

/-- What has gone before an event of a request: of its own events, and of all. -/
def Grounds (c : Crypto) (history : List Event) : What → Prop
  | .accepted hash user csrf now => r.bearer = none ∧ (∃ token, r.cookie = some ⟨token, true⟩ ∧ c.sha256 token = hash) ∧
      ∃ g, live hash history = some g ∧ g.user = user.id ∧ g.csrf = csrf ∧ now < g.start + lifetime
  | .acceptedToken _ _ => ∃ raw, r.bearer = some (some raw)
  | .checked user hash => .entered ∈ past ∧ ∃ username password, r.task = .login username password ∧
      c.compare hash password = true ∧ passwordOf user.id history = some hash ∧ user.disabled = false
  | .login _ g => ∃ user hash, .checked user hash ∈ past ∧ g.user = user.id
  | .logout hash => .entered ∈ past ∧ ∃ cookie, r.task = .logout ∧ r.cookie = some cookie ∧ c.sha256 cookie.bytes = hash
  | .hashed id _ => Managing r past ∧
      ((∃ username password role, r.task = .createUser username password role) ∨ ∃ password, r.task = .updatePassword id password)
  | .managed => Managing r past
  | .disabled id => Managing r past ∧ r.task = .disableUser id
  | .began _ user method path _ => method = r.method ∧ path = r.path ∧ ∃ w, w.user = user ∧ Passed r w past
  | .entered => Cleared r past
  | .completed id _ => ∃ user time, .began id user r.method r.path time ∈ past
  | .pruned _ => True

end

/-- Every event of a request has its grounds. -/
abbrev Grounded (c : Crypto) (i : ℕ) (r : Request) : List Event → Prop :=
  Lib.Deed.Grounded (fun past => Grounds r (Deed.own i past) c past) i

section Monotone

variable {r : Request} {w : Caller} {past past' : List What}

theorem Accepted.mono (h : Accepted w past) (hsub : past ⊆ past') : Accepted w past' := by
  unfold Accepted at h ⊢
  split at h
  · obtain ⟨hash, now, h⟩ := h
    exact ⟨hash, now, hsub h⟩
  · exact hsub h

theorem Passed.mono (h : Passed r w past) (hsub : past ⊆ past') : Passed r w past' := ⟨h.1.mono hsub, h.2⟩

theorem Managing.mono (h : Managing r past) (hsub : past ⊆ past') : Managing r past' := by
  obtain ⟨hentered, w, hw⟩ := h
  exact ⟨hsub hentered, w, hw.mono hsub⟩

end Monotone

/-! ### The protocol of a request -/

/-- What a call may do next when these events are behind it. -/
def Allows : Call → List What → Op → Prop
  | .start username password, _, op => op = .bootstrap username password
  | .request r, _, .authenticateAPIToken raw => r.bearer = some (some raw)
  | .request r, _, .session token => r.bearer = none ∧ r.cookie = some ⟨token, true⟩
  | .request r, past, .beginAudit user method path => method = r.method ∧ path = r.path ∧ ∃ w, w.user = user ∧ Passed r w past
  | .request r, past, .enter => Cleared r past
  | .request r, past, .authenticate username password => .entered ∈ past ∧ r.task = .login username password
  | .request _, past, .createSession user => ∃ hash, .checked user hash ∈ past
  | .request r, past, .revokeSession token =>
      .entered ∈ past ∧ ∃ cookie, r.task = .logout ∧ r.cookie = some cookie ∧ cookie.bytes = token
  | .request r, past, .manage _ task => Managing r past ∧ r.task = task
  | .request _, past, .deleteSessions id => .disabled id ∈ past
  | .request r, past, .completeAudit id _ => ∃ user time, .began id user r.method r.path time ∈ past
  | .request _, _, .audit _ action => ∀ method, action ≠ .request method
  | .request _, _, .leave => True
  | .request _, _, .bootstrap _ _ => False

/-- What a call knows from an answer: these events have happened. -/
def Learns : (op : Op) → Ans op → List What → Prop
  | .authenticateAPIToken _, a, es => ∀ f ∈ a, .acceptedToken f.1 f.2.scopes ∈ es
  | .session _, a, es => ∀ f ∈ a, ∃ hash now, .accepted hash f.1 f.2 now ∈ es
  | .beginAudit user method path, a, es => ∀ id ∈ a, ∃ time, .began id user method path time ∈ es
  | .enter, a, es => a = true → .entered ∈ es
  | .authenticate _ _, a, es => ∀ user ∈ a, ∃ hash, .checked user hash ∈ es
  | .manage _ task, a, es => ∀ id ∈ task.disables.filter (fun _ => Reply.status a = 200), .disabled id ∈ es
  | _, _, _ => True

def protocol : Protocol Call Op Ans What := ⟨Allows, Learns⟩

section Body

variable {r : Request} {past : List What}

theorem obeys_management {caller : User} {task : Task} {Q : Answer → List What → Prop} (hmanaging : Managing r past)
    (htask : r.task = task) (hQ : ∀ a past', past ⊆ past' → Q a past') :
    (management caller task).obeys (protocol.spec (.request r)) Q past := by
  unfold management
  refine ⟨⟨hmanaging, htask⟩, fun reply es hes => ?_⟩
  dsimp only [Prog.bind]
  cases hid : task.disables.filter (fun _ => Reply.status reply = 200) with
  | none => exact hQ _ _ (List.subset_append_right es past)
  | some id =>
    have hafter : past ⊆ es ++ past := List.subset_append_right es past
    exact ⟨List.mem_append_left _ (hes id hid), fun _ es' _ => hQ _ _ (List.Subset.trans hafter (List.subset_append_right es' _))⟩

theorem obeys_handler {caller : Option Caller} {Q : Answer → List What → Prop} (hentered : What.entered ∈ past)
    (hcaller : ∀ w ∈ caller, Passed r w past) (hQ : ∀ a past', past ⊆ past' → Q a past') :
    (handler r caller).obeys (protocol.spec (.request r)) Q past := by
  have happ : ∀ es es' : List What, past ⊆ es ++ (es' ++ past) := fun es es' =>
    List.Subset.trans (List.subset_append_right es' past) (List.subset_append_right es _)
  unfold handler
  cases htask : r.task with
  | login username password =>
    refine ⟨⟨hentered, htask⟩, fun a es hes => ?_⟩
    cases a with
    | none => exact ⟨fun _ => Action.noConfusion, fun _ es' _ => hQ _ _ (happ es' es)⟩
    | some user =>
      obtain ⟨hash, hchecked⟩ := hes user rfl
      refine ⟨⟨hash, List.mem_append_left _ hchecked⟩, fun b es' _ => ?_⟩
      cases b with
      | none => exact hQ _ _ (happ es' es)
      | some tokens => exact ⟨fun _ => Action.noConfusion, fun _ es'' _ => hQ _ _ (List.Subset.trans (happ es' es) (List.subset_append_right es'' _))⟩
  | logout =>
    cases hcookie : r.cookie with
    | none => exact hQ _ _ (List.Subset.refl past)
    | some cookie =>
      exact ⟨⟨hentered, cookie, htask, hcookie, rfl⟩, fun _ es _ => hQ _ _ (List.subset_append_right es past)⟩
  | _ =>
    cases caller with
    | none => exact hQ _ _ (List.Subset.refl past)
    | some w => exact obeys_management ⟨hentered, w, hcaller w rfl⟩ htask hQ

theorem obeys_limited {caller : Option Caller} {Q : Answer → List What → Prop} (hcleared : Cleared r past)
    (hcaller : ∀ w ∈ caller, Passed r w past) (hQ : ∀ a past', past ⊆ past' → Q a past') :
    (limited r caller).obeys (protocol.spec (.request r)) Q past := by
  refine ⟨hcleared, fun free es hes => ?_⟩
  cases free with
  | false => exact hQ _ _ (List.subset_append_right es past)
  | true =>
    show Prog.obeys _ (handler r caller >>= _) Q _
    refine Prog.obeys_bind.2 (obeys_handler (List.mem_append_left _ (hes rfl))
      (fun w hw => (hcaller w hw).mono (List.subset_append_right es past)) fun a past' hsub => ?_)
    have hafter : past ⊆ past' := List.Subset.trans (List.subset_append_right es past) hsub
    exact ⟨trivial, fun _ es' _ => hQ _ _ (List.Subset.trans hafter (List.subset_append_right es' past'))⟩

theorem obeys_authenticate {Q : Option Caller → List What → Prop}
    (hQ : ∀ a past', past ⊆ past' → (∀ w ∈ a, Accepted w past') → Q a past') :
    (authenticate r).obeys (protocol.spec (.request r)) Q past := by
  have hnone : Q none past := hQ none past (List.Subset.refl past) (fun w hw => by cases hw)
  unfold authenticate
  split
  · exact hnone
  · rename_i raw hbearer
    refine ⟨hbearer, fun a es hes => hQ _ _ (List.subset_append_right es past) fun w hw => ?_⟩
    obtain ⟨f, hf, rfl⟩ := Option.map_eq_some_iff.1 hw
    exact List.mem_append_left _ (hes f hf)
  · rename_i hbearer
    split
    · rename_i token hcookie
      split
      · refine ⟨⟨hbearer, hcookie⟩, fun a es hes => hQ _ _ (List.subset_append_right es past) fun w hw => ?_⟩
        obtain ⟨f, hf, rfl⟩ := Option.map_eq_some_iff.1 hw
        obtain ⟨hash, now, he⟩ := hes f hf
        exact ⟨hash, now, List.mem_append_left _ he⟩
      · exact hnone
    · exact hnone

/-- **A call keeps to the protocol.** -/
theorem obeys_body (call : Call) : call.body.obeys (protocol.spec call) (fun _ _ => True) [] := by
  cases call with
  | start username password => exact ⟨rfl, fun _ _ _ => trivial⟩
  | request r =>
    show (Request.body r).obeys _ _ []
    unfold Request.body
    split
    · refine Prog.obeys_bind.2 (obeys_authenticate fun caller past' _ hcaller => ?_)
      cases caller with
      | none => exact trivial
      | some w =>
        dsimp only
        split
        · exact trivial
        · rename_i hauthorized
          split
          · exact trivial
          · rename_i hforged
            have hpassed : Passed r w past' := ⟨hcaller w rfl, hauthorized, Bool.eq_false_iff.2 hforged⟩
            split
            · refine ⟨⟨rfl, rfl, w, rfl, hpassed⟩, fun id es hes => ?_⟩
              cases id with
              | none => exact trivial
              | some id =>
                obtain ⟨time, hbegan⟩ := hes id rfl
                have hbegan' := List.mem_append_left past' hbegan
                have hpassed' := hpassed.mono (List.subset_append_right es past')
                show Prog.obeys _ (limited r (some w) >>= _) _ _
                refine Prog.obeys_bind.2 (obeys_limited (fun _ => ⟨w, hpassed', fun _ => ⟨id, time, hbegan'⟩⟩) ?_ ?_)
                · rintro v hv
                  cases hv
                  exact hpassed'
                · intro a past'' hsub
                  exact ⟨⟨w.user, time, hsub hbegan'⟩, fun _ _ _ => trivial⟩
            · rename_i hrecorded
              refine obeys_limited (fun _ => ⟨w, hpassed, fun hrec => absurd hrec hrecorded⟩) ?_ (fun _ _ _ => trivial)
              rintro v hv
              cases hv
              exact hpassed
    · rename_i hopen
      exact obeys_limited (fun hg => absurd hg hopen) (fun w hw => by cases hw) (fun _ _ _ => trivial)

end Body

/-! ### Users -/

/-- The user has been disabled, or the id is that of no user and never will be. -/
def Gone (s : Store) (id : ℕ) : Prop := id < s.nextUser ∧ ∀ u ∈ s.users, u.id = id → u.disabled = true

/-- What a statement does to the users: there may be a new one, and none is enabled again. -/
structure Aged (s s' : Store) : Prop where
  next : s.nextUser ≤ s'.nextUser
  users : ∀ u ∈ s'.users, (∃ v ∈ s.users, v.id = u.id ∧ (v.disabled = true → u.disabled = true)) ∨
    s.nextUser ≤ u.id ∧ u.id < s'.nextUser

/-- The users are the same ones, and none is enabled again. -/
structure Same (s s' : Store) : Prop where
  next : s'.nextUser = s.nextUser
  users : ∀ u ∈ s'.users, ∃ v ∈ s.users, v.id = u.id ∧ (v.disabled = true → u.disabled = true)

theorem Same.aged {s s' : Store} (h : Same s s') : Aged s s' := ⟨h.next.ge, fun u hu => Or.inl (h.users u hu)⟩

theorem Same.of_eq {s s' : Store} (husers : s'.users = s.users) (hnext : s'.nextUser = s.nextUser) : Same s s' := by
  refine ⟨hnext, fun u hu => ⟨u, ?_, rfl, fun h => h⟩⟩
  rwa [husers] at hu

theorem Same.refl (s : Store) : Same s s := Same.of_eq rfl rfl

theorem Gone.aged {s s' : Store} {id : ℕ} (h : Gone s id) (ha : Aged s s') : Gone s' id := by
  refine ⟨h.1.trans_le ha.next, fun u hu hid => ?_⟩
  rcases ha.users u hu with ⟨v, hv, hvid, hd⟩ | ⟨hnew, -⟩
  · exact hd (h.2 v hv (hvid.trans hid))
  · have hold := h.1
    omega

theorem Gone.enabled {s : Store} {id : ℕ} (h : Gone s id) : s.enabled id = none := by
  rw [Store.enabled, List.find?_eq_none]
  intro u hu hp
  rw [Bool.and_eq_true, decide_eq_true_eq, Bool.not_eq_true'] at hp
  rw [h.2 u hu hp.1] at hp
  exact absurd hp.2 Bool.true_eq_false.mp

theorem Same.updateUser {s s' : Store} {id : ℕ} {f : User → User} (hs : s.updateUser id f = .ok s') (hf : ∀ u, (f u).id = u.id)
    (hd : ∀ u, u.disabled = true → (f u).disabled = true) : Same s s' := by
  unfold Store.updateUser at hs
  split at hs
  · cases hs
    refine ⟨rfl, fun u hu => ?_⟩
    obtain ⟨v, hv, rfl⟩ := List.mem_map.1 hu
    refine ⟨v, hv, ?_⟩
    split
    · exact ⟨(hf v).symm, hd v⟩
    · exact ⟨rfl, fun h => h⟩
  · cases hs

theorem createUser_ok {s s' : Store} {username role : Str} {password : ℕ} {u : User}
    (hs : s.createUser username password role = .ok (u, s')) :
    u.id = s.nextUser ∧ s'.users = s.users ++ [u] ∧ s'.nextUser = s.nextUser + 1 := by
  unfold Store.createUser at hs
  split at hs
  · cases hs
  · dsimp only at hs
    split at hs
    · cases hs
    · split at hs
      · cases hs
      · cases hs
        exact ⟨rfl, rfl, rfl⟩

theorem Aged.createUser {s s' : Store} {username role : Str} {password : ℕ} {u : User}
    (hs : s.createUser username password role = .ok (u, s')) : Aged s s' := by
  obtain ⟨hid, husers, hnext⟩ := createUser_ok hs
  refine ⟨by omega, fun v hv => ?_⟩
  rw [husers] at hv
  rcases List.mem_append.1 hv with hv | hv
  · exact Or.inl ⟨v, hv, rfl, id⟩
  · rw [List.mem_singleton.1 hv]
    exact Or.inr ⟨hid.ge, by omega⟩

theorem Same.updateUserPassword {s s' : Store} {id password : ℕ} (hs : s.updateUserPassword id password = .ok s') :
    Same s s' := by
  unfold Store.updateUserPassword at hs
  split at hs
  · cases hs
  · exact Same.updateUser hs (fun _ => rfl) (fun _ h => h)

/-- A disabled user is disabled. -/
theorem gone_disableUser {s s' : Store} {id : ℕ} (hids : ∀ u ∈ s.users, u.id < s.nextUser) (hs : s.disableUser id = .ok s') :
    Gone s' id := by
  unfold Store.disableUser Store.updateUser at hs
  split at hs
  · rename_i hany
    cases hs
    obtain ⟨v, hv, hp⟩ := List.any_eq_true.1 hany
    rw [Bool.and_eq_true, decide_eq_true_eq] at hp
    refine ⟨hp.1 ▸ hids v hv, fun u hu hid => ?_⟩
    obtain ⟨w, -, rfl⟩ := List.mem_map.1 hu
    split at hid
    · rename_i hw
      rw [if_pos hw]
    · rename_i hw
      rw [if_neg hw]
      cases hd : w.disabled with
      | true => rfl
      | false => exact absurd ⟨hid, hd⟩ hw
  · cases hs

theorem Same.handle (s : Store) (x : Choice) (caller : User) {route : Route}
    (hroute : ∀ username password role, route ≠ .createUser username password role) : Same s (handle s x caller route).2 := by
  unfold Api.handle
  cases route with
  | createToken input =>
    dsimp only
    split
    · exact Same.refl s
    · split
      · exact Same.refl s
      · split
        · exact Same.refl s
        · rename_i token s' hs
          unfold Store.createAPIToken at hs
          dsimp only at hs
          split at hs
          · cases hs
          · split at hs
            · cases hs
            · cases hs
              exact Same.of_eq rfl rfl
  | revokeToken id =>
    dsimp only
    split
    · exact Same.refl s
    · split
      · exact Same.refl s
      · rename_i s' hs
        unfold Store.revokeAPIToken at hs
        split at hs <;> cases hs
        exact Same.of_eq rfl rfl
  | createUser username password role => exact absurd rfl (hroute username password role)
  | disableUser id =>
    dsimp only
    split
    · exact Same.refl s
    · split
      · exact Same.refl s
      · split
        · exact Same.refl s
        · rename_i s' hs
          exact Same.updateUser (s := s) (f := fun u => { u with disabled := true }) hs (fun _ => rfl) (fun _ _ => rfl)
  | updatePassword id password =>
    dsimp only
    split
    · exact Same.refl s
    · split
      · exact Same.refl s
      · exact Same.updateUserPassword ‹_›
  | updateRole id role =>
    dsimp only
    split
    · exact Same.refl s
    · split
      · exact Same.refl s
      · split
        · exact Same.refl s
        · rename_i s' hs
          unfold Store.updateUserRole at hs
          split at hs
          · cases hs
          · exact Same.updateUser hs (fun _ => rfl) (fun _ h => h)
  | other method path => exact Same.refl s

/-- The answer of the route that has disabled a user. -/
theorem handle_disableUser {s : Store} {x : Choice} {caller : User} {id : ℕ} (hids : ∀ u ∈ s.users, u.id < s.nextUser)
    (h : (handle s x caller (.disableUser id)).1.status = 200) : Gone (handle s x caller (.disableUser id)).2 id := by
  unfold Api.handle at h ⊢
  dsimp only at h ⊢
  split at h
  · cases h
  · split at h
    · cases h
    · split at h
      · cases h
      · rename_i hid hself _ s' hs
        rw [if_neg hid, if_neg hself]
        exact gone_disableUser hids hs

/-! ### What every statement keeps -/

structure Inv (c : Crypto) (s : State) : Prop where
  ids : ∀ u ∈ s.store.users, u.id < s.store.nextUser
  owners : ∀ hash g, live hash s.history = some g → g.user < s.store.nextUser
  checked : ∀ i u hash, ⟨i, .checked u hash⟩ ∈ s.history → u.id < s.store.nextUser
  disabled : ∀ i id, ⟨i, .disabled id⟩ ∈ s.history → Gone s.store id
  /-- a row is a session that has not been given up -/
  rows : ∀ r ∈ s.sessions, live r.tokenHash s.history = some ⟨r.userID, r.csrfToken, r.expiresAt - lifetime⟩
  /-- and each of these has a row, or its user is disabled -/
  kept : ∀ hash g, live hash s.history = some g → (∃ r ∈ s.sessions, r.tokenHash = hash) ∨ Gone s.store g.user
  passwords : ∀ u ∈ s.store.users, passwordOf u.id s.history = some (s.passwords u.id)

/-- The event is none that `Inv` speaks of. -/
def What.quiet : What → Bool
  | .hashed _ _ | .checked _ _ | .login _ _ | .logout _ | .disabled _ => false
  | _ => true

section Quiet

variable {es past : List Event} (hq : ∀ e ∈ es, e.what.quiet = true)
include hq

theorem live_quiet (hash : Bytes) : live hash (es ++ past) = live hash past := by
  have hnone : es.findSome? (fun e => e.what.session hash) = none := by
    rw [List.findSome?_eq_none_iff]
    intro e he
    have hquiet := hq e he
    cases hw : e.what <;> rw [hw] at hquiet <;> first | rfl | cases hquiet
  rw [live, List.findSome?_append, hnone, Option.none_or]
  rfl

theorem passwordOf_quiet (id : ℕ) : passwordOf id (es ++ past) = passwordOf id past := by
  have hnone : es.findSome? (fun e => e.what.password id) = none := by
    rw [List.findSome?_eq_none_iff]
    intro e he
    have hquiet := hq e he
    cases hw : e.what <;> rw [hw] at hquiet <;> first | rfl | cases hquiet
  rw [passwordOf, List.findSome?_append, hnone, Option.none_or]
  rfl

theorem mem_quiet {e : Event} (he : e.what.quiet = false) (hmem : e ∈ es ++ past) : e ∈ past := by
  rcases List.mem_append.1 hmem with h | h
  · rw [hq e h] at he
    cases he
  · exact h

end Quiet

namespace Inv

variable {c : Crypto} {s s' : State}

/-- What does not touch the sessions. -/
theorem of_sessions (h : Inv c s) (hstore : Aged s.store s'.store) (hsessions : s'.sessions = s.sessions)
    (hlive : ∀ hash, live hash s'.history = live hash s.history)
    (hchecked : ∀ i u hash, ⟨i, .checked u hash⟩ ∈ s'.history → u.id < s'.store.nextUser)
    (hdisabled : ∀ i id, ⟨i, .disabled id⟩ ∈ s'.history → Gone s'.store id)
    (hpasswords : ∀ u ∈ s'.store.users, passwordOf u.id s'.history = some (s'.passwords u.id)) : Inv c s' where
  ids u hu := by
    rcases hstore.users u hu with ⟨v, hv, hid, -⟩ | ⟨-, hnew⟩
    · rw [← hid]
      exact (h.ids v hv).trans_le hstore.next
    · exact hnew
  owners hash g hl := by
    rw [hlive] at hl
    exact (h.owners hash g hl).trans_le hstore.next
  checked := hchecked
  disabled := hdisabled
  rows r hr := by
    rw [hlive]
    rw [hsessions] at hr
    exact h.rows r hr
  kept hash g hl := by
    rw [hlive] at hl
    rw [hsessions]
    exact (h.kept hash g hl).imp_right (fun hgone => hgone.aged hstore)
  passwords := hpasswords

/-- What touches neither sessions nor passwords; it may have disabled a user. -/
theorem same (h : Inv c s) {i : ℕ} {ids : List ℕ} {es : List Event} (hq : ∀ e ∈ es, e.what.quiet = true)
    (hstore : Same s.store s'.store) (hpasswords : s'.passwords = s.passwords) (hsessions : s'.sessions = s.sessions)
    (hgone : ∀ id ∈ ids, Gone s'.store id)
    (hhistory : s'.history = ids.map (fun id => ⟨i, .disabled id⟩) ++ (es ++ s.history)) : Inv c s' := by
  have hnone : ∀ hash, (ids.map (fun id => (⟨i, .disabled id⟩ : Event))).findSome? (fun e => e.what.session hash) = none := by
    intro hash
    rw [List.findSome?_map, List.findSome?_eq_none_iff]
    exact fun _ _ => rfl
  have hnone' : ∀ id, (ids.map (fun id => (⟨i, .disabled id⟩ : Event))).findSome? (fun e => e.what.password id) = none := by
    intro id
    rw [List.findSome?_map, List.findSome?_eq_none_iff]
    exact fun _ _ => rfl
  refine h.of_sessions hstore.aged hsessions (fun hash => ?_) (fun j u hash hc => ?_) (fun j id hd => ?_) (fun u hu => ?_)
  · rw [hhistory, live, List.findSome?_append, hnone, Option.none_or]
    exact live_quiet hq hash
  · rw [hhistory] at hc
    rcases List.mem_append.1 hc with hc | hc
    · obtain ⟨id, -, heq⟩ := List.mem_map.1 hc
      cases heq
    · exact (h.checked j u hash (mem_quiet hq rfl hc)).trans_le hstore.aged.next
  · rw [hhistory] at hd
    rcases List.mem_append.1 hd with hd | hd
    · obtain ⟨id', hid, heq⟩ := List.mem_map.1 hd
      cases heq
      exact hgone id hid
    · exact (h.disabled j id (mem_quiet hq rfl hd)).aged hstore.aged
  · obtain ⟨v, hv, hid, -⟩ := hstore.users u hu
    rw [hhistory, passwordOf, List.findSome?_append, hnone', Option.none_or, hpasswords, ← hid]
    exact (passwordOf_quiet hq v.id).trans (h.passwords v hv)

/-- The same without that. -/
theorem quiet (h : Inv c s) {es : List Event} (hq : ∀ e ∈ es, e.what.quiet = true) (hstore : s'.store = s.store)
    (hpasswords : s'.passwords = s.passwords) (hsessions : s'.sessions = s.sessions) (hhistory : s'.history = es ++ s.history) :
    Inv c s' := by
  have hids : ∀ id ∈ ([] : List ℕ), Gone s'.store id := fun id hid => absurd hid List.not_mem_nil
  exact h.same (i := 0) hq (hstore ▸ Same.refl s.store) hpasswords hsessions hids hhistory

/-- What only writes the audit log or counts the slots. -/
theorem unchanged (h : Inv c s) (hstore : s'.store = s.store) (hpasswords : s'.passwords = s.passwords)
    (hsessions : s'.sessions = s.sessions) (hhistory : s'.history = s.history) : Inv c s' := by
  have hnil : ∀ e ∈ ([] : List Event), e.what.quiet = true := fun e he => absurd he List.not_mem_nil
  exact h.quiet hnil hstore hpasswords hsessions hhistory

theorem tell (h : Inv c s) {i : ℕ} {what : What} (hq : what.quiet = true) : Inv c (s.tell i [what]) := by
  have hone : ∀ e ∈ [(⟨i, what⟩ : Event)], e.what.quiet = true := fun e he => by rw [List.mem_singleton.1 he]; exact hq
  exact h.quiet hone rfl rfl rfl rfl

theorem pruneAudit (h : Inv c s) (i : ℕ) (now : ℤ) : Inv c ((s.pruneAudit now).tell i [.pruned now]) := by
  have hpruned : Inv c (s.pruneAudit now) := h.unchanged rfl rfl rfl rfl
  exact hpruned.tell rfl

/-- A password is set for a user, who may be new. -/
theorem hashed (h : Inv c s) {i id : ℕ} {hash : Bytes} {es : List Event} (hq : ∀ e ∈ es, e.what.quiet = true)
    (hstore : Aged s.store s'.store) (hold : ∀ u ∈ s'.store.users, u.id ≠ id → ∃ v ∈ s.store.users, v.id = u.id)
    (hpasswords : s'.passwords = Function.update s.passwords id hash) (hsessions : s'.sessions = s.sessions)
    (hhistory : s'.history = ⟨i, .hashed id hash⟩ :: (es ++ s.history)) : Inv c s' := by
  refine h.of_sessions hstore hsessions (fun hash' => ?_) (fun j u hash' hc => ?_) (fun j id' hd => ?_) (fun u hu => ?_)
  · rw [hhistory, live_cons]
    exact live_quiet hq hash'
  · rw [hhistory] at hc
    rcases List.mem_cons.1 hc with heq | hc
    · cases heq
    · exact (h.checked j u hash' (mem_quiet hq rfl hc)).trans_le hstore.next
  · rw [hhistory] at hd
    rcases List.mem_cons.1 hd with heq | hd
    · cases heq
    · exact (h.disabled j id' (mem_quiet hq rfl hd)).aged hstore
  · rw [hhistory, passwordOf_cons, passwordOf_quiet hq, hpasswords]
    by_cases hid : u.id = id
    · rw [hid, Function.update_self, What.password, if_pos rfl]
      rfl
    · obtain ⟨v, hv, hvid⟩ := hold u hu hid
      rw [Function.update_of_ne hid, What.password, if_neg (Ne.symm hid), Option.none_or, ← hvid]
      exact h.passwords v hv

/-- A password was right. -/
theorem authenticate (h : Inv c s) (i : ℕ) {user : User} (hash : Bytes) (huser : user ∈ s.store.users) :
    Inv c (s.tell i [.checked user hash]) := by
  refine h.of_sessions (Same.refl s.store).aged rfl (fun _ => rfl) (fun j u hash' hc => ?_) (fun j id hd => ?_) h.passwords
  · rcases List.mem_cons.1 hc with heq | hc
    · cases heq
      exact h.ids user huser
    · exact h.checked j u hash' hc
  · rcases List.mem_cons.1 hd with heq | hd
    · cases heq
    · exact h.disabled j id hd

/-- A login. -/
theorem createSession (h : Inv c s) (i : ℕ) {user : User} {token csrf : Bytes} {now : ℤ}
    (huser : user.id < s.store.nextUser) (hs : s.createSession c user token csrf now = some s') :
    Inv c (s'.tell i [.login (c.sha256 token) ⟨user.id, csrf, now⟩]) := by
  unfold State.createSession at hs
  split at hs
  · cases hs
  rename_i hfresh
  rw [Bool.not_eq_true, List.any_eq_false] at hfresh
  cases hs
  have hlive : ∀ hash, live hash (⟨i, .login (c.sha256 token) ⟨user.id, csrf, now⟩⟩ :: s.history) =
      if c.sha256 token = hash then some ⟨user.id, csrf, now⟩ else live hash s.history := by
    intro hash
    rw [live_cons, What.session]
    split <;> rfl
  refine ⟨h.ids, fun hash g hl => ?_, fun j u hash hc => ?_, fun j id hd => ?_, fun r hr => ?_, fun hash g hl => ?_, h.passwords⟩
  · have hl' := (hlive hash).symm.trans hl
    split at hl'
    · cases hl'
      exact huser
    · exact h.owners hash g hl'
  · rcases List.mem_cons.1 hc with heq | hc
    · cases heq
    · exact h.checked j u hash hc
  · rcases List.mem_cons.1 hd with heq | hd
    · cases heq
    · exact h.disabled j id hd
  · refine (hlive r.tokenHash).trans ?_
    rcases List.mem_append.1 hr with hr | hr
    · have hne : c.sha256 token ≠ r.tokenHash := fun heq => by simpa [heq] using hfresh r hr
      rw [if_neg hne]
      exact h.rows r hr
    · rw [List.mem_singleton.1 hr, if_pos rfl, add_sub_cancel_right]
  · have hl' := (hlive hash).symm.trans hl
    split at hl'
    · rename_i heq
      exact Or.inl ⟨_, List.mem_append_right _ (List.mem_singleton.2 rfl), heq⟩
    · rcases h.kept hash g hl' with ⟨r, hr, hhash⟩ | hgone
      · exact Or.inl ⟨r, List.mem_append_left _ hr, hhash⟩
      · exact Or.inr hgone

/-- A logout. -/
theorem revokeSession (h : Inv c s) (i : ℕ) (token : Bytes) :
    Inv c ((s.revokeSession c token).tell i [.logout (c.sha256 token)]) := by
  have hlive : ∀ hash, live hash (⟨i, .logout (c.sha256 token)⟩ :: s.history) =
      if c.sha256 token = hash then none else live hash s.history := by
    intro hash
    rw [live_cons, What.session]
    split <;> rfl
  refine ⟨h.ids, fun hash g hl => ?_, fun j u hash hc => ?_, fun j id hd => ?_, fun r hr => ?_, fun hash g hl => ?_, h.passwords⟩
  · have hl' := (hlive hash).symm.trans hl
    split at hl'
    · cases hl'
    · exact h.owners hash g hl'
  · rcases List.mem_cons.1 hc with heq | hc
    · cases heq
    · exact h.checked j u hash hc
  · rcases List.mem_cons.1 hd with heq | hd
    · cases heq
    · exact h.disabled j id hd
  · obtain ⟨hr, hne⟩ := List.mem_filter.1 hr
    rw [decide_eq_true_eq] at hne
    refine (hlive r.tokenHash).trans ?_
    rw [if_neg (Ne.symm hne)]
    exact h.rows r hr
  · have hl' := (hlive hash).symm.trans hl
    split at hl'
    · cases hl'
    · rename_i hne
      refine (h.kept hash g hl').imp_left ?_
      rintro ⟨r, hr, hhash⟩
      exact ⟨r, List.mem_filter.2 ⟨hr, decide_eq_true (by rw [hhash]; exact Ne.symm hne)⟩, hhash⟩

/-- The sessions of a disabled user go. -/
theorem deleteSessions (h : Inv c s) {id : ℕ} (hgone : Gone s.store id) : Inv c (s.deleteSessions id) := by
  refine ⟨h.ids, h.owners, h.checked, h.disabled, fun r hr => h.rows r (List.mem_filter.1 hr).1, fun hash g hl => ?_, h.passwords⟩
  rcases h.kept hash g hl with ⟨r, hr, hhash⟩ | hgone'
  · by_cases hid : g.user = id
    · exact Or.inr (hid ▸ hgone)
    · have hrow := h.rows r hr
      rw [hhash] at hrow
      have hg : g = ⟨r.userID, r.csrfToken, r.expiresAt - lifetime⟩ := Option.some.inj (hl.symm.trans hrow)
      refine Or.inl ⟨r, List.mem_filter.2 ⟨hr, decide_eq_true fun heq => hid ?_⟩, hhash⟩
      rw [hg]
      exact heq
  · exact Or.inr hgone'

/-- A token that is accepted is that of a live session. -/
theorem session_eq_some (h : Inv c s) {now : ℤ} {token csrf : Bytes} {user : User} :
    s.session c now token = some (user, csrf) ↔ ∃ g, live (c.sha256 token) s.history = some g ∧
      s.store.enabled g.user = some user ∧ g.csrf = csrf ∧ now < g.start + lifetime := by
  have hfound : ∀ r, s.sessions.find? (fun r => r.tokenHash = c.sha256 token) = some r →
      live (c.sha256 token) s.history = some ⟨r.userID, r.csrfToken, r.expiresAt - lifetime⟩ := by
    intro r hr
    have hhash : r.tokenHash = c.sha256 token := by simpa using List.find?_some hr
    rw [← hhash]
    exact h.rows r (List.mem_of_find?_eq_some hr)
  unfold State.session
  simp only [bind, Option.bind_eq_some_iff]
  constructor
  · rintro ⟨r, hr, u, hu, hif⟩
    split at hif
    · rename_i hnow
      cases hif
      exact ⟨_, hfound r hr, hu, rfl, by rw [sub_add_cancel]; exact hnow⟩
    · cases hif
  · rintro ⟨g, hl, hu, hcsrf, hnow⟩
    rcases h.kept _ g hl with ⟨r, hr, hhash⟩ | hgone
    · cases hf : s.sessions.find? (fun r => r.tokenHash = c.sha256 token) with
      | none =>
        rw [List.find?_eq_none] at hf
        exact absurd (decide_eq_true hhash) (hf r hr)
      | some r' =>
        have hsame := (hfound r' hf).symm.trans hl
        rw [Option.some.injEq] at hsame
        subst hsame
        refine ⟨r', rfl, user, hu, ?_⟩
        rw [sub_add_cancel] at hnow
        rw [if_pos hnow, ← hcsrf]
    · rw [hgone.enabled] at hu
      cases hu

/-- The user whose password was checked, and the hash it was checked against. -/
theorem authenticate_eq_some (h : Inv c s) {username password : Str} {user : User}
    (ha : s.authenticate c username password = some user) : user ∈ s.store.users ∧ user.disabled = false ∧
      c.compare (s.passwords user.id) password = true ∧ passwordOf user.id s.history = some (s.passwords user.id) := by
  unfold State.authenticate at ha
  rw [Option.filter_eq_some_iff] at ha
  obtain ⟨hf, hp⟩ := ha
  have hmem := List.mem_of_find?_eq_some hf
  rw [Bool.and_eq_true, Bool.not_eq_true'] at hp
  exact ⟨hmem, hp.2, hp.1, h.passwords user hmem⟩

end Inv

/-! ### Every statement -/

/-- What a statement of a call does: it keeps the invariant, what has happened has its grounds, and the call knows what the
answer tells it. -/
def Stepped (c : Crypto) (i : ℕ) (call : Call) (op : Op) (a : Ans op) (s s' : State) : Prop :=
  Inv c s' ∧ (∀ r, call = .request r → Grounded c i r s.history → Grounded c i r s'.history) ∧
    ∃ es, s'.history = es.map (fun w => ⟨i, w⟩) ++ s.history ∧ Learns op a es

section Steps

variable {c : Crypto} {i : ℕ} {r : Request} {op : Op} {a : Ans op} {s s' : State}

/-- Nothing is told. -/
theorem stepped_none {call : Call} (hinv : Inv c s') (hhistory : s'.history = s.history) (hlearns : Learns op a []) :
    Stepped c i call op a s s' :=
  ⟨hinv, fun _ _ hg => by rw [hhistory]; exact hg, [], hhistory, hlearns⟩

/-- One event. -/
theorem stepped_one {what : What} (hinv : Inv c s') (hhistory : s'.history = ⟨i, what⟩ :: s.history)
    (hlearns : Learns op a [what]) (hgrounds : Grounds r (Deed.own i s.history) c s.history what) :
    Stepped c i (.request r) op a s s' := by
  refine ⟨hinv, fun r' hr hg => ?_, [what], hhistory, hlearns⟩
  cases hr
  rw [hhistory]
  exact ⟨fun _ => hgrounds, hg⟩

/-- Two events. -/
theorem stepped_two {what what' : What} (hinv : Inv c s') (hhistory : s'.history = ⟨i, what'⟩ :: ⟨i, what⟩ :: s.history)
    (hlearns : Learns op a [what', what]) (hgrounds : Grounds r (Deed.own i s.history) c s.history what)
    (hgrounds' : Grounds r (what :: Deed.own i s.history) c (⟨i, what⟩ :: s.history) what') :
    Stepped c i (.request r) op a s s' := by
  refine ⟨hinv, fun r' hr hg => ?_, [what', what], hhistory, hlearns⟩
  cases hr
  rw [hhistory]
  have hown : Deed.own i (⟨i, what⟩ :: s.history) = what :: Deed.own i s.history :=
    (Deed.own_told i i [what] s.history).trans (if_pos rfl)
  refine ⟨fun _ => ?_, fun _ => hgrounds, hg⟩
  dsimp only
  rw [hown]
  exact hgrounds'

end Steps

section Statements

variable {c : Crypto} {i : ℕ} {r : Request} {s : State} {x : Outside}

/-- A password is set by one of the two routes. -/
theorem stepped_hashed (h : Inv c s) {caller : User} {task : Task} {s' : State} {id : ℕ} {hash : Bytes} {reply : Reply}
    (hallows : Managing r (Deed.own i s.history) ∧ r.task = task) (hdisables : task.disables = none)
    (htask : (∃ username password role, r.task = .createUser username password role) ∨ ∃ password, r.task = .updatePassword id password)
    (hstore : Aged s.store s'.store) (hold : ∀ u ∈ s'.store.users, u.id ≠ id → ∃ v ∈ s.store.users, v.id = u.id)
    (hpasswords : s'.passwords = Function.update s.passwords id hash) (hsessions : s'.sessions = s.sessions)
    (hhistory : s'.history = s.history) :
    Stepped c i (.request r) (.manage caller task) reply s (s'.tell i [.hashed id hash, .managed]) := by
  have hq : ∀ e ∈ [(⟨i, .managed⟩ : Event)], e.what.quiet = true := fun e he => by rw [List.mem_singleton.1 he]; rfl
  have hcons : (s'.tell i [.hashed id hash, .managed]).history = ⟨i, .hashed id hash⟩ :: ([⟨i, .managed⟩] ++ s.history) := by
    rw [← hhistory]
    rfl
  refine stepped_two (h.hashed hq hstore hold hpasswords hsessions hcons) hcons (fun id' hid => ?_) hallows.1
    ⟨hallows.1.mono (List.subset_cons_self _ _), htask⟩
  rw [hdisables] at hid
  cases hid

/-- Users and tokens. -/
theorem stepped_manage (h : Inv c s) {caller : User} {task : Task} (hallows : Managing r (Deed.own i s.history) ∧ r.task = task) :
    Stepped c i (.request r) (.manage caller task) (s.manage c i x caller task).1 s (s.manage c i x caller task).2 := by
  have hrefused : ∀ {task : Task} (reply : Reply), task.disables = none →
      Stepped c i (.request r) (.manage caller task) reply s s := by
    intro task reply hnone
    refine stepped_none h rfl fun id hid => ?_
    rw [hnone] at hid
    cases hid
  have hother : ∀ {task : Task}, r.task = task → (∀ username password role, task.route ≠ .createUser username password role) →
      let out := handle s.store { now := x.now, raw := x.raw } caller task.route
      let disabled := task.disables.filter (fun _ => out.1.status = 200)
      Stepped c i (.request r) (.manage caller task) out.1 s
        ({ s with store := out.2 }.tell i (disabled.toList.map What.disabled ++ [What.managed])) := by
    intro task htask hroute out disabled
    have hsame : Same s.store out.2 := Same.handle _ _ _ hroute
    have hq : ∀ e ∈ [(⟨i, .managed⟩ : Event)], e.what.quiet = true := fun e he => by rw [List.mem_singleton.1 he]; rfl
    cases hd : disabled with
    | none =>
      have hids : ∀ id ∈ ([] : List ℕ), Gone out.2 id := fun id hid => absurd hid List.not_mem_nil
      refine stepped_one (h.same (i := i) hq hsame rfl rfl hids rfl) rfl (fun id hid => ?_) hallows.1
      exact absurd (hd.symm.trans hid) (by simp)
    | some id =>
      obtain ⟨hdisables, hstatus⟩ := Option.filter_eq_some_iff.1 hd
      rw [decide_eq_true_eq] at hstatus
      have hid : task = .disableUser id := by
        cases task <;> simp only [Task.disables, reduceCtorEq, Option.some.injEq] at hdisables
        rw [hdisables]
      have hids : ∀ id' ∈ [id], Gone out.2 id' := by
        intro id' hid'
        rw [List.mem_singleton.1 hid']
        subst hid
        exact handle_disableUser h.ids hstatus
      refine stepped_two (h.same (i := i) hq hsame rfl rfl hids rfl) rfl (fun id' hid' => ?_) hallows.1
        ⟨hallows.1.mono (List.subset_cons_self _ _), htask.trans hid⟩
      have heq : id = id' := Option.some.inj (hd.symm.trans hid')
      rw [← heq]
      exact List.mem_cons_self
  unfold State.manage
  split
  · rename_i username password role
    split
    · exact hrefused _ rfl
    · rename_i user s' hs
      unfold State.createUser at hs
      split at hs
      · cases hs
      · rename_i hash hgen
        split at hs
        · cases hs
        · rename_i user' store hstore
          cases hs
          obtain ⟨hid, husers, -⟩ := createUser_ok hstore
          dsimp only
          rw [Function.update_self]
          refine stepped_hashed h hallows rfl (Or.inl ⟨_, _, _, hallows.2⟩) (Aged.createUser hstore) (fun u hu hne => ?_)
            rfl rfl rfl
          dsimp only at hu
          rw [husers] at hu
          rcases List.mem_append.1 hu with hu | hu
          · exact ⟨u, hu, rfl⟩
          · exact absurd (congrArg User.id (List.mem_singleton.1 hu)) hne
  · rename_i id password
    split
    · exact hrefused _ rfl
    · split
      · exact hrefused _ rfl
      · rename_i s' hs
        unfold State.updateUserPassword at hs
        split at hs
        · cases hs
        · split at hs
          · cases hs
          · rename_i store hstore
            cases hs
            have hsame := Same.updateUserPassword hstore
            dsimp only
            rw [Function.update_self]
            refine stepped_hashed h hallows rfl (Or.inr ⟨_, hallows.2⟩) hsame.aged (fun u hu _ => ?_) rfl rfl rfl
            obtain ⟨v, hv, hid, -⟩ := hsame.users u hu
            exact ⟨v, hv, hid⟩
  · rename_i hcreate hupdate
    exact hother hallows.2 (by cases task <;> first | exact fun _ _ _ => Route.noConfusion | exact absurd rfl (hcreate _ _ _))

/-- **One statement** of a request. -/
theorem act_stepped (h : Inv c s) {op : Op} {a : Ans op} {s' : State} (hallows : Allows (.request r) (Deed.own i s.history) op)
    (hact : act c i op x s = some (a, s')) : Stepped c i (.request r) op a s s' := by
  cases op with
  | authenticateAPIToken raw =>
    cases hact
    cases (if x.fails then none else s.store.authenticateAPIToken x.now raw) with
    | none => exact stepped_none (h.unchanged rfl rfl rfl rfl) rfl (fun f hf => by cases hf)
    | some f =>
      refine stepped_one (h.tell rfl) rfl (fun f' hf => ?_) ⟨raw, hallows⟩
      cases hf
      exact List.mem_cons_self
  | session token =>
    cases hact
    cases hf : (if x.fails then none else s.session c x.now token) with
    | none => exact stepped_none (h.unchanged rfl rfl rfl rfl) rfl (fun f hf' => by cases hf')
    | some f =>
      obtain ⟨user, csrf⟩ := f
      have hsession : s.session c x.now token = some (user, csrf) := by
        split at hf
        · cases hf
        · exact hf
      obtain ⟨g, hl, henabled, hcsrf, hnow⟩ := h.session_eq_some.1 hsession
      have huser : g.user = user.id := by
        have hp := List.find?_some henabled
        rw [Bool.and_eq_true, decide_eq_true_eq] at hp
        exact hp.1.symm
      refine stepped_one (h.tell rfl) rfl (fun f' hf' => ?_) ⟨hallows.1, ⟨token, hallows.2, rfl⟩, g, hl, huser, hcsrf, hnow⟩
      cases hf'
      exact ⟨_, _, List.mem_cons_self⟩
  | beginAudit user method path =>
    simp only [act] at hact
    have hpruned : Inv c ((s.pruneAudit x.now).tell i [.pruned x.now]) := h.pruneAudit i x.now
    split at hact
    · cases hact
      exact stepped_none h rfl (fun id hid => by cases hid)
    · split at hact
      · cases hact
        exact stepped_one hpruned rfl (fun id hid => by cases hid) trivial
      · cases hact
        obtain ⟨hmethod, hpath, w, hw, hpassed⟩ := hallows
        have hinserted : Inv c (((s.pruneAudit x.now).tell i [.pruned x.now]).insertAudit x.time (some user.id) (some user.role)
            (.request method) path .pending) := hpruned.unchanged rfl rfl rfl rfl
        refine stepped_two (hinserted.tell rfl) rfl
          (fun id hid => ?_) trivial ⟨hmethod, hpath, w, hw, hpassed.mono (List.subset_cons_self _ _)⟩
        cases hid
        exact ⟨x.time, List.mem_cons_self⟩
  | enter =>
    simp only [act] at hact
    split at hact
    · cases hact
      exact stepped_one ((h.unchanged rfl rfl rfl rfl : Inv c { s with busy := s.busy + 1 }).tell rfl) rfl
        (fun _ => List.mem_cons_self) hallows
    · cases hact
      exact stepped_none h rfl (fun hfalse => by cases hfalse)
  | authenticate username password =>
    cases hact
    cases hf : (if x.fails then none else s.authenticate c username password) with
    | none => exact stepped_none (h.unchanged rfl rfl rfl rfl) rfl (fun f hf' => by cases hf')
    | some user =>
      have hauthenticated : s.authenticate c username password = some user := by
        split at hf
        · cases hf
        · exact hf
      obtain ⟨hmem, henabled, hcompare, hpassword⟩ := h.authenticate_eq_some hauthenticated
      refine stepped_one (h.authenticate i _ hmem) rfl (fun u hu => ?_)
        ⟨hallows.1, username, password, hallows.2, hcompare, hpassword, henabled⟩
      cases hu
      exact ⟨_, List.mem_cons_self⟩
  | createSession user =>
    simp only [act] at hact
    obtain ⟨hash, hchecked⟩ := hallows
    split at hact
    · cases hact
      exact stepped_none h rfl trivial
    · split at hact
      · cases hact
        exact stepped_none h rfl trivial
      · rename_i token csrf _ _ t ht
        cases hact
        split at ht
        · cases ht
        · have hhistory : (t.tell i [.login (c.sha256 token) ⟨user.id, csrf, x.now⟩]).history =
              ⟨i, .login (c.sha256 token) ⟨user.id, csrf, x.now⟩⟩ :: s.history := by
            unfold State.createSession at ht
            split at ht <;> cases ht
            rfl
          exact stepped_one (h.createSession i (h.checked i user hash (Deed.mem_own.1 hchecked)) ht) hhistory trivial ⟨user, hash, hchecked, rfl⟩
  | audit userID action =>
    simp only [act] at hact
    have hpruned : Inv c ((s.pruneAudit x.now).tell i [.pruned x.now]) := h.pruneAudit i x.now
    split at hact
    · cases hact
      exact stepped_none h rfl trivial
    · split at hact
      · cases hact
        exact stepped_one hpruned rfl trivial trivial
      · cases hact
        exact stepped_one (hpruned.unchanged rfl rfl rfl rfl) rfl trivial trivial
  | revokeSession token =>
    simp only [act] at hact
    split at hact
    · cases hact
      exact stepped_none h rfl trivial
    · cases hact
      obtain ⟨hentered, cookie, htask, hcookie, rfl⟩ := hallows
      exact stepped_one (h.revokeSession i _) rfl trivial ⟨hentered, cookie, htask, hcookie, rfl⟩
  | manage caller task =>
    have heq := Option.some.inj hact
    have hstepped : Stepped c i (.request r) (.manage caller task) (s.manage c i x caller task).1 s (s.manage c i x caller task).2 :=
      stepped_manage h hallows
    rw [heq] at hstepped
    exact hstepped
  | deleteSessions id =>
    simp only [act] at hact
    split at hact
    · cases hact
      exact stepped_none h rfl trivial
    · cases hact
      exact stepped_none (h.deleteSessions (h.disabled i id (Deed.mem_own.1 hallows))) rfl trivial
  | leave =>
    cases hact
    exact stepped_none (h.unchanged rfl rfl rfl rfl) rfl trivial
  | completeAudit id status =>
    simp only [act] at hact
    split at hact
    · cases hact
      exact stepped_none h rfl trivial
    · cases hact
      exact stepped_one ((h.unchanged rfl rfl rfl rfl : Inv c (s.completeAudit id status)).tell rfl) rfl trivial hallows
  | bootstrap username password => exact hallows.elim

/-- The first user. -/
theorem bootstrap_stepped (h : Inv c s) {username password : Str} {a : Unit} {s' : State}
    (hact : act c i (.bootstrap username password) x s = some (a, s')) :
    Stepped c i (.start username password) (.bootstrap username password) a s s' := by
  simp only [act] at hact
  split at hact
  · split at hact
    · cases hact
      exact stepped_none h rfl trivial
    · rename_i user t hs
      cases hact
      unfold State.createUser at hs
      split at hs
      · cases hs
      · rename_i hash hgen
        split at hs
        · cases hs
        · rename_i user' store hstore
          cases hs
          obtain ⟨hid, husers, -⟩ := createUser_ok hstore
          have hnil : ∀ e ∈ ([] : List Event), e.what.quiet = true := fun e he => absurd he List.not_mem_nil
          dsimp only
          rw [Function.update_self]
          refine ⟨h.hashed hnil (Aged.createUser hstore) (fun u hu hne => ?_) rfl rfl rfl,
            fun r hr => (by cases hr), _, rfl, trivial⟩
          dsimp only [State.tell] at hu
          rw [husers] at hu
          rcases List.mem_append.1 hu with hu | hu
          · exact ⟨u, hu, rfl⟩
          · exact absurd (congrArg User.id (List.mem_singleton.1 hu)) hne
  · cases hact
    exact stepped_none h rfl trivial

end Statements

/-! ### Runs -/

/-- The events of a call have their grounds, if it is a request. -/
def AllGrounded (c : Crypto) (history : List Event) (i : ℕ) (call : Call) : Prop := ∀ r, call = .request r → Grounded c i r history

/-- What holds in every run. -/
abbrev Running (c : Crypto) (w : Requests) : Prop :=
  w.Follows protocol State.history (Inv c) (AllGrounded c) (fun _ _ _ => True)

/-- **One turn** of a call. -/
theorem turn_stepped {c : Crypto} {i : ℕ} {call : Call} {op : Op} {x : Outside} {a : Ans op} {s s' : State} (h : Inv c s)
    (hallows : Allows call (Deed.own i s.history) op) (hact : act c i op x s = some (a, s')) : Stepped c i call op a s s' := by
  cases call with
  | start username password =>
    obtain rfl : op = .bootstrap username password := hallows
    exact bootstrap_stepped h hact
  | request r => exact act_stepped h hallows hact

theorem step_running {c : Crypto} {w w' : Requests} {e : Requests.Turn} (h : Running c w) (hs : Requests.step c w e = some w') :
    Running c w' := by
  refine Pool.step_follows obeys_body (fun h i call habsent r _ => Lib.Deed.grounded_of_absent habsent)
    (fun h i j call es hij hg r hr => (hg r hr).append_others hij) (fun i call op x s a s' hinv hg hallows hact => ?_) h hs
  obtain ⟨hinv', hkeeps, hes⟩ := turn_stepped hinv hallows hact
  exact ⟨hinv', fun r hr => hkeeps r hr (hg r hr), hes⟩

theorem Running.start (c : Crypto) : Running c { shared := {} } := by
  have hempty : Inv c {} := ⟨by simp, by simp [live], by simp, by simp, by simp, by simp [live], by simp⟩
  exact ⟨hempty, by simp, by simp⟩

/-- What holds at any time. -/
structure Sound (c : Crypto) (w : Requests) : Prop where
  /-- what has happened for a request has its grounds -/
  grounded : ∀ i r p, w.threads[i]? = some (.request r, p) → Grounded c i r w.shared.history
  /-- a token is accepted exactly when a login has given it, not twelve hours ago, it has not been given up since, and the user is
  not disabled -/
  accepted : ∀ now token user csrf, w.shared.session c now token = some (user, csrf) ↔
    ∃ g, live (c.sha256 token) w.shared.history = some g ∧ w.shared.store.enabled g.user = some user ∧ g.csrf = csrf ∧
      now < g.start + lifetime
  /-- who has been disabled stays so -/
  disabled : ∀ i id, ⟨i, .disabled id⟩ ∈ w.shared.history → w.shared.store.enabled id = none

/-- **Sessions.** In every run of requests, in any order of their statements and with any of them failing. -/
theorem sessions_sound (c : Crypto) (turns : List Requests.Turn) :
    ∀ w ∈ run (Requests.step c) { shared := {} } turns, Sound c w := by
  intro w hw
  have hrunning : Running c w := run_keeps (P := Running c) (fun _ _ _ h hs => step_running h hs) hw (Running.start c)
  exact ⟨fun i r p hi => (hrunning.threads i _ p hi).1 r rfl, fun _ _ _ _ => hrunning.shared.session_eq_some,
    fun i id hd => (hrunning.shared.disabled i id hd).enabled⟩

namespace Visit

/-- A hash that is the text itself. -/
def crypto : Crypto where
  sha256 := id
  generate password _ := some (password.map (fun ch => UInt8.ofNat ch.toNat))
  compare hash password := hash = password.map (fun ch => UInt8.ofNat ch.toNat)

def token : Secret := ⟨List.replicate 32 1, rfl⟩
def csrf : Secret := ⟨List.replicate 32 2, rfl⟩

def password : Str := "correct horse".toList

/-- The first user is created, logs in and creates another one. -/
def turns : List Requests.Turn :=
  let x : Outside := { now := 1000, time := 1000, drawn := some (token, csrf) }
  [.start (.start "root".toList password), .turn 0 x, .start (.request { task := .login "root".toList password })] ++
    List.replicate 5 (.turn 1 x) ++
    [.start (.request { cookie := some ⟨token.1, true⟩, csrf := some csrf.1, task := .createUser "anna".toList password "viewer".toList })] ++
    List.replicate 6 (.turn 2 x)

end Visit

open Visit in
/-- The session is good until its twelve hours are over. -/
theorem sessions_sound_visit : ∃ w, run (Requests.step crypto) { shared := {} } turns = some w ∧ Sound crypto w ∧
    (w.shared.session crypto 44199 token.1).isSome = true ∧ (w.shared.session crypto 44200 token.1).isSome = false := by
  have hend : (run (Requests.step crypto) { shared := {} } turns).any (fun w =>
      (w.shared.session crypto 44199 token.1).isSome && !(w.shared.session crypto 44200 token.1).isSome) = true := by
    decide +kernel
  obtain ⟨w, hw, hsession⟩ := (Option.any_eq_true _ _).1 hend
  rw [Bool.and_eq_true, Bool.not_eq_true'] at hsession
  exact ⟨w, hw, sessions_sound crypto turns w hw, hsession.1, hsession.2⟩

end Velora.Api.Sessions
