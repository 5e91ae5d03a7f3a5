import Velora.Api.Gate

/-!
# The audit log

In every run of requests the log has a row for each request that changed something, with its caller, its method and path, and
its result once it is done, until the row is ninety days old (`audit_sound`).
-/

namespace Velora.Api.Sessions

open Velora.Lib Velora.Lib.Text

/-- The result that was written down for a row. -/
def What.outcome (id : ℕ) : What → Option (Result × ℕ)
  | .completed id' status =>
    if id' = id then some (if 200 ≤ status ∧ status < 400 then .success else .failure, status) else none
  | _ => none

/-- The result in a row: that of the request, or none yet. -/
def outcome (id : ℕ) (history : List Event) : Result × ℕ := (history.findSome? (fun e => e.what.outcome id)).getD (.pending, 0)

theorem outcome_cons (id : ℕ) (e : Event) (past : List Event) : outcome id (e :: past) =
    ((e.what.outcome id).or (past.findSome? (fun e => e.what.outcome id))).getD (.pending, 0) := by
  rw [outcome, List.findSome?_cons]
  cases e.what.outcome id <;> rfl

/-- The row of a request. -/
def row (history : List Event) (id : ℕ) (user : User) (method : Method) (path : Str) (time : ℤ) : AuditEvent :=
  ⟨id, time, some user.id, some user.role, .request method, path, (outcome id history).1, (outcome id history).2⟩

/-- A row of this time was more than ninety days old when the log was pruned. -/
def Expired (history : List Event) (time : ℤ) : Prop := ∃ i now, ⟨i, .pruned now⟩ ∈ history ∧ time < now - State.retention

/-! ### What every statement keeps -/

structure Logged (s : State) : Prop where
  fresh : ∀ e ∈ s.audit, e.id < s.nextAudit
  unique : s.audit.Pairwise (fun a b => a.id < b.id)
  completed : ∀ i id status, ⟨i, .completed id status⟩ ∈ s.history → id < s.nextAudit
  /-- every request that was to be recorded has its row -/
  began : ∀ i id user method path time, ⟨i, .began id user method path time⟩ ∈ s.history → id < s.nextAudit ∧
    (row s.history id user method path time ∈ s.audit ∨ Expired s.history time)
  /-- and every row is that of a request -/
  rows : ∀ e ∈ s.audit, ∀ method, e.action = .request method → ∃ i user,
    ⟨i, .began e.id user method e.target e.occurredAt⟩ ∈ s.history ∧ e = row s.history e.id user method e.target e.occurredAt

/-- The event is about the log. -/
def What.logs : What → Bool
  | .pruned _ | .began _ _ _ _ _ | .completed _ _ => true
  | _ => false

theorem outcome_quiet {es past : List Event} (hq : ∀ e ∈ es, ∀ id, e.what.outcome id = none) (id : ℕ) :
    outcome id (es ++ past) = outcome id past := by
  have hnone : es.findSome? (fun e => e.what.outcome id) = none := List.findSome?_eq_none_iff.2 fun e he => hq e he id
  rw [outcome, List.findSome?_append, hnone, Option.none_or]
  rfl

theorem row_eq {history history' : List Event} {id : ℕ} (h : outcome id history' = outcome id history) (user : User)
    (method : Method) (path : Str) (time : ℤ) : row history' id user method path time = row history id user method path time := by
  unfold row
  rw [h]

theorem Expired.mono {history history' : List Event} {time : ℤ} (h : Expired history time) (hsub : history ⊆ history') :
    Expired history' time := by
  obtain ⟨i, now, hp, ht⟩ := h
  exact ⟨i, now, hsub hp, ht⟩

namespace Logged

variable {s s' : State}

/-- What is not about the log. -/
theorem others (h : Logged s) {es : List Event} (hq : ∀ e ∈ es, e.what.logs = false) (haudit : s'.audit = s.audit)
    (hnext : s'.nextAudit = s.nextAudit) (hhistory : s'.history = es ++ s.history) : Logged s' := by
  have hout : ∀ e ∈ es, ∀ id, e.what.outcome id = none := by
    intro e he id
    have hquiet := hq e he
    cases hw : e.what <;> rw [hw] at hquiet <;> first | rfl | cases hquiet
  have hmem : ∀ e ∈ s'.history, e.what.logs = true → e ∈ s.history := by
    intro e he hlogs
    rw [hhistory] at he
    rcases List.mem_append.1 he with he | he
    · rw [hq e he] at hlogs
      cases hlogs
    · exact he
  have hsub : s.history ⊆ s'.history := by
    rw [hhistory]
    exact List.subset_append_right es _
  have hsame : ∀ id, outcome id s'.history = outcome id s.history := fun id => by
    rw [hhistory]
    exact outcome_quiet hout id
  refine ⟨fun e he => ?_, ?_, fun i id status hc => ?_, fun i id user method path time hb => ?_, fun e he method ha => ?_⟩
  · rw [hnext]
    exact h.fresh e (haudit ▸ he)
  · rw [haudit]
    exact h.unique
  · rw [hnext]
    exact h.completed i id status (hmem _ hc rfl)
  · obtain ⟨hlt, hrow⟩ := h.began i id user method path time (hmem _ hb rfl)
    rw [hnext, haudit, row_eq (hsame id)]
    exact ⟨hlt, hrow.imp_right fun hexpired => hexpired.mono hsub⟩
  · obtain ⟨i, user, hb, heq⟩ := h.rows e (haudit ▸ he) method ha
    refine ⟨i, user, hsub hb, ?_⟩
    rw [row_eq (hsame e.id)]
    exact heq

/-- The log is pruned. -/
theorem pruneAudit (h : Logged s) (i : ℕ) (now : ℤ) : Logged ((s.pruneAudit now).tell i [.pruned now]) := by
  have hsame : ∀ id, outcome id (⟨i, .pruned now⟩ :: s.history) = outcome id s.history := fun _ => rfl
  refine ⟨fun e he => h.fresh e (List.mem_filter.1 he).1, h.unique.filter _, fun j id status hc => ?_,
    fun j id user method path time hb => ?_, fun e he method ha => ?_⟩
  · rcases List.mem_cons.1 hc with heq | hc
    · cases heq
    · exact h.completed j id status hc
  · rcases List.mem_cons.1 hb with heq | hb
    · cases heq
    · obtain ⟨hlt, hrow⟩ := h.began j id user method path time hb
      refine ⟨hlt, ?_⟩
      rcases hrow with hrow | hexpired
      · by_cases hold : time < now - State.retention
        · exact Or.inr ⟨i, now, List.mem_cons_self, hold⟩
        · exact Or.inl (List.mem_filter.2 ⟨hrow, decide_eq_true (not_lt.1 hold)⟩)
      · exact Or.inr (hexpired.mono (List.subset_cons_self _ _))
  · obtain ⟨j, user, hb, heq⟩ := h.rows e (List.mem_filter.1 he).1 method ha
    exact ⟨j, user, List.mem_cons_of_mem _ hb, heq⟩

/-- A row is written that is not about a request. -/
theorem insertAudit (h : Logged s) {time : ℤ} {userID : Option ℕ} {action : Action} {target : Str} {result : Result}
    (haction : ∀ method, action ≠ .request method) : Logged (s.insertAudit time userID none action target result) where
  fresh e he := by
    rcases List.mem_append.1 he with he | he
    · exact (h.fresh e he).trans (Nat.lt_succ_self _)
    · rw [List.mem_singleton.1 he]
      exact Nat.lt_succ_self _
  unique := by
    refine List.pairwise_append.2 ⟨h.unique, List.pairwise_singleton _ _, fun a ha b hb => ?_⟩
    rw [List.mem_singleton.1 hb]
    exact h.fresh a ha
  completed i id status hc := (h.completed i id status hc).trans (Nat.lt_succ_self _)
  began i id user method path time hb := by
    obtain ⟨hlt, hrow⟩ := h.began i id user method path time hb
    exact ⟨hlt.trans (Nat.lt_succ_self _), hrow.imp_left (List.mem_append_left _)⟩
  rows e he method ha := by
    rcases List.mem_append.1 he with he | he
    · exact h.rows e he method ha
    · rw [List.mem_singleton.1 he] at ha
      exact absurd ha (haction method)

/-- The row of a request is written. -/
theorem beginAudit (h : Logged s) (i : ℕ) (user : User) (method : Method) (path : Str) (time : ℤ) :
    Logged ((s.insertAudit time (some user.id) (some user.role) (.request method) path .pending).tell i
      [.began s.nextAudit user method path time]) := by
  have hsame : ∀ id, outcome id (⟨i, .began s.nextAudit user method path time⟩ :: s.history) = outcome id s.history := fun _ => rfl
  have hpending : outcome s.nextAudit s.history = (.pending, 0) := by
    have hnone : s.history.findSome? (fun e => e.what.outcome s.nextAudit) = none := by
      rw [List.findSome?_eq_none_iff]
      intro e he
      obtain ⟨j, what⟩ := e
      cases what with
      | completed id status =>
        have hlt := h.completed j id status he
        show (if id = s.nextAudit then _ else none) = none
        rw [if_neg hlt.ne]
      | _ => rfl
    rw [outcome, hnone]
    rfl
  have hnew : (⟨s.nextAudit, time, some user.id, some user.role, .request method, path, .pending, 0⟩ : AuditEvent) =
      row s.history s.nextAudit user method path time := by
    rw [row, hpending]
  refine ⟨fun e he => ?_, ?_, fun j id status hc => ?_, fun j id u m p t hb => ?_, fun e he m ha => ?_⟩
  · rcases List.mem_append.1 he with he | he
    · exact (h.fresh e he).trans (Nat.lt_succ_self _)
    · rw [List.mem_singleton.1 he]
      exact Nat.lt_succ_self _
  · refine List.pairwise_append.2 ⟨h.unique, List.pairwise_singleton _ _, fun a ha b hb => ?_⟩
    rw [List.mem_singleton.1 hb]
    exact h.fresh a ha
  · rcases List.mem_cons.1 hc with heq | hc
    · cases heq
    · exact (h.completed j id status hc).trans (Nat.lt_succ_self _)
  · rcases List.mem_cons.1 hb with heq | hb
    · cases heq
      refine ⟨Nat.lt_succ_self _, Or.inl (List.mem_append_right _ (List.mem_singleton.2 ?_))⟩
      exact hnew.symm
    · obtain ⟨hlt, hrow⟩ := h.began j id u m p t hb
      refine ⟨hlt.trans (Nat.lt_succ_self _), ?_⟩
      rcases hrow with hrow | hexpired
      · exact Or.inl (List.mem_append_left _ hrow)
      · exact Or.inr (hexpired.mono (List.subset_cons_self _ _))
  · rcases List.mem_append.1 he with he | he
    · obtain ⟨j, u, hb, heq⟩ := h.rows e he m ha
      exact ⟨j, u, List.mem_cons_of_mem _ hb, heq⟩
    · have hrow := List.mem_singleton.1 he
      rw [hrow] at ha ⊢
      cases ha
      exact ⟨i, user, List.mem_cons_self, hnew⟩

/-- The result of a request is written down. -/
theorem completeAudit (h : Logged s) (i : ℕ) {id : ℕ} (status : ℕ) (hid : id < s.nextAudit) :
    Logged ((s.completeAudit id status).tell i [.completed id status]) := by
  have hsame : ∀ {id'}, id ≠ id' → outcome id' (⟨i, .completed id status⟩ :: s.history) = outcome id' s.history := by
    intro id' hne
    rw [outcome_cons, What.outcome, if_neg hne, Option.none_or]
    rfl
  have hset : outcome id (⟨i, .completed id status⟩ :: s.history) =
      (if 200 ≤ status ∧ status < 400 then .success else .failure, status) := by
    rw [outcome_cons, What.outcome, if_pos rfl]
    rfl
  -- the row of an event is the row it was, with the result that is written
  have hrow : ∀ e u m p t, e = row s.history e.id u m p t →
      (if e.id = id then { e with result := if 200 ≤ status ∧ status < 400 then .success else .failure, statusCode := status } else e) =
        row (⟨i, .completed id status⟩ :: s.history) e.id u m p t := by
    intro e u m p t he
    split
    · rename_i heq
      rw [row, heq, hset]
      rw [row] at he
      rw [he, heq]
    · rename_i hne
      rw [row_eq (hsame (Ne.symm hne))]
      exact he
  have hmap : ((s.completeAudit id status).tell i [.completed id status]).audit.map AuditEvent.id = s.audit.map AuditEvent.id := by
    show (s.audit.map _).map AuditEvent.id = _
    rw [List.map_map]
    refine List.map_congr_left fun e _ => ?_
    dsimp only [Function.comp]
    split <;> rfl
  refine ⟨fun e he => ?_, ?_, fun j id' status' hc => ?_, fun j id' u m p t hb => ?_, fun e he m ha => ?_⟩
  · obtain ⟨e', he', heq⟩ := List.mem_map.1 (hmap ▸ List.mem_map_of_mem (f := AuditEvent.id) he)
    rw [← heq]
    exact h.fresh e' he'
  · have hpairs : (s.audit.map AuditEvent.id).Pairwise (· < ·) := List.pairwise_map.2 h.unique
    rw [← hmap] at hpairs
    exact List.pairwise_map.1 hpairs
  · rcases List.mem_cons.1 hc with heq | hc
    · cases heq
      exact hid
    · exact h.completed j id' status' hc
  · rcases List.mem_cons.1 hb with heq | hb
    · cases heq
    · obtain ⟨hlt, hr⟩ := h.began j id' u m p t hb
      refine ⟨hlt, ?_⟩
      rcases hr with hr | hexpired
      · refine Or.inl (List.mem_map.2 ⟨_, hr, ?_⟩)
        exact hrow _ u m p t rfl
      · exact Or.inr (hexpired.mono (List.subset_cons_self _ _))
  · obtain ⟨e', he', rfl⟩ := List.mem_map.1 he
    have hsplit : (if e'.id = id then { e' with
        result := if 200 ≤ status ∧ status < 400 then Result.success else .failure, statusCode := status } else e').action = e'.action := by
      split <;> rfl
    rw [hsplit] at ha
    obtain ⟨j, u, hb, heq⟩ := h.rows e' he' m ha
    refine ⟨j, u, ?_, ?_⟩
    · split <;> exact List.mem_cons_of_mem _ hb
    · have hfields := hrow e' u m e'.target e'.occurredAt heq
      rw [hfields]
      rfl

end Logged

/-! ### Runs -/

section Statements

variable {c : Crypto} {i : ℕ} {s s' : State} {x : Outside}

/-- What users and tokens are changed by is not about the log. -/
theorem manage_logged (h : Logged s) (caller : User) (task : Task) : Logged (s.manage c i x caller task).2 := by
  have htell : ∀ (store : Store) (passwords : ℕ → Bytes) (whats : List What), (∀ what ∈ whats, what.logs = false) →
      Logged ({ s with store := store, passwords := passwords }.tell i whats) := by
    intro store passwords whats hq
    refine h.others (fun e he => ?_) rfl rfl rfl
    obtain ⟨what, hwhat, rfl⟩ := List.mem_map.1 he
    exact hq what hwhat
  have hpassword : ∀ id hash, ∀ what ∈ [What.hashed id hash, .managed], what.logs = false := by
    intro id hash what hwhat
    rcases List.mem_cons.1 hwhat with rfl | hwhat
    · rfl
    · rw [List.mem_singleton.1 hwhat]
      rfl
  unfold State.manage
  split
  · split
    · exact h
    · rename_i user t hs
      unfold State.createUser at hs
      split at hs
      · cases hs
      · split at hs <;> cases hs
        exact htell _ _ _ (hpassword _ _)
  · split
    · exact h
    · split
      · exact h
      · rename_i t hs
        unfold State.updateUserPassword at hs
        split at hs
        · cases hs
        · split at hs <;> cases hs
          exact htell _ _ _ (hpassword _ _)
  · refine htell _ s.passwords _ fun what hwhat => ?_
    rcases List.mem_append.1 hwhat with hwhat | hwhat
    · obtain ⟨id, -, rfl⟩ := List.mem_map.1 hwhat
      rfl
    · rw [List.mem_singleton.1 hwhat]
      rfl

/-- **One statement** of a call. -/
theorem act_logged (h : Logged s) {call : Call} {op : Op} {a : Ans op} (hallows : Allows call (Deed.own i s.history) op)
    (hact : act c i op x s = some (a, s')) : Logged s' := by
  have hquiet : ∀ {t : State} {es : List Event}, (∀ e ∈ es, e.what.logs = false) → t.audit = s.audit →
      t.nextAudit = s.nextAudit → t.history = es ++ s.history → Logged t := fun hq ha hn hh => h.others hq ha hn hh
  have hnil : ∀ e ∈ ([] : List Event), e.what.logs = false := fun e he => absurd he List.not_mem_nil
  have hone : ∀ {what : What}, what.logs = false → ∀ e ∈ [(⟨i, what⟩ : Event)], e.what.logs = false := by
    intro what hw e he
    rw [List.mem_singleton.1 he]
    exact hw
  cases op with
  | authenticateAPIToken raw =>
    cases hact
    cases (if x.fails then none else s.store.authenticateAPIToken x.now raw) with
    | none => exact hquiet hnil rfl rfl rfl
    | some f => exact hquiet (hone rfl) rfl rfl rfl
  | session token =>
    cases hact
    cases (if x.fails then none else s.session c x.now token) with
    | none => exact hquiet hnil rfl rfl rfl
    | some f => exact hquiet (hone rfl) rfl rfl rfl
  | beginAudit user method path =>
    simp only [act] at hact
    split at hact
    · cases hact
      exact h
    · split at hact
      · cases hact
        exact h.pruneAudit i x.now
      · cases hact
        exact (h.pruneAudit i x.now).beginAudit i user method path x.time
  | enter =>
    simp only [act] at hact
    split at hact
    · cases hact
      exact hquiet (hone rfl) rfl rfl rfl
    · cases hact
      exact h
  | authenticate username password =>
    cases hact
    cases (if x.fails then none else s.authenticate c username password) with
    | none => exact hquiet hnil rfl rfl rfl
    | some user => exact hquiet (hone rfl) rfl rfl rfl
  | createSession user =>
    simp only [act] at hact
    split at hact
    · cases hact
      exact h
    · split at hact
      · cases hact
        exact h
      · rename_i ht
        cases hact
        split at ht
        · cases ht
        · unfold State.createSession at ht
          split at ht <;> cases ht
          exact hquiet (hone rfl) rfl rfl rfl
  | audit userID action =>
    simp only [act] at hact
    split at hact
    · cases hact
      exact h
    · split at hact
      · cases hact
        exact h.pruneAudit i x.now
      · cases hact
        cases call with
        | start username password => cases hallows
        | request r => exact (h.pruneAudit i x.now).insertAudit hallows
  | revokeSession token =>
    simp only [act] at hact
    split at hact
    · cases hact
      exact h
    · cases hact
      exact hquiet (hone rfl) rfl rfl rfl
  | manage caller task =>
    have heq : (s.manage c i x caller task).2 = s' := congrArg Prod.snd (Option.some.inj hact)
    rw [← heq]
    exact manage_logged h caller task
  | deleteSessions id =>
    simp only [act] at hact
    split at hact <;> cases hact
    · exact h
    · exact hquiet hnil rfl rfl rfl
  | leave =>
    cases hact
    exact hquiet hnil rfl rfl rfl
  | completeAudit id status =>
    simp only [act] at hact
    split at hact
    · cases hact
      exact h
    · cases hact
      cases call with
      | start username password => cases hallows
      | request r =>
        obtain ⟨user, time, hbegan⟩ := hallows
        exact h.completeAudit i status (h.began i id user _ _ time (Deed.mem_own.1 hbegan)).1
  | bootstrap username password =>
    simp only [act] at hact
    split at hact
    · split at hact
      · cases hact
        exact h
      · rename_i user t hs
        cases hact
        unfold State.createUser at hs
        split at hs
        · cases hs
        · split at hs <;> cases hs
          exact hquiet (hone rfl) rfl rfl rfl
    · cases hact
      exact h

end Statements

/-- What the log says. -/
structure Audited (w : Requests) : Prop where
  unique : w.shared.audit.Pairwise (fun a b => a.id < b.id)
  /-- a row about a request is that of one that was let through, with its result -/
  rows : ∀ e ∈ w.shared.audit, ∀ method, e.action = .request method → ∃ i user,
    e = row w.shared.history e.id user method e.target e.occurredAt ∧ ∀ r p, w.threads[i]? = some (.request r, p) →
      method = r.method ∧ e.target = r.path ∧ ∃ caller, caller.user = user ∧ Passed r caller (Deed.own i w.shared.history)
  /-- a request that may change something and got as far as its handler has its row, until that has expired -/
  recorded : ∀ i r p, w.threads[i]? = some (.request r, p) → ⟨i, .entered⟩ ∈ w.shared.history →
    guarded r.cluster r.path = true → r.recorded = true → ∃ caller, Passed r caller (Deed.own i w.shared.history) ∧ ∃ id time,
      row w.shared.history id caller.user r.method r.path time ∈ w.shared.audit ∨ Expired w.shared.history time

/-- **The audit log.** In every run of requests, in any order of their statements and with any of them failing. -/
theorem audit_sound (c : Crypto) (turns : List Requests.Turn) :
    ∀ w ∈ run (Requests.step c) { shared := {} } turns, Audited w := by
  intro w hw
  have hlogged : Running c w ∧ Logged w.shared := by
    refine run_keeps (P := fun w => Running c w ∧ Logged w.shared) (fun w e w' h hs => ⟨step_running h.1 hs, ?_⟩) hw
      ⟨Running.start c, ⟨by simp, by simp, by simp, by simp, by simp⟩⟩
    cases e with
    | start call =>
      cases hs
      exact h.2
    | turn i x =>
      obtain ⟨call, op, k, a, s', hi, hact, rfl⟩ := Pool.step_turn hs
      obtain ⟨-, hallows, -⟩ := h.1.threads i call _ hi
      exact act_logged h.2 hallows hact
  obtain ⟨hrunning, hlogged⟩ := hlogged
  refine ⟨hlogged.unique, fun e he method ha => ?_, fun i r p hi hentered hg hrec => ?_⟩
  · obtain ⟨i, user, hbegan, heq⟩ := hlogged.rows e he method ha
    refine ⟨i, user, heq, fun r p hi => ?_⟩
    obtain ⟨before, hsub, hmethod, hpath, caller, hcaller, hpassed⟩ := ((hrunning.threads i _ p hi).1 r rfl).of_mem hbegan
    exact ⟨hmethod, hpath, caller, hcaller, hpassed.mono (Deed.own_subset hsub)⟩
  · obtain ⟨before, hsub, hcleared⟩ := ((hrunning.threads i _ p hi).1 r rfl).of_mem hentered
    obtain ⟨caller, hpassed, hbegan⟩ := hcleared hg
    obtain ⟨id, time, hbegan⟩ := hbegan hrec
    exact ⟨caller, hpassed.mono (Deed.own_subset hsub), id, time,
      (hlogged.began i id _ _ _ time (hsub (Deed.mem_own.1 hbegan))).2⟩

open Visit in
/-- The login and the creation of a user are in the log. -/
theorem audit_sound_visit : ∃ w, run (Requests.step crypto) { shared := {} } turns = some w ∧ Audited w ∧
    w.shared.audit.map (fun e => (e.userID, e.action, e.result)) =
      [(some 1, .login, .success), (some 1, .request .post, .success)] := by
  have hend : (run (Requests.step crypto) { shared := {} } turns).any (fun w =>
      w.shared.audit.map (fun e => (e.userID, e.action, e.result)) =
        [(some 1, .login, .success), (some 1, .request .post, .success)]) = true := by
    decide +kernel
  obtain ⟨w, hw, hrows⟩ := (Option.any_eq_true _ _).1 hend
  exact ⟨w, hw, audit_sound crypto turns w hw, of_decide_eq_true hrows⟩

end Velora.Api.Sessions
