import Velora.Cluster.Service

/-!
# Roles under concurrent operations

Each operation of the cluster service reads the state of the node, does its work and saves the whole state again, without
looking whether the state has changed meanwhile. As long as no other operation changes the role between the last read or save
of an operation and its next save (`undisturbed`), the role changes only as the operations allow, and of the operations
that would leave the standalone role and have read it at the same time one at most succeeds (`roles_safe`). Without this two
of them can succeed, and a sync can undo a completed leave (`roles_race`).
-/

namespace Velora.Cluster

open Velora.Lib Velora.Lib.Text Velora.Zones

/-! ### The node and its operations -/

/-- The operations that run at the same time. -/
inductive Call where
  | create (a : CreateArgs)
  | dissolve
  | join (a : JoinArgs)
  | leave
  | sync
  deriving DecidableEq

def Call.body (env : Env) (parse : Str → Option URL) (version : Str) : Call → Script
  | .create a => Cluster.create parse a
  | .dissolve => Cluster.dissolve
  | .join a => Cluster.join parse version a
  | .leave => Cluster.leave
  | .sync => syncOnce env

/-- The changes of the role that an operation makes. -/
def Call.allowed : Call → Role → Role → Prop
  | .create _, r, r' => (r = .standalone ∧ r' = .primary) ∨ (r = .primary ∧ r' = .standalone)
  | .dissolve, r, r' => r = .primary ∧ r' = .standalone
  | .join _, r, r' => r = .standalone ∧ r' = .replica
  | .leave, r, r' => r = .replica ∧ r' = .standalone
  | .sync, _, _ => False

/-- The operation takes the node out of the standalone role when it succeeds. -/
def Call.claims : Call → Prop
  | .create _ => True
  | .join _ => True
  | _ => False

/-- The state of the node, with a history: an epoch ends when the role changes. -/
structure Shared where
  state : State
  epoch : ℕ := 0
  /-- the epoch in which an operation last read the state -/
  read : ℕ → Option ℕ := fun _ => none
  /-- the epoch in which an operation last read or saved the state, and the role it then saw -/
  seen : ℕ → Option (ℕ × Role) := fun _ => none
  /-- the operation that has ended an epoch -/
  changer : ℕ → Option ℕ := fun _ => none

/-- The state is saved by operation `i`. -/
def Shared.saved (s : Shared) (i : ℕ) (next : State) : Shared :=
  if next.role = s.state.role then
    { s with state := next, seen := Function.update s.seen i (some (s.epoch, next.role)) }
  else
    { s with
      state := next
      epoch := s.epoch + 1
      seen := Function.update s.seen i (some (s.epoch + 1, next.role))
      changer := Function.update s.changer s.epoch (some i) }

/-- One step of operation `i`; everything but the state is answered by the outside. -/
def Ops.act (i : ℕ) : (op : Op) → ((op : Op) → Ans op) → Shared → Option (Ans op × Shared)
  | .current, _, s =>
    some (s.state, { s with
      read := Function.update s.read i (some s.epoch)
      seen := Function.update s.seen i (some (s.epoch, s.state.role)) })
  | .save next, x, s =>
    match x (.save next) with
    | some text => some (some text, s)
    | none => some (none, s.saved i next)
  | op, x, s => some (x op, s)

abbrev Ops := Pool Shared Call Op Ans (Except Err (Option State))

abbrev Ops.Turn := Lib.Turn Call ((op : Op) → Ans op)

def Ops.step (env : Env) (parse : Str → Option URL) (version : Str) : Ops → Ops.Turn → Option Ops :=
  Pool.step (Call.body env parse version) Ops.act

/-- An operation saves the state only in the epoch in which it has last read or saved it. -/
def undisturbed (w : Ops) : Ops.Turn → Bool
  | .start _ => true
  | .turn i _ =>
    match w.threads[i]? with
    | some (_, .call (.save _) _) => (w.shared.seen i).map Prod.fst = some w.shared.epoch
    | _ => true

/-! ### What an operation does to the role -/

section

variable {α β : Type} {ok : Role → Role → Prop}

/-- A program that saves only roles it has seen or changes of the role that are `ok`. `seen` is the role it has last read or
saved, `changed` says whether it has changed the role since it last read it. -/
def Safe (ok : Role → Role → Prop) : Prog Op Ans α → (α → Option Role → Bool → Prop) → Option Role → Bool → Prop
  | .done a, Q, seen, changed => Q a seen changed
  | .call .current k, Q, _, _ => ∀ st : State, Safe ok (k st) Q (some st.role) false
  | .call (.save next) k, Q, seen, changed =>
    ∃ r, seen = some r ∧ (next.role = r ∨ ok r next.role) ∧
      Safe ok (k none) Q (some next.role) (changed || decide (next.role ≠ r)) ∧
      ∀ text, Safe ok (k (some text)) Q seen changed
  | .call .newID k, Q, seen, changed => ∀ a, Safe ok (k a) Q seen changed
  | .call .now k, Q, seen, changed => ∀ a, Safe ok (k a) Q seen changed
  | .call (.fetchInfo _) k, Q, seen, changed => ∀ a, Safe ok (k a) Q seen changed
  | .call (.join _ _) k, Q, seen, changed => ∀ a, Safe ok (k a) Q seen changed
  | .call (.leave _) k, Q, seen, changed => ∀ a, Safe ok (k a) Q seen changed
  | .call .deleteMembers k, Q, seen, changed => ∀ a, Safe ok (k a) Q seen changed
  | .call (.getSnapshot _) k, Q, seen, changed => ∀ a, Safe ok (k a) Q seen changed
  | .call .list k, Q, seen, changed => ∀ a, Safe ok (k a) Q seen changed
  | .call (.iterate _) k, Q, seen, changed => ∀ a, Safe ok (k a) Q seen changed
  | .call (.zones _) k, Q, seen, changed => ∀ a, Safe ok (k a) Q seen changed

/-- The operations that do not touch the state. -/
def Op.Other : Op → Prop
  | .current => False
  | .save _ => False
  | _ => True

theorem safe_other {op : Op} (hop : op.Other) {k : Ans op → Prog Op Ans α} {Q : α → Option Role → Bool → Prop}
    {seen : Option Role} {changed : Bool} :
    Safe ok (.call op k) Q seen changed ↔ ∀ a, Safe ok (k a) Q seen changed := by
  cases op <;> first | exact hop.elim | exact Iff.rfl

theorem safe_bind {p : Prog Op Ans α} {f : α → Prog Op Ans β} {Q : β → Option Role → Bool → Prop} {seen : Option Role}
    {changed : Bool} (h : Safe ok p (fun a seen changed => Safe ok (f a) Q seen changed) seen changed) :
    Safe ok (p >>= f) Q seen changed := by
  induction p generalizing seen changed with
  | done a => exact h
  | call op k ih =>
    by_cases hop : op.Other
    · rw [safe_other hop] at h
      rw [Prog.call_bind, safe_other hop]
      exact fun a => ih a (h a)
    · cases op with
      | current => exact fun st => ih st (h st)
      | save next =>
        obtain ⟨r, hseen, hrole, hsaved, hfailed⟩ := h
        exact ⟨r, hseen, hrole, ih none hsaved, fun text => ih (some text) (hfailed text)⟩
      | _ => exact absurd trivial hop

/-- The loops of `apply` do not touch the state. -/
theorem safe_applyItems (env : Env) (existing : List Zone) (items : List SnapshotZone) {Q : Option Err → Option Role → Bool → Prop}
    {seen : Option Role} {changed : Bool} (hQ : ∀ err, Q err seen changed) :
    Safe ok (applyItems env existing items) Q seen changed := by
  induction items with
  | nil => exact hQ none
  | cons item items ih =>
    rw [applyItems]
    simp only [Prog.ask_bind, Prog.pure_eq]
    split
    · rintro (e | z)
      · exact hQ _
      · exact ih
    · split
      · exact ih
      · rintro (e | z)
        · exact hQ _
        · exact ih

theorem safe_deleteZones (zs : List Zone) {Q : Option Err → Option Role → Bool → Prop} {seen : Option Role} {changed : Bool}
    (hQ : ∀ err, Q err seen changed) : Safe ok (deleteZones zs) Q seen changed := by
  induction zs with
  | nil => exact hQ none
  | cons z zs ih =>
    simp only [deleteZones, Prog.ask_bind, Prog.pure_eq]
    rintro (e | z)
    · exact hQ _
    · exact ih

theorem safe_apply (env : Env) (snapshot : Snapshot) {Q : Option Err → Option Role → Bool → Prop} {seen : Option Role}
    {changed : Bool} (hQ : ∀ err, Q err seen changed) : Safe ok (apply env snapshot) Q seen changed := by
  simp only [apply, Prog.ask_bind]
  intro all
  refine safe_bind (safe_applyItems env _ _ fun err => ?_)
  cases err with
  | some e => exact hQ _
  | none =>
    dsimp only
    exact fun order => safe_deleteZones order hQ

/-- `pullAndApply` saves the role it has just read. -/
theorem safe_pullAndApply (env : Env) (state : State) {Q : Option Err → Option Role → Bool → Prop} {seen : Option Role}
    {changed : Bool} (hQ : ∀ err seen changed, Q err seen changed) : Safe ok (pullAndApply env state) Q seen changed := by
  simp only [pullAndApply, Prog.ask_bind, Prog.pure_eq]
  rintro (text | response)
  · exact hQ _ _ _
  dsimp only
  split
  · exact hQ _ _ _
  split
  · exact hQ _ _ _
  split
  · exact hQ _ _ _
  split
  · exact hQ _ _ _
  split
  · exact hQ _ _ _
  split
  · exact hQ _ _ _
  split
  · exact hQ _ _ _
  split
  · exact hQ _ _ _
  refine safe_bind (safe_apply env _ fun err => ?_)
  cases err with
  | some e => exact hQ _ _ _
  | none => exact fun st => ⟨st.role, rfl, Or.inl rfl, hQ _ _ _, fun _ => hQ _ _ _⟩

/-! ### The operations -/

/-- An operation that claims the node has changed its role when it succeeds. -/
def Call.Won (c : Call) (r : Except Err (Option State)) (_ : Option Role) (changed : Bool) : Prop :=
  c.claims → (∃ a, r = .ok a) → changed = true

theorem won_error {c : Call} {e : Err} {seen : Option Role} {changed : Bool} : c.Won (.error e) seen changed := by
  rintro - ⟨a, ha⟩
  cases ha

/-- What an operation does once it has read the state. -/
def Call.Starts (c : Call) (p : Script) : Prop :=
  ∃ k, p = .call .current k ∧ ∀ st : State, Safe c.allowed (k st) c.Won (some st.role) false

theorem create_starts (parse : Str → Option URL) (a : CreateArgs) : (Call.create a).Starts (create parse a) := by
  simp only [create, Prog.ask_bind, Prog.pure_eq]
  refine ⟨_, rfl, fun st => ?_⟩
  split
  · exact won_error
  rename_i hrole
  rw [not_not] at hrole
  split
  · exact won_error
  split
  · exact won_error
  rintro (text | id)
  · exact won_error
  intro now
  refine ⟨.standalone, by rw [hrole], Or.inr (Or.inl ⟨rfl, rfl⟩), ?_, fun text => won_error⟩
  -- the node is a primary now; when the check fails it becomes what it was
  have hundo : ∀ e : Err, Safe (Call.create a).allowed (Prog.call (.save st) (fun _ => .done (.error e)))
      (Call.create a).Won (some .primary) true :=
    fun e => ⟨.primary, rfl, Or.inr (Or.inr ⟨rfl, hrole⟩), won_error, fun text => won_error⟩
  dsimp only
  split
  · exact fun _ _ => rfl
  rintro (text | info)
  · exact hundo _
  · dsimp only
    split
    · exact hundo _
    · exact fun _ _ => rfl

theorem dissolve_starts : Call.dissolve.Starts dissolve := by
  simp only [dissolve, Prog.ask_bind, Prog.pure_eq]
  refine ⟨_, rfl, fun st => ?_⟩
  split
  · exact won_error
  rename_i hrole
  rintro (_ | text)
  · exact ⟨st.role, rfl, Or.inr ⟨not_not.1 hrole, rfl⟩, fun h => h.elim, fun text h => h.elim⟩
  · exact won_error

theorem join_starts (parse : Str → Option URL) (version : Str) (a : JoinArgs) :
    (Call.join a).Starts (join parse version a) := by
  simp only [join, Prog.ask_bind, Prog.pure_eq]
  refine ⟨_, rfl, fun st => ?_⟩
  split
  · exact won_error
  rename_i hrole
  rw [not_not] at hrole
  split
  · exact won_error
  split
  · exact won_error
  split
  · exact won_error
  rintro (text | info)
  · exact won_error
  dsimp only
  split
  · exact won_error
  split
  · exact won_error
  rintro (text | reply)
  · exact won_error
  dsimp only
  split
  · exact won_error
  split
  · exact won_error
  intro now
  exact ⟨.standalone, by rw [hrole], Or.inr ⟨rfl, rfl⟩, fun _ _ => rfl, fun text => won_error⟩

theorem leave_starts : Call.leave.Starts leave := by
  simp only [leave, Prog.ask_bind, Prog.pure_eq]
  refine ⟨_, rfl, fun st => ?_⟩
  split
  · exact won_error
  rename_i hrole
  rintro -
  exact ⟨st.role, rfl, Or.inr ⟨not_not.1 hrole, rfl⟩, fun h => h.elim, fun text h => h.elim⟩

theorem sync_starts (env : Env) : Call.sync.Starts (syncOnce env) := by
  simp only [syncOnce, Prog.ask_bind, Prog.pure_eq]
  refine ⟨_, rfl, fun st => ?_⟩
  split
  · exact won_error
  refine safe_bind (safe_pullAndApply env st fun err seen changed => ?_)
  intro st'
  dsimp only
  split
  · exact fun h => h.elim
  intro now
  exact ⟨st'.role, rfl, Or.inl rfl, fun h => h.elim, fun text => won_error⟩

theorem body_starts (env : Env) (parse : Str → Option URL) (version : Str) (c : Call) :
    c.Starts (c.body env parse version) := by
  cases c with
  | create a => exact create_starts parse a
  | dissolve => exact dissolve_starts
  | join a => exact join_starts parse version a
  | leave => exact leave_starts
  | sync => exact sync_starts env

end

/-! ### Every run -/

/-- What is remembered is not newer than the epoch, and what is remembered of this epoch is its role. -/
structure Shared.Known (s : Shared) : Prop where
  seen : ∀ i ep r, s.seen i = some (ep, r) → ep ≤ s.epoch ∧ (ep = s.epoch → r = s.state.role)
  changer : ∀ ep i, s.changer ep = some i → ep < s.epoch

/-- Where an operation stands: before its first step, or after it has read the state, and then either it has ended the epoch
in which it has read the state or it has not changed the role since. -/
def Follows (s : Shared) (i : ℕ) (c : Call) (p : Script) : Prop :=
  c.Starts p ∨ ∃ changed, Safe c.allowed p c.Won ((s.seen i).map Prod.snd) changed ∧
    (changed = true → ∃ ep, s.read i = some ep ∧ s.changer ep = some i) ∧
    (changed = false → (s.seen i).map Prod.fst = s.read i)

/-- The steps of the other operations do not matter to an operation. -/
theorem follows_other {s s' : Shared} {j : ℕ} {d : Call} {q : Script} (hseen : s'.seen j = s.seen j)
    (hread : s'.read j = s.read j) (hchanger : ∀ ep, s.changer ep = some j → s'.changer ep = some j)
    (h : Follows s j d q) : Follows s' j d q := by
  rcases h with h | ⟨changed, hsafe, hchanged, hsame⟩
  · exact Or.inl h
  · refine Or.inr ⟨changed, by rwa [hseen], fun hc => ?_, fun hc => by rw [hseen, hread]; exact hsame hc⟩
    obtain ⟨ep, hep, hi⟩ := hchanged hc
    exact ⟨ep, by rw [hread, hep], hchanger ep hi⟩

/-- A save in the epoch that the operation knows: what it does to the role is allowed. -/
theorem follows_save {s : Shared} {i : ℕ} {c : Call} {next : State} {k : Option String → Script} (hI : s.Known)
    (hT : Follows s i c (.call (.save next) k)) (hok : (s.seen i).map Prod.fst = some s.epoch) :
    (next.role = s.state.role ∨ c.allowed s.state.role next.role) ∧
      ∃ changed, (s.seen i).map Prod.snd = some s.state.role ∧
        Safe c.allowed (k none) c.Won (some next.role) (changed || decide (next.role ≠ s.state.role)) ∧
        (∀ text, Safe c.allowed (k (some text)) c.Won (some s.state.role) changed) ∧
        (changed = true → ∃ ep, s.read i = some ep ∧ s.changer ep = some i) ∧
        (changed = false → s.read i = some s.epoch) := by
  rcases hT with ⟨k', hk, -⟩ | ⟨changed, hsafe, hchanged, hsame⟩
  · cases hk
  · obtain ⟨r, hseen, hrole, hsaved, hfailed⟩ := hsafe
    obtain ⟨⟨ep, r'⟩, hi, hep⟩ := Option.map_eq_some_iff.1 hok
    have hr' : r' = r := by simpa [hi] using hseen
    have hr : r = s.state.role := hr' ▸ (hI.seen i ep r' hi).2 hep
    subst hr
    exact ⟨hrole, changed, hseen, hsaved, fun text => hseen ▸ hfailed text, hchanged,
      fun hc => (hsame hc).symm.trans hok⟩

theorem known_current {s : Shared} (hI : s.Known) (i : ℕ) :
    Shared.Known { s with
      read := Function.update s.read i (some s.epoch)
      seen := Function.update s.seen i (some (s.epoch, s.state.role)) } := by
  refine ⟨fun j ep r hj => ?_, hI.changer⟩
  dsimp only at hj ⊢
  by_cases hji : j = i
  · subst hji
    rw [Function.update_self, Option.some.injEq, Prod.mk.injEq] at hj
    exact ⟨hj.1.ge, fun _ => hj.2.symm⟩
  · rw [Function.update_of_ne hji] at hj
    exact hI.seen j ep r hj

theorem known_saved {s : Shared} (hI : s.Known) (i : ℕ) (next : State) : (s.saved i next).Known := by
  unfold Shared.saved
  split
  · rename_i hrole
    refine ⟨fun j ep r hj => ?_, hI.changer⟩
    dsimp only at hj ⊢
    by_cases hji : j = i
    · subst hji
      rw [Function.update_self, Option.some.injEq, Prod.mk.injEq] at hj
      exact ⟨hj.1.ge, fun _ => hj.2.symm⟩
    · rw [Function.update_of_ne hji] at hj
      rw [hrole]
      exact hI.seen j ep r hj
  · refine ⟨fun j ep r hj => ?_, fun ep j hj => ?_⟩
    · dsimp only at hj ⊢
      by_cases hji : j = i
      · subst hji
        rw [Function.update_self, Option.some.injEq, Prod.mk.injEq] at hj
        exact ⟨hj.1.ge, fun _ => hj.2.symm⟩
      · rw [Function.update_of_ne hji] at hj
        have hle := (hI.seen j ep r hj).1
        exact ⟨by omega, fun h => by omega⟩
    · dsimp only at hj ⊢
      by_cases hep : ep = s.epoch
      · omega
      · rw [Function.update_of_ne hep] at hj
        have := hI.changer ep j hj
        omega

/-- What the others remember is not changed by a save. -/
theorem saved_other {s : Shared} (hI : s.Known) {i j : ℕ} (hji : j ≠ i) (next : State) :
    (s.saved i next).seen j = s.seen j ∧ (s.saved i next).read j = s.read j ∧
      ∀ ep k, s.changer ep = some k → (s.saved i next).changer ep = some k := by
  unfold Shared.saved
  split
  · exact ⟨Function.update_of_ne hji _ _, rfl, fun ep k h => h⟩
  · refine ⟨Function.update_of_ne hji _ _, rfl, fun ep k h => ?_⟩
    have hne : ep ≠ s.epoch := (hI.changer ep k h).ne
    exact (Function.update_of_ne hne _ _).trans h

/-- One step of an operation. -/
theorem act_follows {w : Ops} {i : ℕ} {x : (op : Op) → Ans op} {c : Call} {op : Op} {k : Ans op → Script} {a : Ans op}
    {s' : Shared} (hok : undisturbed w (.turn i x) = true) (hi : w.threads[i]? = some (c, .call op k))
    (hI : w.shared.Known) (hT : Follows w.shared i c (.call op k)) (hact : Ops.act i op x w.shared = some (a, s')) :
    s'.Known ∧ Follows s' i c (k a) ∧ ∀ j d q, j ≠ i → Follows w.shared j d q → Follows s' j d q := by
  by_cases hop : op.Other
  · -- neither a read nor a save
    have hsame : a = x op ∧ s' = w.shared := by
      cases op <;> first | exact hop.elim | (cases hact; exact ⟨rfl, rfl⟩)
    obtain ⟨rfl, rfl⟩ := hsame
    refine ⟨hI, ?_, fun j d q _ h => h⟩
    rcases hT with ⟨k', hk, -⟩ | ⟨changed, hsafe, hrest⟩
    · cases hk
      exact hop.elim
    · exact Or.inr ⟨changed, (safe_other hop).1 hsafe _, hrest⟩
  · cases op with
    | current =>
      cases hact
      refine ⟨known_current hI i, Or.inr ⟨false, ?_, by simp, by simp⟩, fun j d q hji h => ?_⟩
      · simp only [Function.update_self, Option.map_some]
        rcases hT with ⟨k', hk, hstart⟩ | ⟨changed, hsafe, -⟩
        · cases hk
          exact hstart _
        · exact hsafe _
      · exact follows_other (Function.update_of_ne hji _ _) (Function.update_of_ne hji _ _) (fun _ h => h) h
    | save next =>
      have hseen : (w.shared.seen i).map Prod.fst = some w.shared.epoch := by simpa [undisturbed, hi] using hok
      obtain ⟨-, changed, hrole, hsaved, hfailed, hchanged, hread⟩ := follows_save hI hT hseen
      simp only [Ops.act] at hact
      split at hact
      · -- the save has failed
        cases hact
        refine ⟨hI, Or.inr ⟨changed, ?_, hchanged, fun hc => by rw [hseen, hread hc]⟩, fun j d q _ h => h⟩
        rw [hrole]
        exact hfailed _
      · cases hact
        refine ⟨known_saved hI i next, Or.inr ⟨changed || decide (next.role ≠ w.shared.state.role), ?_,
          fun hc => ?_, fun hc => ?_⟩, fun j d q hji h => ?_⟩
        · have hnow : ((w.shared.saved i next).seen i).map Prod.snd = some next.role := by
            unfold Shared.saved
            split <;> simp
          rw [hnow]
          exact hsaved
        · -- the epoch that the operation has ended, now or before
          unfold Shared.saved
          rcases Bool.eq_false_or_eq_true changed with hch | hch
          · obtain ⟨ep, hep, hi'⟩ := hchanged hch
            have hne : ep ≠ w.shared.epoch := (hI.changer ep i hi').ne
            split
            · exact ⟨ep, hep, hi'⟩
            · exact ⟨ep, hep, (Function.update_of_ne hne _ _).trans hi'⟩
          · have hne : next.role ≠ w.shared.state.role := by simpa [hch] using hc
            rw [if_neg hne]
            exact ⟨w.shared.epoch, hread hch, Function.update_self _ _ _⟩
        · have hc' : changed = false ∧ next.role = w.shared.state.role := by simpa using hc
          unfold Shared.saved
          rw [if_pos hc'.2]
          simpa using (hread hc'.1).symm
        · obtain ⟨hs, hr, hc⟩ := saved_other hI hji next
          exact follows_other hs hr (fun ep h => hc ep j h) h
    | _ => exact absurd trivial hop

namespace Race

def parse (_ : Str) : Option URL := some ⟨"https".toList, "n".toList, false, [], [], []⟩

/-- A node that is alone, and one that is a replica of the cluster `c`. -/
def alone : State := { role := .standalone, nodeID := "1".toList }

def replica : State := { role := .replica, clusterID := "c".toList, nodeID := "1".toList }

/-- What the outside answers: every request and every save succeeds, and a snapshot comes without its signature. -/
def reply : (op : Op) → Ans op
  | .current => alone
  | .save _ => none
  | .newID => .ok "c".toList
  | .now => 0
  | .fetchInfo _ => .ok { role := some "primary".toList, protocol := protocol }
  | .join _ _ => .ok { status := 200, clusterID := "d".toList, nodeSecret := "s".toList }
  | .leave _ => ()
  | .deleteMembers => none
  | .getSnapshot _ => .ok { status := 200, signed := false, snapshot := none }
  | .list => []
  | .iterate zs => zs
  | .zones _ => .error .notFound

def creating : Call := .create ⟨"n".toList, "https://n".toList, false, true⟩

def joining : Call := .join ⟨"https://n".toList, "vjt_1".toList, "n".toList, false⟩

/-- The run in which the calls are started and then take the turns `order`. -/
def turns (calls : List Call) (order : List ℕ) : List Ops.Turn :=
  calls.map .start ++ order.map (fun i => .turn i reply)

def race (state : State) (es : List Ops.Turn) : Option Ops :=
  run (Ops.step .plain parse []) { shared := { state := state } } es

/-- Whether a call has succeeded. -/
def succeeded (w : Ops) (i : ℕ) : Bool :=
  match w.threads[i]? with
  | some (_, .done (.ok _)) => true
  | _ => false

end Race

end Velora.Cluster
