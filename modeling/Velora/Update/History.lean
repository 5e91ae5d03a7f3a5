import Velora.Lib.Prog
import Velora.Lib.Loops
import Velora.Update.Manager

/-!
# The history of updates

The manager of `Velora.Update.Manager` under any calls. `Fail`, `Complete` and `RollbackWithError` move the attempt to the
history, and `Transition` does not, also where it ends the attempt: `ends` says which attempt a call ends, and the history holds
all that have ended as long as no `Transition` is such a call.
-/

namespace Velora.Update

open Velora.Lib

/-- `RollbackWithError`; the cause may be missing. -/
def Manager.rollback (m : Manager) (now id : ℕ) (cause : Option String) : Except String Manager := do
  let entry ← m.matching id
  .ok (m.archive { entry with
    state := .rolledBack, completedAt := now, rollbackUsed := true, readinessOK := true, error := cause.getD entry.error })

theorem Manager.rollback_some (m : Manager) (now id : ℕ) (cause : String) :
    m.rollback now id (some cause) = m.rollbackWithError now id cause := rfl

/-- `NewManager`, what it makes of `MaxHistory`. -/
def newManager (maxHistory : ℕ) : Manager where
  maxHistory := if maxHistory = 0 then 20 else maxHistory

/-! ### Calls -/

/-- A call of the manager with what it reads from the clock. -/
inductive Call where
  | begin (now : ℕ) (fromVersion toVersion deploymentMode channel : String)
  | transition (id : ℕ) (newState : State)
  | fail (now id : ℕ) (err : String)
  | complete (now id : ℕ)
  | rollback (now id : ℕ) (cause : Option String)
  deriving DecidableEq

/-- The state in which the call leaves an attempt that it moves to the history. -/
def Call.final : Call → Option State
  | .fail .. => some .failed
  | .complete .. => some .completed
  | .rollback .. => some .rolledBack
  | _ => none

/-- The attempt that the call is for. -/
def Call.id? : Call → Option ℕ
  | .begin .. => none
  | .transition id _ | .fail _ id _ | .complete _ id | .rollback _ id _ => some id

namespace Manager

/-- What the call answers, with the manager as it leaves it. -/
def answer (m : Manager) : Call → Except String Manager
  | .begin now fromVersion toVersion mode channel => (m.begin now fromVersion toVersion mode channel).map Prod.snd
  | .transition id newState => m.transition id newState
  | .fail now id err => m.fail now id err
  | .complete now id => m.complete now id
  | .rollback now id cause => m.rollback now id cause

/-- The manager after the call; one that fails leaves it alone. -/
def after (m : Manager) (c : Call) : Manager := (m.answer c).toOption.getD m

/-- All attempts the manager knows of. -/
def entries (m : Manager) : List Entry := m.current.toList ++ m.history

/-- The attempt that was under way and is over in `m'`, as it is there. -/
def ends (m m' : Manager) : Option Entry := do
  let e ← m.current
  guard e.state.unfinished
  m'.entries.find? (fun x => x.id = e.id && !x.state.unfinished)

variable {m : Manager} {c : Call} {e : Entry} {id : ℕ}

theorem matching_eq : m.matching id = .ok e ↔ m.current = some e ∧ e.id = id := by
  unfold matching
  split
  · rename_i entry hm
    split
    · rename_i hid
      simp only [Except.ok.injEq, hm, Option.some.injEq]
      constructor
      · rintro rfl
        exact ⟨rfl, hid⟩
      · exact fun h => h.1
    · rename_i hid
      simp only [reduceCtorEq, hm, Option.some.injEq, false_iff, not_and]
      rintro rfl
      exact hid
  · rename_i hm
    simp [hm]

/-- What a call may do. -/
inductive Effect (m : Manager) (c : Call) : Manager → Prop
  | refused (herr : (m.answer c).toOption = none) : Effect m c m
  | begun (e : Entry) (hc : ∃ a b x y, c = .begin e.id a b x y) (hidle : m.isUpdating = false) (hstate : e.state = .downloading) :
      Effect m c { m with current := some e }
  | moved (e : Entry) (newState : State) (hm : m.current = some e) (hc : c = .transition e.id newState)
      (hv : newState ∈ valid e.state) : Effect m c { m with current := some { e with state := newState } }
  | archived (e e' : Entry) (hm : m.current = some e) (hc : c.id? = some e.id) (hid : e'.id = e.id)
      (hfinal : c.final = some e'.state) : Effect m c (m.archive e')

/-- **What a call does.** -/
theorem after_effect (m : Manager) (c : Call) : Effect m c (m.after c) := by
  unfold after
  cases hanswer : m.answer c with
  | error err => exact .refused (by rw [hanswer]; rfl)
  | ok m' =>
    simp only [Except.toOption, Option.getD_some]
    cases c with
    | begin now a b x y =>
      simp only [answer, begin] at hanswer
      split at hanswer
      · cases hanswer
      · rename_i hidle
        obtain rfl := Except.ok.inj hanswer
        exact .begun _ ⟨a, b, x, y, rfl⟩ (by simpa using hidle) rfl
    | transition id newState =>
      obtain ⟨e, he, hmoved⟩ := Loops.bind_eq_ok.1 hanswer
      obtain ⟨hm, rfl⟩ := matching_eq.1 he
      split at hmoved
      · rename_i hv
        obtain rfl := Except.ok.inj hmoved
        exact .moved e newState hm rfl hv
      · cases hmoved
    | fail now id err =>
      obtain ⟨e, he, hover⟩ := Loops.bind_eq_ok.1 hanswer
      obtain ⟨hm, rfl⟩ := matching_eq.1 he
      obtain rfl := Except.ok.inj hover
      exact .archived e _ hm rfl rfl rfl
    | complete now id =>
      obtain ⟨e, he, hover⟩ := Loops.bind_eq_ok.1 hanswer
      obtain ⟨hm, rfl⟩ := matching_eq.1 he
      obtain rfl := Except.ok.inj hover
      exact .archived e _ hm rfl rfl rfl
    | rollback now id cause =>
      obtain ⟨e, he, hover⟩ := Loops.bind_eq_ok.1 hanswer
      obtain ⟨hm, rfl⟩ := matching_eq.1 he
      obtain rfl := Except.ok.inj hover
      exact .archived e _ hm rfl rfl rfl

/-- A call with another id than that of the attempt under way changes nothing. -/
theorem after_of_ne (hid : c.id? = some id) (hne : ∀ e, m.current = some e → e.id ≠ id) : m.after c = m := by
  have heffect := after_effect m c
  generalize m.after c = m' at heffect
  cases heffect with
  | refused => rfl
  | begun e hc =>
    obtain ⟨a, b, x, y, rfl⟩ := hc
    cases hid
  | moved e newState hm hc hv =>
    subst hc
    exact absurd (Option.some.inj hid) (hne e hm)
  | archived e e' hm hc => exact absurd (Option.some.inj (hc.symm.trans hid)) (hne e hm)

/-- What is left of a history of which the oldest entries are dropped. -/
theorem archive_history (m : Manager) (e : Entry) :
    (m.archive e).history = (m.history ++ [e]).drop ((m.history ++ [e]).length - m.maxHistory) := by
  unfold archive
  dsimp only
  split
  · rfl
  · rename_i hle
    rw [Nat.sub_eq_zero_of_le (not_lt.1 hle), List.drop_zero]

theorem final_over {s : State} (h : c.final = some s) : s.unfinished = false := by
  cases c <;> simp only [Call.final, reduceCtorEq, Option.some.injEq] at h <;> subst h <;> rfl

end Manager

/-! ### Runs -/

/-- A manager with what it has been asked for. -/
structure System where
  manager : Manager
  /-- history: the ids of the attempts that were begun -/
  begun : List ℕ := []
  /-- history: the attempts that are over, in the order in which they have ended, each as it was then -/
  ended : List Entry := []
  deriving DecidableEq

namespace System

def new (maxHistory : ℕ) : System where
  manager := newManager maxHistory

/-- A call; an attempt that is begun has an id of its own. -/
def step (s : System) (c : Call) : Option System :=
  let ended := s.ended ++ (s.manager.ends (s.manager.after c)).toList
  match c with
  | .begin now .. =>
    if s.manager.isUpdating then some s
    else if now ∈ s.begun then none
    else some { manager := s.manager.after c, begun := now :: s.begun, ended := ended }
  | _ => some { s with manager := s.manager.after c, ended := ended }

/-- **The history holds the attempts that are over**, each of them once and as it was when it ended, in this order; at the
limit the first ones are left out. -/
def Recorded (s : System) : Prop := s.manager.history = s.ended.drop (s.ended.length - s.manager.maxHistory)

/-- The call is no transition of the attempt under way to a state in which it is over. -/
def archives (s : System) : Call → Bool
  | .transition id newState =>
    !(s.manager.current.any (fun e => e.id = id && newState ∈ Manager.valid e.state) && !newState.unfinished)
  | _ => true

/-- What holds of the ids, and of an attempt under way that is over. -/
structure Distinct (s : System) : Prop where
  entries : (s.manager.entries.map Entry.id).Nodup
  begun : ∀ e ∈ s.manager.entries, e.id ∈ s.begun
  ended : (s.ended.map Entry.id).Nodup
  known : ∀ e ∈ s.ended, e.id ∈ s.begun
  unfinished : ∀ e, s.manager.current = some e → e.state.unfinished = true → e.id ∉ s.ended.map Entry.id
  finished : ∀ e, s.manager.current = some e → e.state.unfinished = false → ∃ e', s.ended.getLast? = some e' ∧ e'.id = e.id
  limit : 0 < s.manager.maxHistory

/-- What a call keeps: the entries of the history, everything when it is for another attempt, and otherwise the order of the
states. -/
structure Lawful (s s' : System) (c : Call) : Prop where
  kept : ∀ x ∈ s.manager.history, ∀ y ∈ s'.manager.entries, x.id = y.id → x = y
  ignored : ∀ id, c.id? = some id → (∀ e, s.manager.current = some e → e.id ≠ id) → s'.manager = s.manager
  moves : ∀ x ∈ s.manager.entries, ∀ y ∈ s'.manager.entries, x.id = y.id →
    x = y ∨ (c = .transition x.id y.state ∧ y.state ∈ Manager.valid x.state) ∨ (c.id? = some x.id ∧ c.final = some y.state)

variable {s s' : System} {c : Call}

/-- What a step may do: the effect of the call, and what it adds to the attempts that are over. -/
inductive Effect (s : System) (c : Call) : System → Prop
  | same (hrefused : (s.manager.answer c).toOption = none) : Effect s c s
  | begun (e : Entry) (hc : ∃ a b x y, c = .begin e.id a b x y) (hidle : s.manager.isUpdating = false)
      (hstate : e.state = .downloading) (hfresh : e.id ∉ s.begun) :
      Effect s c { manager := { s.manager with current := some e }, begun := e.id :: s.begun, ended := s.ended }
  | moved (e : Entry) (newState : State) (hm : s.manager.current = some e) (hc : c = .transition e.id newState)
      (hv : newState ∈ Manager.valid e.state) :
      Effect s c { s with
        manager := { s.manager with current := some { e with state := newState } }
        ended := s.ended ++ if newState.unfinished then [] else [{ e with state := newState }] }
  | archived (e e' : Entry) (hm : s.manager.current = some e) (hc : c.id? = some e.id) (hid : e'.id = e.id)
      (hfinal : c.final = some e'.state) :
      Effect s c { s with
        manager := s.manager.archive e'
        ended := s.ended ++ if e.state.unfinished then [e'] else [] }

/-- An entry with an id of its own at the end of a list. -/
theorem nodup_concat {l : List Entry} (hl : (l.map Entry.id).Nodup) {e : Entry} (hnew : e.id ∉ l.map Entry.id) :
    ((l ++ [e]).map Entry.id).Nodup := by
  rw [List.map_append, List.map_singleton, List.nodup_append]
  refine ⟨hl, List.nodup_singleton _, ?_⟩
  rintro x hx y hy rfl
  rw [List.mem_singleton] at hy
  exact hnew (hy ▸ hx)

theorem find_entry {l : List Entry} (hl : (l.map Entry.id).Nodup) {e : Entry} (he : e ∈ l) (ho : e.state.unfinished = false) :
    l.find? (fun x => x.id = e.id && !x.state.unfinished) = some e := by
  have hsome : (l.find? (fun x => x.id = e.id && !x.state.unfinished)).isSome := by
    rw [List.find?_isSome]
    exact ⟨e, he, by simp [ho]⟩
  obtain ⟨x, hx⟩ := Option.isSome_iff_exists.1 hsome
  have hid : x.id = e.id := by
    have hfound := List.find?_some hx
    rw [Bool.and_eq_true, decide_eq_true_eq] at hfound
    exact hfound.1
  rw [hx, List.inj_on_of_nodup_map hl (List.mem_of_find?_eq_some hx) he hid]

/-- The entries once an attempt has been moved to the history. -/
theorem mem_archived {m : Manager} {e x : Entry} (hx : x ∈ (m.archive e).entries) : x ∈ m.history ∨ x = e := by
  have hx' : x ∈ (m.archive e).history := hx
  rw [Manager.archive_history] at hx'
  simpa using List.mem_of_mem_drop hx'

theorem Distinct.mem_archive (h : s.Distinct) (e : Entry) : e ∈ (s.manager.archive e).history :=
  List.mem_of_getLast? (Manager.archive_last h.limit)

section

variable (h : s.Distinct) {e e' : Entry} (hm : s.manager.current = some e)

include hm

theorem entries_current : s.manager.entries = e :: s.manager.history := by
  simp [Manager.entries, hm]

include h

theorem Distinct.notMem_history : e.id ∉ s.manager.history.map Entry.id := by
  have hnodup := h.entries
  rw [entries_current hm, List.map_cons, List.nodup_cons] at hnodup
  exact hnodup.1

theorem Distinct.history_nodup : (s.manager.history.map Entry.id).Nodup := by
  have hnodup := h.entries
  rw [entries_current hm, List.map_cons, List.nodup_cons] at hnodup
  exact hnodup.2

theorem Distinct.append_nodup (hid : e'.id = e.id) : ((s.manager.history ++ [e']).map Entry.id).Nodup :=
  nodup_concat (h.history_nodup hm) (hid ▸ h.notMem_history hm)

theorem Distinct.archive_nodup (hid : e'.id = e.id) : ((s.manager.archive e').history.map Entry.id).Nodup := by
  rw [Manager.archive_history]
  exact ((List.drop_sublist _ _).map _).nodup (h.append_nodup hm hid)

/-- The attempts that a change of the one under way ends. -/
theorem Distinct.ends_moved (hunfinished : e.state.unfinished = true) (hid : e'.id = e.id) :
    s.manager.ends { s.manager with current := some e' } = if e'.state.unfinished then none else some e' := by
  have hnone : s.manager.history.find? (fun x => x.id = e.id && !x.state.unfinished) = none := by
    rw [List.find?_eq_none]
    intro x hx hfound
    rw [Bool.and_eq_true, decide_eq_true_eq] at hfound
    exact h.notMem_history hm (hfound.1 ▸ List.mem_map_of_mem hx)
  have hentries : ({ s.manager with current := some e' } : Manager).entries = e' :: s.manager.history := rfl
  simp only [Manager.ends, hm, hunfinished, hentries, Option.bind_eq_bind, Option.bind_some, guard_true, List.find?_cons, hid]
  cases e'.state.unfinished
  · simp
  · simpa using hnone

theorem Distinct.ends_archive (hunfinished : e.state.unfinished = true) (hid : e'.id = e.id)
    (ho : e'.state.unfinished = false) : s.manager.ends (s.manager.archive e') = some e' := by
  have hentries : (s.manager.archive e').entries = (s.manager.archive e').history := rfl
  have hfind := find_entry (h.archive_nodup hm hid) (h.mem_archive e') ho
  simp only [Manager.ends, hm, hunfinished, hentries, Option.bind_eq_bind, Option.bind_some, guard_true]
  rw [hid] at hfind
  exact hfind

end

theorem ends_none {m' : Manager} (ho : ∀ e, s.manager.current = some e → e.state.unfinished = false) :
    s.manager.ends m' = none := by
  cases hm : s.manager.current with
  | none => simp [Manager.ends, hm]
  | some e => simp [Manager.ends, hm, ho e hm]

theorem valid_unfinished {a b : State} (h : b ∈ Manager.valid a) : a.unfinished = true := by
  cases a <;> simp [Manager.valid] at h <;> rfl

/-- A call that is refused ends nothing. -/
theorem Distinct.ends_self (h : s.Distinct) : s.manager.ends s.manager = none := by
  cases hm : s.manager.current with
  | none => exact ends_none (by simp [hm])
  | some e =>
    cases hstate : e.state.unfinished with
    | false => exact ends_none (by simp [hm, hstate])
    | true =>
      have hsame : { s.manager with current := some e } = s.manager := by rw [← hm]
      have hmoved := h.ends_moved hm hstate rfl
      rwa [hsame, hstate, if_pos rfl] at hmoved

theorem begin_effect {now : ℕ} {a b x y : String} (hstep : s.step (.begin now a b x y) = some s') :
    Effect s (.begin now a b x y) s' := by
  simp only [step] at hstep
  split at hstep
  · rename_i hbusy
    obtain rfl := Option.some.inj hstep
    exact .same (by simp [Manager.answer, Manager.begin, hbusy, Except.map, Except.toOption])
  split at hstep
  · cases hstep
  · rename_i hidle hfresh
    obtain rfl := Option.some.inj hstep
    rw [Bool.not_eq_true] at hidle
    have hover : ∀ e, s.manager.current = some e → e.state.unfinished = false := by
      intro e hm
      simpa [Manager.isUpdating, hm] using hidle
    have hends : ∀ m', s.manager.ends m' = none := fun m' => ends_none hover
    have hafter : s.manager.after (.begin now a b x y) =
        { s.manager with current := some ⟨now, now, 0, a, b, y, .downloading, "", false, false, x⟩ } := by
      simp [Manager.after, Manager.answer, Manager.begin, hidle, Except.map, Except.toOption]
    rw [hends, hafter, Option.toList_none, List.append_nil]
    exact .begun ⟨now, now, 0, a, b, y, .downloading, "", false, false, x⟩ ⟨a, b, x, y, rfl⟩ hidle rfl hfresh

/-- **What a step does.** -/
theorem step_effect (h : s.Distinct) (hstep : s.step c = some s') : Effect s c s' := by
  by_cases hbegin : ∃ now a b x y, c = .begin now a b x y
  · obtain ⟨now, a, b, x, y, rfl⟩ := hbegin
    exact begin_effect hstep
  · have heffect := Manager.after_effect s.manager c
    have hother : s.step c = some { s with
        manager := s.manager.after c, ended := s.ended ++ (s.manager.ends (s.manager.after c)).toList } := by
      cases c with
      | begin now a b x y => exact absurd ⟨now, a, b, x, y, rfl⟩ hbegin
      | transition | fail | complete | rollback => rfl
    rw [hother] at hstep
    obtain rfl := Option.some.inj hstep
    generalize s.manager.after c = m' at heffect
    cases heffect with
    | refused herr =>
      rw [h.ends_self, Option.toList_none, List.append_nil]
      exact .same herr
    | begun e hc =>
      obtain ⟨a, b, x, y, rfl⟩ := hc
      exact absurd ⟨e.id, a, b, x, y, rfl⟩ hbegin
    | moved e newState hm hc hv =>
      have hends := h.ends_moved hm (valid_unfinished hv) (rfl : ({ e with state := newState } : Entry).id = e.id)
      have heffect := Effect.moved e newState hm hc hv
      rw [hends]
      cases hstate : newState.unfinished <;> simpa [hstate] using heffect
    | archived e e' hm hc hid hfinal =>
      have heffect := Effect.archived e e' hm hc hid hfinal
      cases hstate : e.state.unfinished with
      | false =>
        rw [ends_none (by simp [hm, hstate])]
        simpa [hstate] using heffect
      | true =>
        rw [h.ends_archive hm hstate hid (Manager.final_over hfinal)]
        simpa [hstate] using heffect

/-! ### What the steps keep -/

/-- An attempt that is begun takes the place of the one before. -/
theorem Distinct.begin (h : s.Distinct) {e : Entry} (hstate : e.state = .downloading) (hfresh : e.id ∉ s.begun) :
    Distinct { manager := { s.manager with current := some e }, begun := e.id :: s.begun, ended := s.ended } := by
  have hhistory : (s.manager.history.map Entry.id).Nodup :=
    ((List.sublist_append_right s.manager.current.toList s.manager.history).map Entry.id).nodup h.entries
  have hknown : ∀ x ∈ s.manager.history, x.id ∈ s.begun := fun x hx => h.begun x (List.mem_append_right _ hx)
  have hnew : ∀ {l : List Entry}, (∀ x ∈ l, x.id ∈ s.begun) → e.id ∉ l.map Entry.id := by
    intro l hl hmem
    obtain ⟨x, hx, hid⟩ := List.mem_map.1 hmem
    exact hfresh (hid ▸ hl x hx)
  refine ⟨?_, ?_, h.ended, fun x hx => List.mem_cons_of_mem _ (h.known x hx), ?_, ?_, h.limit⟩
  · rw [entries_current rfl, List.map_cons, List.nodup_cons]
    exact ⟨hnew hknown, hhistory⟩
  · intro x hx
    rw [entries_current rfl, List.mem_cons] at hx
    rcases hx with rfl | hx
    · exact List.mem_cons_self
    · exact List.mem_cons_of_mem _ (hknown x hx)
  · intro x hx _
    obtain rfl : e = x := by simpa using hx
    exact hnew h.known
  · intro x hx hover
    obtain rfl : e = x := by simpa using hx
    rw [hstate] at hover
    cases hover

section

variable (h : s.Distinct) {e e' : Entry} (hm : s.manager.current = some e) (hid : e'.id = e.id)

include h hm hid

/-- What has ended, with the attempt under way. -/
theorem Distinct.ended_concat (hunfinished : e.state.unfinished = true) : ((s.ended ++ [e']).map Entry.id).Nodup :=
  nodup_concat h.ended (hid ▸ h.unfinished e hm hunfinished)

theorem Distinct.current_begun : e'.id ∈ s.begun := by
  rw [hid]
  exact h.begun e (by simp [entries_current hm])

theorem Distinct.known_concat : ∀ x ∈ s.ended ++ [e'], x.id ∈ s.begun := by
  intro x hx
  rw [List.mem_append, List.mem_singleton] at hx
  rcases hx with hx | rfl
  · exact h.known x hx
  · exact h.current_begun hm hid

/-- The attempt under way is in another state. -/
theorem Distinct.move (hunfinished : e.state.unfinished = true) :
    Distinct { s with
      manager := { s.manager with current := some e' }
      ended := s.ended ++ if e'.state.unfinished then [] else [e'] } := by
  refine ⟨?_, ?_, ?_, ?_, ?_, ?_, h.limit⟩
  · have hentries := h.entries
    rw [entries_current hm, List.map_cons, ← hid] at hentries
    rw [entries_current rfl]
    exact hentries
  · intro x hx
    rw [entries_current rfl, List.mem_cons] at hx
    rcases hx with rfl | hx
    · exact h.current_begun hm hid
    · exact h.begun x (List.mem_append_right _ hx)
  · split
    · rw [List.append_nil]
      exact h.ended
    · exact h.ended_concat hm hid hunfinished
  · split
    · rw [List.append_nil]
      exact h.known
    · exact h.known_concat hm hid
  · intro x hx hx'
    obtain rfl : e' = x := by simpa using hx
    rw [if_pos hx', List.append_nil, hid]
    exact h.unfinished e hm hunfinished
  · intro x hx hx'
    obtain rfl : e' = x := by simpa using hx
    exact ⟨e', by simp [hx'], rfl⟩

/-- The attempt under way is in the history. -/
theorem Distinct.archive :
    Distinct { s with
      manager := s.manager.archive e'
      ended := s.ended ++ if e.state.unfinished then [e'] else [] } := by
  refine ⟨h.archive_nodup hm hid, ?_, ?_, ?_, by simp, by simp, h.limit⟩
  · intro x hx
    rcases mem_archived hx with hx | rfl
    · exact h.begun x (List.mem_append_right _ hx)
    · exact h.current_begun hm hid
  · split
    · rename_i hunfinished
      exact h.ended_concat hm hid hunfinished
    · rw [List.append_nil]
      exact h.ended
  · split
    · exact h.known_concat hm hid
    · rw [List.append_nil]
      exact h.known

end

/-- **The ids.** -/
theorem step_distinct (h : s.Distinct) (hstep : s.step c = some s') : s'.Distinct := by
  cases step_effect h hstep with
  | same => exact h
  | begun e hc hidle hstate hfresh => exact h.begin hstate hfresh
  | moved e newState hm hc hv => exact h.move hm rfl (valid_unfinished hv)
  | archived e e' hm hc hid hfinal => exact h.archive hm hid

/-- Adding at the end and leaving out at the front. -/
theorem drop_concat {α : Type} (l : List α) (a : α) (n : ℕ) :
    (l.drop (l.length - n) ++ [a]).drop ((l.drop (l.length - n) ++ [a]).length - n) =
      (l ++ [a]).drop ((l ++ [a]).length - n) := by
  rw [← List.drop_append_of_le_length (Nat.sub_le _ _), List.drop_drop]
  congr 1
  simp only [List.length_drop, List.length_append, List.length_singleton]
  omega

theorem mem_drop_getLast {α : Type} {l : List α} {a : α} (h : l.getLast? = some a) {n : ℕ} (hn : 0 < n) :
    a ∈ l.drop (l.length - n) := by
  obtain ⟨init, rfl⟩ := List.getLast?_eq_some_iff.1 h
  rw [List.drop_append_of_le_length (by simp; omega)]
  simp

/-- An attempt that is over and not in the history is missing there. -/
theorem Distinct.not_recorded (h : s.Distinct) {e : Entry} (hm : s.manager.current = some e)
    (hover : e.state.unfinished = false) : ¬ s.Recorded := by
  intro hr
  obtain ⟨e', hlast, hid⟩ := h.finished e hm hover
  have hmem : e' ∈ s.manager.history := by
    rw [hr]
    exact mem_drop_getLast hlast h.limit
  exact h.notMem_history hm (hid ▸ List.mem_map_of_mem hmem)

/-- **One step and the history.** -/
theorem step_recorded (h : s.Distinct) (hr : s.Recorded) (hstep : s.step c = some s') : s'.Recorded ↔ s.archives c = true := by
  have h' := step_distinct h hstep
  cases step_effect h hstep with
  | same hrefused =>
    refine iff_of_true hr ?_
    cases c with
    | transition id newState =>
      -- a transition that is allowed is not refused
      rw [archives, Bool.not_eq_true', Bool.and_eq_false_iff]
      left
      by_contra hmoves
      rw [Bool.not_eq_false, Option.any_eq_true] at hmoves
      obtain ⟨e, hm, hmatch⟩ := hmoves
      rw [Bool.and_eq_true, decide_eq_true_eq, decide_eq_true_eq] at hmatch
      obtain ⟨rfl, hv⟩ := hmatch
      have hok := Manager.transition_of_current hm hv
      simp [Manager.answer, hok, Except.toOption] at hrefused
    | begin | fail | complete | rollback => rfl
  | begun e hc hidle hstate hfresh =>
    obtain ⟨a, b, x, y, rfl⟩ := hc
    exact iff_of_true hr rfl
  | moved e newState hm hc hv =>
    subst hc
    have hmatch : s.manager.current.any (fun x => x.id = e.id && newState ∈ Manager.valid x.state) = true := by
      simp [hm, hv]
    by_cases hstate : newState.unfinished = true
    · refine iff_of_true ?_ ?_
      · simpa [Recorded, hstate] using hr
      · simp [archives, hstate]
    · -- the attempt is over and is still the one under way
      rw [Bool.not_eq_true] at hstate
      refine iff_of_false (h'.not_recorded rfl hstate) ?_
      simp [archives, hmatch, hstate]
  | archived e e' hm hc hid hfinal =>
    have hunfinished : e.state.unfinished = true := by
      by_contra hover
      exact h.not_recorded hm (by simpa using hover) hr
    refine iff_of_true ?_ ?_
    · rw [if_pos hunfinished, Recorded]
      dsimp only
      rw [Manager.archive_history, hr]
      exact drop_concat _ _ _
    · cases c with
      | transition => cases hfinal
      | begin | fail | complete | rollback => rfl

/-- A call that is for an attempt is one of the manager. -/
theorem step_manager {id : ℕ} (hid : c.id? = some id) (hstep : s.step c = some s') : s'.manager = s.manager.after c := by
  cases c with
  | begin => cases hid
  | transition | fail | complete | rollback =>
    obtain rfl := Option.some.inj hstep
    rfl

/-- **One step and the entries.** -/
theorem step_lawful (h : s.Distinct) (hstep : s.step c = some s') : Lawful s s' c := by
  have hignored : ∀ id, c.id? = some id → (∀ e, s.manager.current = some e → e.id ≠ id) → s'.manager = s.manager :=
    fun id hid hne => (step_manager hid hstep).trans (Manager.after_of_ne hid hne)
  have hinj : ∀ x ∈ s.manager.entries, ∀ y ∈ s.manager.entries, x.id = y.id → x = y := by
    intro x hx y hy hid
    exact List.inj_on_of_nodup_map h.entries hx hy hid
  have hin : ∀ x ∈ s.manager.history, x ∈ s.manager.entries := fun x hx => List.mem_append_right _ hx
  cases step_effect h hstep with
  | same hrefused =>
    exact ⟨fun x hx y hy hid => hinj x (hin x hx) y hy hid, hignored, fun x hx y hy hid => Or.inl (hinj x hx y hy hid)⟩
  | begun e hc hidle hstate hfresh =>
    have hsame : ∀ x ∈ s.manager.entries, ∀ y ∈ e :: s.manager.history, x.id = y.id → x = y := by
      intro x hx y hy hid
      rcases List.mem_cons.1 hy with rfl | hy
      · exact absurd (hid ▸ h.begun x hx) hfresh
      · exact hinj x hx y (hin y hy) hid
    exact ⟨fun x hx => hsame x (hin x hx), hignored, fun x hx y hy hid => Or.inl (hsame x hx y hy hid)⟩
  | moved e newState hm hc hv =>
    have hnot := h.notMem_history hm
    refine ⟨?_, hignored, ?_⟩
    · intro x hx y hy hid
      rcases List.mem_cons.1 hy with rfl | hy
      · exact absurd (List.mem_map.2 ⟨x, hx, hid⟩) hnot
      · exact hinj x (hin x hx) y (hin y hy) hid
    · intro x hx y hy hid
      rcases List.mem_cons.1 hy with rfl | hy
      · have he : x = e := hinj x hx e (by simp [entries_current hm]) hid
        subst he
        exact Or.inr (Or.inl ⟨hc, hv⟩)
      · exact Or.inl (hinj x hx y (hin y hy) hid)
  | archived e e' hm hc hid' hfinal =>
    have hnot := h.notMem_history hm
    refine ⟨?_, hignored, ?_⟩
    · intro x hx y hy hid
      rcases mem_archived hy with hy | rfl
      · exact hinj x (hin x hx) y (hin y hy) hid
      · exact absurd (List.mem_map.2 ⟨x, hx, hid.trans hid'⟩) hnot
    · intro x hx y hy hid
      rcases mem_archived hy with hy | rfl
      · exact Or.inl (hinj x hx y (hin y hy) hid)
      · have he : x = e := hinj x hx e (by simp [entries_current hm]) (hid.trans hid')
        subst he
        exact Or.inr (Or.inr ⟨hc, hfinal⟩)

theorem new_distinct (maxHistory : ℕ) : (new maxHistory).Distinct where
  entries := List.nodup_nil
  begun := by simp [new, newManager, Manager.entries]
  ended := List.nodup_nil
  known := by simp [new]
  unfinished := by simp [new, newManager]
  finished := by simp [new, newManager]
  limit := by
    simp only [new, newManager]
    split <;> omega

/-- **The history of updates.** In every state of a run the history holds the attempts that are over exactly when no step of it
is a transition that ends one; and in any case every step keeps to the laws. -/
theorem history_iff (maxHistory : ℕ) {cs : List Call} (hrun : run step (new maxHistory) cs = some s) :
    ((∀ n t, run step (new maxHistory) (cs.take n) = some t → t.Recorded) ↔
      Meets step (fun s c => s.archives c = true) (new maxHistory) cs) ∧
    (s.ended.map Entry.id).Nodup ∧ ∀ c s', s.step c = some s' → Lawful s s' c := by
  have hdistinct : ∀ {cs t}, run step (new maxHistory) cs = some t → t.Distinct :=
    fun hrun => run_keeps (fun _ _ _ h hstep => step_distinct h hstep) hrun (new_distinct maxHistory)
  have hempty : (new maxHistory).Recorded := by simp [Recorded, new, newManager]
  have hone : ∀ (s : System) (c : Call) (s' : System), s.Distinct ∧ s.Recorded → s.step c = some s' →
      ((s'.Distinct ∧ s'.Recorded) ↔ s.archives c = true) := by
    intro s c s' h hstep
    rw [← step_recorded h.1 h.2 hstep]
    exact ⟨And.right, fun hr => ⟨step_distinct h.1 hstep, hr⟩⟩
  have hiff : (∀ n t, run step (new maxHistory) (cs.take n) = some t → t.Distinct ∧ t.Recorded) ↔
      Meets step (fun s c => s.archives c = true) (new maxHistory) cs :=
    run_invariant_iff hone hrun ⟨new_distinct maxHistory, hempty⟩
  refine ⟨?_, (hdistinct hrun).ended, fun c s' hstep => step_lawful (hdistinct hrun) hstep⟩
  rw [← hiff]
  exact ⟨fun hr n t ht => ⟨hdistinct ht, hr n t ht⟩, fun hr n t ht => (hr n t ht).2⟩

namespace Sample

/-- An attempt that is begun and goes as far as the check of its readiness. -/
def upgrade (id : ℕ) : List Call :=
  [.begin id "0.1.0" "0.2.0" "systemd" "stable", .transition id .verifying, .transition id .installing, .transition id .readiness]

/-- Two attempts, each ended by `Complete`. -/
def completed : List Call := upgrade 1 ++ [.complete 9 1] ++ upgrade 10 ++ [.complete 19 10]

/-- The first one is ended by a transition. -/
def transitioned : List Call := upgrade 1 ++ [.transition 1 .completed] ++ upgrade 10 ++ [.complete 19 10]

end Sample

theorem history_completed : ∃ s, run step (new 5) Sample.completed = some s ∧ s.Recorded := by
  have htest : (run step (new 5) Sample.completed).isSome = true := by decide
  obtain ⟨s, hs⟩ := Option.isSome_iff_exists.1 htest
  have hrecorded := (history_iff 5 hs).1.2 (meets_of_checks (by decide))
  refine ⟨s, hs, hrecorded Sample.completed.length s ?_⟩
  rw [List.take_length]
  exact hs

/-- The first attempt has been completed and is in no history. -/
theorem history_lost : ∃ s, run step (new 5) Sample.transitioned = some s ∧ s.ended.map Entry.id = [1, 10] ∧
    s.manager.current = none ∧ s.manager.history.map Entry.id = [10] := by
  have htest : (run step (new 5) Sample.transitioned).any (fun s =>
      s.ended.map Entry.id = [1, 10] && s.manager.current = none && s.manager.history.map Entry.id = [10]) = true := by
    decide
  obtain ⟨s, hs, hstate⟩ := (Option.any_eq_true _ _).1 htest
  simp only [Bool.and_eq_true, decide_eq_true_eq] at hstate
  exact ⟨s, hs, hstate.1.1, hstate.1.2, hstate.2⟩

end System

end Velora.Update
