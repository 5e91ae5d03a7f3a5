import Mathlib

/-!
# The update manager

The model of `internal/update/update.go`: an attempt goes through its states and is moved to the history when it is over. What
is saved and loaded is the attempt under way and the history.
-/

namespace Velora.Update

inductive State where
  | idle | downloading | verifying | installing | readiness | completed | rolledBack | failed
  deriving DecidableEq

/-- The state is none of those in which an attempt is over. -/
def State.unfinished : State → Bool
  | .completed | .rolledBack | .failed => false
  | _ => true

def State.text : State → String
  | .idle => "idle"
  | .downloading => "downloading"
  | .verifying => "verifying"
  | .installing => "installing"
  | .readiness => "readiness"
  | .completed => "completed"
  | .rolledBack => "rolled_back"
  | .failed => "failed"

/-- `Entry`. The id is made of the time at which the attempt was started. -/
structure Entry where
  id : ℕ
  startedAt : ℕ
  completedAt : ℕ := 0
  fromVersion : String
  toVersion : String
  channel : String
  state : State
  error : String := ""
  readinessOK : Bool := false
  rollbackUsed : Bool := false
  deploymentMode : String
  deriving DecidableEq

structure Manager where
  current : Option Entry := none
  history : List Entry := []
  maxHistory : ℕ
  deriving DecidableEq

/-- What the state file holds. -/
structure Persisted where
  current : Option Entry
  history : List Entry
  deriving DecidableEq

/-- The attempt in the state file is not over. -/
def Persisted.unfinished (p : Persisted) : Bool := p.current.any (fun entry => entry.state.unfinished)

namespace Manager

/-- `LoadState`, with what the state file holds if there is one. -/
def loadState (m : Manager) : Option Persisted → Manager
  | none => m
  | some p => { m with current := p.current, history := p.history }

/-- `SaveState`: what is written. -/
def persisted (m : Manager) : Persisted := ⟨m.current, m.history⟩

/-- `IsUpdating`. -/
def isUpdating (m : Manager) : Bool := m.current.any (fun entry => entry.state.unfinished)

/-- `Begin`. -/
def begin (m : Manager) (now : ℕ) (fromVersion toVersion deploymentMode channel : String) : Except String (Entry × Manager) :=
  if m.isUpdating then .error "update already in progress"
  else
    let entry : Entry :=
      { id := now, startedAt := now, fromVersion := fromVersion, toVersion := toVersion, channel := channel
        state := .downloading, deploymentMode := deploymentMode }
    .ok (entry, { m with current := some entry })

/-- The transitions that are allowed. -/
def valid : State → List State
  | .idle => [.downloading]
  | .downloading => [.verifying, .failed]
  | .verifying => [.installing, .failed]
  | .installing => [.readiness, .failed]
  | .readiness => [.completed, .rolledBack, .failed]
  | _ => []

/-- The attempt under way, when it has this id. -/
def matching (m : Manager) (id : ℕ) : Except String Entry :=
  match m.current with
  | some entry => if entry.id = id then .ok entry else .error "no matching update in progress"
  | none => .error "no matching update in progress"

/-- `Transition`. -/
def transition (m : Manager) (id : ℕ) (newState : State) : Except String Manager := do
  let entry ← m.matching id
  if newState ∈ valid entry.state then .ok { m with current := some { entry with state := newState } }
  else .error ("invalid transition from " ++ entry.state.text ++ " to " ++ newState.text)

/-- `archive`, of the attempt under way as it is when it is over. -/
def archive (m : Manager) (entry : Entry) : Manager :=
  let history := m.history ++ [entry]
  { m with
    current := none
    history := if history.length > m.maxHistory then history.drop (history.length - m.maxHistory) else history }

/-- `Fail`. -/
def fail (m : Manager) (now id : ℕ) (err : String) : Except String Manager := do
  let entry ← m.matching id
  .ok (m.archive { entry with state := .failed, error := err, completedAt := now })

/-- `Complete`. -/
def complete (m : Manager) (now id : ℕ) : Except String Manager := do
  let entry ← m.matching id
  .ok (m.archive { entry with state := .completed, completedAt := now, readinessOK := true })

/-- `RollbackWithError`, with a cause. -/
def rollbackWithError (m : Manager) (now id : ℕ) (cause : String) : Except String Manager := do
  let entry ← m.matching id
  .ok (m.archive { entry with
    state := .rolledBack, completedAt := now, rollbackUsed := true, readinessOK := true, error := cause })

/-! ### What the operations do -/

section

variable {m : Manager} {id now : ℕ} {entry : Entry}

theorem matching_of_current (hm : m.current = some entry) : m.matching entry.id = .ok entry := by
  simp [matching, hm]

theorem begin_ok_iff {a b c d : String} : (∃ r, m.begin now a b c d = .ok r) ↔ m.isUpdating = false := by
  cases h : m.isUpdating <;> simp [begin, h]

theorem transition_of_current {newState : State} (hm : m.current = some entry) (hv : newState ∈ valid entry.state) :
    m.transition entry.id newState = .ok { m with current := some { entry with state := newState } } := by
  simp [transition, matching_of_current hm, hv, bind, Except.bind]

theorem fail_of_current {err : String} (hm : m.current = some entry) :
    m.fail now entry.id err = .ok (m.archive { entry with state := .failed, error := err, completedAt := now }) := by
  simp [fail, matching_of_current hm, bind, Except.bind]

theorem complete_of_current (hm : m.current = some entry) :
    m.complete now entry.id =
      .ok (m.archive { entry with state := .completed, completedAt := now, readinessOK := true }) := by
  simp [complete, matching_of_current hm, bind, Except.bind]

theorem rollbackWithError_of_current {cause : String} (hm : m.current = some entry) :
    m.rollbackWithError now entry.id cause = .ok (m.archive { entry with
      state := .rolledBack, completedAt := now, rollbackUsed := true, readinessOK := true, error := cause }) := by
  simp [rollbackWithError, matching_of_current hm, bind, Except.bind]

@[simp] theorem archive_current : (m.archive entry).current = none := rfl

/-- The attempt that is over is the last of the history. -/
theorem archive_last (hmax : 0 < m.maxHistory) : (m.archive entry).history.getLast? = some entry := by
  unfold archive
  dsimp only
  split
  · rename_i hlen
    rw [List.length_append, List.length_singleton] at hlen
    rw [List.drop_append_of_le_length (by simp only [List.length_append, List.length_singleton]; omega)]
    simp
  · simp

end

end Manager

end Velora.Update
