import Velora.Lib.Prog

/-!
# The query log

`internal/querylog`: `Record` puts entries into a bounded queue and `Run` writes them. `Record` looks at the flags of the
logger and uses the queue in two steps, and a `Run` that is stopped sets the flag, empties the queue and returns. What is
between an entry and its count is either in the queue, in the hands of `Run` or in those of `Record` (`Account`).
-/

namespace Velora.Querylog

open Velora.Lib

/-! ### The logger -/

/-- The entries are carried and never looked at. -/
structure Logger (Entry : Type) where
  enabled : Bool
  stopped : Bool := false
  queue : List Entry := []
  capacity : ℕ
  written : ℕ := 0
  dropped : ℕ := 0
  errors : ℕ := 0
  deriving DecidableEq

/-- Where a call of `Record` is: before it gets the lock, after it has given it back with what it has seen, in the default
case of the `select`, or at its end. -/
inductive Recorder (Entry : Type) where
  | called (e : Entry)
  | seen (e : Entry) (enabled stopped : Bool)
  | full
  | returned
  deriving DecidableEq

/-- Where `Run` is. `draining` says which of its loops the batch belongs to: the one of the `select` or the one that empties
the queue. -/
inductive Worker (Entry : Type) where
  | waiting
  | writing (entries : List Entry) (draining : Bool)
  | wrote (entries : List Entry) (draining : Bool)
  | failed (entries : List Entry) (draining : Bool)
  | lost (entries : List Entry) (draining : Bool)
  | select
  | batch (entries : List Entry) (draining : Bool)
  | stopping
  | drain
  | receive
  | returned
  deriving DecidableEq

/-- What the outside decides: the case of the `select`, and whether `WriteQueries` fails. -/
inductive Choice where
  | done | entry | tick | ok | err
  deriving DecidableEq

variable {Entry : Type}

/-- `Record`, a step. -/
def Recorder.step (l : Logger Entry) : Recorder Entry → Option (Logger Entry × Recorder Entry)
  | .called e => some (l, .seen e l.enabled l.stopped)
  | .seen _ false _ => some (l, .returned)
  | .seen _ true true => some ({ l with dropped := l.dropped + 1 }, .returned)
  | .seen e true false =>
    if l.queue.length < l.capacity then some ({ l with queue := l.queue ++ [e] }, .returned) else some (l, .full)
  | .full => some ({ l with dropped := l.dropped + 1 }, .returned)
  | .returned => none

namespace Worker

/-- What comes after a batch. -/
def onward (draining : Bool) : Worker Entry := if draining then .drain else .select

/-- `Run` with `batch` and `write`, a step; it is nothing where `Run` has to wait. -/
def step (cancelled : Bool) (l : Logger Entry) (x : Choice) : Worker Entry → Option (Logger Entry × Worker Entry)
  | .waiting => none
  | .writing es d => match x with
    | .ok => some (l, .wrote es d)
    | .err => some (l, .failed es d)
    | _ => none
  | .wrote es d => some ({ l with written := l.written + es.length }, onward d)
  | .failed es d => some ({ l with errors := l.errors + 1 }, .lost es d)
  | .lost es d => some ({ l with dropped := l.dropped + es.length }, onward d)
  | .select => match x, l.queue with
    | .done, _ => if cancelled then some (l, .stopping) else none
    | .entry, e :: queue => some ({ l with queue := queue }, .batch [e] false)
    | .tick, _ => some (l, .writing [] false)
    | _, _ => none
  | .batch es d =>
    if es.length < 128 then
      match l.queue with
      | e :: queue => some ({ l with queue := queue }, .batch (es ++ [e]) d)
      | [] => some (l, .writing es d)
    else some (l, .writing es d)
  | .stopping => some ({ l with stopped := true }, .drain)
  | .drain => if 0 < l.queue.length then some (l, .receive) else some (l, .returned)
  | .receive => match l.queue with
    | e :: queue => some ({ l with queue := queue }, .batch [e] true)
    | [] => none
  | .returned => none

end Worker

/-! ### Runs -/

/-- The logger, its worker and the calls of `Record`, done or not. -/
structure System (Entry : Type) where
  logger : Logger Entry
  worker : Worker Entry := .waiting
  cancelled : Bool := false
  recorders : List (Recorder Entry) := []
  /-- history: the number of calls of `Record` that have seen logging enabled -/
  observed : ℕ := 0
  deriving DecidableEq

inductive Event (Entry : Type) where
  | setEnabled (enabled : Bool)
  | record (e : Entry)
  | turn (i : ℕ)
  | run
  | cancel
  | work (x : Choice)
  deriving DecidableEq

/-- The call sees logging enabled with this step. -/
def Recorder.observes (l : Logger Entry) : Recorder Entry → Bool
  | .called _ => l.enabled
  | _ => false

/-- The call puts its entry into the queue with this step: it has seen the logger enabled and not stopped, and there is room. -/
def Recorder.sends (l : Logger Entry) : Recorder Entry → Bool
  | .seen _ true false => l.queue.length < l.capacity
  | _ => false

namespace System

/-- `New`. -/
def new (enabled : Bool) (capacity : ℕ) : System Entry where
  logger := { enabled := enabled, capacity := capacity }

def step (s : System Entry) : Event Entry → Option (System Entry)
  | .setEnabled enabled => some { s with logger := { s.logger with enabled := enabled } }
  | .record e => some { s with recorders := s.recorders ++ [.called e] }
  | .turn i => do
    let r ← s.recorders[i]?
    let (logger, r') ← r.step s.logger
    some { s with logger := logger, recorders := s.recorders.set i r', observed := s.observed + (r.observes s.logger).toNat }
  | .run => if s.worker matches .waiting then some { s with worker := .writing [] false } else none
  | .cancel => some { s with cancelled := true }
  | .work x => do
    let (logger, worker) ← s.worker.step s.cancelled s.logger x
    some { s with logger := logger, worker := worker }

/-- No call of `Record` is in progress. -/
def Quiet (s : System Entry) : Prop := ∀ r ∈ s.recorders, r = .returned

/-- The step is not that of a call of `Record` which puts its entry into the queue after `Run` has returned. -/
def inTime (s : System Entry) : Event Entry → Bool
  | .turn i => !((s.worker matches .returned) && s.recorders[i]?.any (Recorder.sends s.logger))
  | _ => true

end System

/-! ### The account -/

/-- The call has seen logging enabled and its entry is in its hands. -/
def Recorder.owes : Recorder Entry → Bool
  | .seen _ enabled _ => enabled
  | .full => true
  | _ => false

/-- The entries in the hands of `Run`. -/
def Worker.held : Worker Entry → List Entry
  | .writing es _ | .wrote es _ | .failed es _ | .lost es _ | .batch es _ => es
  | _ => []

/-- **Every entry is somewhere.** -/
def Account (s : System Entry) : Prop :=
  s.logger.written + s.logger.dropped + s.logger.queue.length + s.worker.held.length + s.recorders.countP Recorder.owes =
    s.observed

@[simp] theorem Worker.held_onward (d : Bool) : (Worker.onward d : Worker Entry).held = [] := by
  cases d <;> rfl

variable {l l' : Logger Entry} {s s' : System Entry}

/-- A step of `Record` leaves the entry in its hands, puts it into the queue or counts it. -/
theorem Recorder.step_account {r r' : Recorder Entry} (h : r.step l = some (l', r')) :
    l'.written + l'.dropped + l'.queue.length + r'.owes.toNat =
      l.written + l.dropped + l.queue.length + r.owes.toNat + (r.observes l).toNat := by
  cases r with
  | called e =>
    obtain ⟨rfl, rfl⟩ : l = l' ∧ .seen e l.enabled l.stopped = r' := by simpa [step] using h
    simp [owes, observes]
  | seen e enabled stopped =>
    cases enabled with
    | false =>
      obtain ⟨rfl, rfl⟩ : l = l' ∧ .returned = r' := by simpa [step] using h
      simp [owes, observes]
    | true =>
      cases stopped with
      | true =>
        obtain ⟨rfl, rfl⟩ : { l with dropped := l.dropped + 1 } = l' ∧ .returned = r' := by simpa [step] using h
        simp [owes, observes]
        omega
      | false =>
        simp only [step] at h
        split at h
        · obtain ⟨rfl, rfl⟩ : { l with queue := l.queue ++ [e] } = l' ∧ .returned = r' := by simpa using h
          simp [owes, observes]
          omega
        · obtain ⟨rfl, rfl⟩ : l = l' ∧ .full = r' := by simpa using h
          simp [owes, observes]
  | full =>
    obtain ⟨rfl, rfl⟩ : { l with dropped := l.dropped + 1 } = l' ∧ .returned = r' := by simpa [step] using h
    simp [owes, observes]
    omega
  | returned => simp [step] at h

/-- What a step of `Run` may do to the queue and to the counts. -/
theorem Worker.step_cases {cancelled : Bool} {x : Choice} {w w' : Worker Entry} (h : w.step cancelled l x = some (l', w')) :
    (∃ stopped errors, l' = { l with stopped := stopped, errors := errors } ∧ w'.held = w.held) ∨
    (∃ e queue, l.queue = e :: queue ∧ l' = { l with queue := queue } ∧ w'.held = w.held ++ [e]) ∨
    (l' = { l with written := l.written + w.held.length } ∧ w'.held = []) ∨
    (l' = { l with dropped := l.dropped + w.held.length } ∧ w'.held = []) := by
  cases w with
  | waiting | returned => simp [step] at h
  | writing es d =>
    left
    refine ⟨l.stopped, l.errors, ?_⟩
    cases x <;> simp only [step, reduceCtorEq, Option.some.injEq, Prod.mk.injEq] at h
    · exact ⟨h.1.symm, h.2 ▸ rfl⟩
    · exact ⟨h.1.symm, h.2 ▸ rfl⟩
  | wrote es d =>
    obtain ⟨rfl, rfl⟩ : { l with written := l.written + es.length } = l' ∧ onward d = w' := by simpa [step] using h
    exact Or.inr (Or.inr (Or.inl ⟨rfl, held_onward d⟩))
  | failed es d =>
    obtain ⟨rfl, rfl⟩ : { l with errors := l.errors + 1 } = l' ∧ .lost es d = w' := by simpa [step] using h
    exact Or.inl ⟨l.stopped, l.errors + 1, rfl, rfl⟩
  | lost es d =>
    obtain ⟨rfl, rfl⟩ : { l with dropped := l.dropped + es.length } = l' ∧ onward d = w' := by simpa [step] using h
    exact Or.inr (Or.inr (Or.inr ⟨rfl, held_onward d⟩))
  | select =>
    simp only [step] at h
    split at h
    · split at h
      · obtain ⟨rfl, rfl⟩ : l = l' ∧ .stopping = w' := by simpa using h
        exact Or.inl ⟨l.stopped, l.errors, rfl, rfl⟩
      · cases h
    · rename_i e queue hqueue
      obtain ⟨rfl, rfl⟩ : { l with queue := queue } = l' ∧ .batch [e] false = w' := by simpa using h
      exact Or.inr (Or.inl ⟨e, queue, hqueue, rfl, rfl⟩)
    · obtain ⟨rfl, rfl⟩ : l = l' ∧ .writing [] false = w' := by simpa using h
      exact Or.inl ⟨l.stopped, l.errors, rfl, rfl⟩
    · cases h
  | batch es d =>
    simp only [step] at h
    split at h
    · split at h
      · rename_i e queue hqueue
        obtain ⟨rfl, rfl⟩ : { l with queue := queue } = l' ∧ .batch (es ++ [e]) d = w' := by simpa using h
        exact Or.inr (Or.inl ⟨e, queue, hqueue, rfl, rfl⟩)
      · obtain ⟨rfl, rfl⟩ : l = l' ∧ .writing es d = w' := by simpa using h
        exact Or.inl ⟨l.stopped, l.errors, rfl, rfl⟩
    · obtain ⟨rfl, rfl⟩ : l = l' ∧ .writing es d = w' := by simpa using h
      exact Or.inl ⟨l.stopped, l.errors, rfl, rfl⟩
  | stopping =>
    obtain ⟨rfl, rfl⟩ : { l with stopped := true } = l' ∧ .drain = w' := by simpa [step] using h
    exact Or.inl ⟨true, l.errors, rfl, rfl⟩
  | drain =>
    simp only [step] at h
    split at h
    · obtain ⟨rfl, rfl⟩ : l = l' ∧ .receive = w' := by simpa using h
      exact Or.inl ⟨l.stopped, l.errors, rfl, rfl⟩
    · obtain ⟨rfl, rfl⟩ : l = l' ∧ .returned = w' := by simpa using h
      exact Or.inl ⟨l.stopped, l.errors, rfl, rfl⟩
  | receive =>
    simp only [step] at h
    split at h
    · rename_i e queue hqueue
      obtain ⟨rfl, rfl⟩ : { l with queue := queue } = l' ∧ .batch [e] true = w' := by simpa using h
      exact Or.inr (Or.inl ⟨e, queue, hqueue, rfl, rfl⟩)
    · cases h

/-- A step of `Run` moves entries from the queue to its hands and from there to a count. -/
theorem Worker.step_account {cancelled : Bool} {x : Choice} {w w' : Worker Entry} (h : w.step cancelled l x = some (l', w')) :
    l'.written + l'.dropped + l'.queue.length + w'.held.length =
      l.written + l.dropped + l.queue.length + w.held.length := by
  obtain ⟨stopped, errors, rfl, hheld⟩ | ⟨e, queue, hqueue, rfl, hheld⟩ | ⟨rfl, hheld⟩ | ⟨rfl, hheld⟩ := step_cases h
  · rw [hheld]
  · simp only [hheld, hqueue, List.length_append, List.length_cons, List.length_nil]
    omega
  · simp only [hheld, List.length_nil]
    omega
  · simp only [hheld, List.length_nil]
    omega

/-- What a step is: one of a call of `Record`, one of `Run`, or one that moves no entry. -/
theorem System.step_cases {e : Event Entry} (hstep : s.step e = some s') :
    (∃ i r l' r', e = .turn i ∧ s.recorders[i]? = some r ∧ r.step s.logger = some (l', r') ∧
      s' = { s with
        logger := l', recorders := s.recorders.set i r', observed := s.observed + (r.observes s.logger).toNat }) ∨
    (∃ x l' w', e = .work x ∧ s.worker.step s.cancelled s.logger x = some (l', w') ∧
      s' = { s with logger := l', worker := w' }) ∨
    (s.inTime e = true ∧ s'.logger = { s.logger with enabled := s'.logger.enabled } ∧ s'.observed = s.observed ∧
      s'.recorders.countP Recorder.owes = s.recorders.countP Recorder.owes ∧
      (s'.worker = s.worker ∨ s.worker = .waiting ∧ s'.worker = .writing [] false)) := by
  cases e with
  | turn i =>
    simp only [step, Option.bind_eq_bind, Option.bind_eq_some_iff, Option.some.injEq, Prod.exists] at hstep
    obtain ⟨r, hr, l', r', hturn, rfl⟩ := hstep
    exact Or.inl ⟨i, r, l', r', rfl, hr, hturn, rfl⟩
  | work x =>
    simp only [step, Option.bind_eq_bind, Option.bind_eq_some_iff, Option.some.injEq, Prod.exists] at hstep
    obtain ⟨l', w', hwork, rfl⟩ := hstep
    exact Or.inr (Or.inl ⟨x, l', w', rfl, hwork, rfl⟩)
  | setEnabled enabled =>
    obtain rfl : { s with logger := { s.logger with enabled := enabled } } = s' := by simpa [step] using hstep
    exact Or.inr (Or.inr ⟨rfl, rfl, rfl, rfl, Or.inl rfl⟩)
  | record e =>
    obtain rfl : { s with recorders := s.recorders ++ [.called e] } = s' := by simpa [step] using hstep
    exact Or.inr (Or.inr ⟨rfl, rfl, rfl, by simp [Recorder.owes], Or.inl rfl⟩)
  | cancel =>
    obtain rfl : { s with cancelled := true } = s' := by simpa [step] using hstep
    exact Or.inr (Or.inr ⟨rfl, rfl, rfl, rfl, Or.inl rfl⟩)
  | run =>
    simp only [step] at hstep
    split at hstep
    · rename_i hw
      obtain rfl : { s with worker := .writing [] false } = s' := by simpa using hstep
      have hwaiting : s.worker = .waiting := by
        cases hworker : s.worker <;> simp [hworker] at hw ⊢
      exact Or.inr (Or.inr ⟨rfl, rfl, rfl, rfl, Or.inr ⟨hwaiting, rfl⟩⟩)
    · cases hstep

/-- **One step.** -/
theorem step_account {e : Event Entry} (h : Account s) (hstep : s.step e = some s') : Account s' := by
  unfold Account at *
  obtain ⟨i, r, l', r', -, hr, hturn, rfl⟩ | ⟨x, l', w', -, hwork, rfl⟩ | ⟨-, hlogger, hobserved, howes, hworker⟩ :=
    System.step_cases hstep
  · obtain ⟨hi, hget⟩ := List.getElem?_eq_some_iff.1 hr
    have haccount := Recorder.step_account hturn
    have hput : ∀ b : Bool, (if b = true then 1 else 0) = b.toNat := by decide
    have howes : r.owes.toNat ≤ s.recorders.countP Recorder.owes := by
      cases hr' : r.owes
      · exact Nat.zero_le _
      · exact List.countP_pos_iff.2 ⟨r, List.mem_of_getElem? hr, hr'⟩
    simp only [List.countP_set hi, hget, hput]
    omega
  · have haccount := Worker.step_account hwork
    simp only
    omega
  · have hheld : s'.worker.held = s.worker.held := by
      rcases hworker with hsame | ⟨hwaiting, hwriting⟩
      · rw [hsame]
      · rw [hwaiting, hwriting]
        rfl
    rw [hlogger, hobserved, howes, hheld]
    exact h

/-! ### What is left behind -/

/-- Nothing is in the queue after `Run` has returned. -/
def Drained (s : System Entry) : Prop := s.worker = .returned → s.logger.queue = []

theorem Recorder.step_queue {r r' : Recorder Entry} (h : r.step l = some (l', r')) :
    l'.queue = l.queue ∧ r.sends l = false ∨ l'.queue ≠ [] ∧ r.sends l = true := by
  cases r with
  | called e =>
    obtain ⟨rfl, -⟩ : l = l' ∧ .seen e l.enabled l.stopped = r' := by simpa [step] using h
    exact Or.inl ⟨rfl, rfl⟩
  | seen e enabled stopped =>
    cases enabled with
    | false =>
      obtain ⟨rfl, -⟩ : l = l' ∧ .returned = r' := by simpa [step] using h
      exact Or.inl ⟨rfl, rfl⟩
    | true =>
      cases stopped with
      | true =>
        obtain ⟨rfl, -⟩ : { l with dropped := l.dropped + 1 } = l' ∧ .returned = r' := by simpa [step] using h
        exact Or.inl ⟨rfl, rfl⟩
      | false =>
        simp only [step] at h
        split at h
        · rename_i hroom
          obtain ⟨rfl, -⟩ : { l with queue := l.queue ++ [e] } = l' ∧ .returned = r' := by simpa using h
          exact Or.inr ⟨by simp, by simpa [sends] using hroom⟩
        · rename_i hfull
          obtain ⟨rfl, -⟩ : l = l' ∧ .full = r' := by simpa using h
          exact Or.inl ⟨rfl, by simpa [sends] using hfull⟩
  | full =>
    obtain ⟨rfl, -⟩ : { l with dropped := l.dropped + 1 } = l' ∧ .returned = r' := by simpa [step] using h
    exact Or.inl ⟨rfl, rfl⟩
  | returned => simp [step] at h

/-- `Run` returns when it has found the queue empty. -/
theorem Worker.step_returned {cancelled : Bool} {x : Choice} {w : Worker Entry}
    (h : w.step cancelled l x = some (l', .returned)) : l'.queue = [] := by
  cases w with
  | drain =>
    simp only [step] at h
    split at h
    · simp at h
    · rename_i hempty
      obtain rfl : l = l' := by simpa using h
      exact List.length_eq_zero_iff.1 (by omega)
  | wrote es d => cases d <;> simp [step, onward] at h
  | lost es d => cases d <;> simp [step, onward] at h
  | writing es d => cases x <;> simp [step] at h
  | select =>
    simp only [step] at h
    split at h
    · split at h <;> simp at h
    · simp at h
    · simp at h
    · cases h
  | batch es d =>
    simp only [step] at h
    split at h
    · split at h <;> simp at h
    · simp at h
  | receive =>
    simp only [step] at h
    split at h <;> simp at h
  | waiting | failed | stopping | returned => simp [step] at h

/-- **One step after the end of `Run`**: the queue stays empty exactly when the step is in time. -/
theorem step_drained {e : Event Entry} (h : Drained s) (hstep : s.step e = some s') : Drained s' ↔ s.inTime e = true := by
  obtain ⟨i, r, l', r', rfl, hr, hturn, rfl⟩ | ⟨x, l', w', rfl, hwork, rfl⟩ | ⟨htime, hlogger, -, -, hworker⟩ :=
    System.step_cases hstep
  · simp only [Drained, System.inTime, hr, Option.any_some]
    by_cases hw : s.worker = .returned
    · have hqueue := h hw
      rcases Recorder.step_queue hturn with ⟨hsame, hsends⟩ | ⟨hne, hsends⟩
      · simp [hw, hsends, hsame, hqueue]
      · simp [hw, hsends, hne]
    · simp [hw]
  · refine iff_of_true ?_ rfl
    intro hw
    obtain rfl : w' = .returned := hw
    exact Worker.step_returned hwork
  · refine iff_of_true ?_ htime
    intro hw
    rw [hlogger]
    rcases hworker with hsame | ⟨-, hwriting⟩
    · exact h (hsame ▸ hw)
    · rw [hwriting] at hw
      cases hw

/-- What is left in the queue after the end of `Run` stays there. -/
theorem step_left {e : Event Entry} (h : ¬ Drained s) (hstep : s.step e = some s') : ¬ Drained s' := by
  rw [Drained, Classical.not_imp] at h ⊢
  obtain ⟨hw, hqueue⟩ := h
  obtain ⟨i, r, l', r', -, hr, hturn, rfl⟩ | ⟨x, l', w', -, hwork, rfl⟩ | ⟨-, hlogger, -, -, hworker⟩ :=
    System.step_cases hstep
  · rcases Recorder.step_queue hturn with ⟨hsame, -⟩ | ⟨hne, -⟩
    · exact ⟨hw, by simpa [hsame] using hqueue⟩
    · exact ⟨hw, hne⟩
  · simp [hw, Worker.step] at hwork
  · rcases hworker with hsame | ⟨hwaiting, -⟩
    · exact ⟨hsame.trans hw, by rw [hlogger]; exact hqueue⟩
    · simp [hwaiting] at hw

/-! ### Runs to the end -/

theorem countP_owes_quiet (h : s.Quiet) : s.recorders.countP Recorder.owes = 0 := by
  rw [List.countP_eq_zero]
  intro r hr
  rw [h r hr]
  simp [Recorder.owes]

namespace Sample

/-- `Run` writes nothing, is stopped and finds the queue empty. -/
def runs : List (Event String) := [.run, .work .ok, .work .ok, .cancel, .work .done, .work .done, .work .done]

/-- A call of `Record` comes after `Run`. -/
def after : List (Event String) := runs ++ [.record "example.test", .turn 0, .turn 0]

/-- It has read the flags before. -/
def across : List (Event String) := [.record "example.test", .turn 0] ++ runs ++ [.turn 0]

end Sample

end Velora.Querylog
