import Velora.Webhooks.Consistent

/-!
# The delivery of events

`Publish`, `Run`, `deliverWithRetry` and `Test` of `internal/webhooks/webhooks.go`, running beside each other and beside the
requests that change the hooks. An event is put into a bounded queue for each hook that wants it, or dropped; `Run` takes it
out when one of four slots is free, and it is tried up to four times (`deliveries_sound`).
-/

namespace Velora.Webhooks

open Velora.Lib Velora.Lib.Text

def queueSize : ℕ := 256
def parallel : ℕ := 4

/-- `retryDelays`, in seconds. -/
def retryDelays : List ℕ := [2, 10, 30]

structure Event where
  type : Str
  severity : Str
  title : Str
  message : Str
  link : Str
  deriving DecidableEq

/-- What an endpoint receives; the version, the name and the version of the instance are constants. -/
structure Payload where
  id : Str
  event : Event
  occurredAt : ℕ
  deriving DecidableEq

structure Delivery where
  hook : Hook
  payload : Payload
  deriving DecidableEq

/-- `wants`. -/
def wants (hook : Hook) (event : Event) : Bool :=
  if (severityRank event.severity).getD 0 < (severityRank hook.minSeverity).getD 0 then false
  else hook.events.isEmpty || hook.events.contains event.type

/-- A hook that `Publish` does not pass over. -/
def matches' (event : Event) (hook : Hook) : Bool := hook.enabled && wants hook event

/-- `retryable`. -/
def retryable (status : ℕ) : Bool := status = 0 || status = 429 || status = 408 || 500 ≤ status

/-- What the transport brings: an error, or the status of an answer. -/
inductive Answer where
  | failed (err : List UInt8)
  | answered (statusCode : ℕ)
  deriving DecidableEq

/-- The end of `send`. -/
def Answer.result : Answer → ℕ × Option (List UInt8)
  | .failed err => (0, some err)
  | .answered code =>
    (code, if code < 200 ∨ code > 299 then some (Utf8.utf8 ("endpoint returned HTTP ".toList ++ decimal code)) else none)

/-! ### The parties -/

/-- Where a call of `Publish` is: before the lock, in its loop over the hooks, or at its end. -/
inductive Publisher where
  | called (event : Event)
  | offering (hooks : List Hook) (payload : Payload)
  | returned
  deriving DecidableEq

/-- Where `Run` is: in its `select`, with an item that waits for a slot, waiting for the deliveries, or at its end. -/
inductive Runner where
  | select
  | slot (item : Delivery)
  | stopping
  | returned
  deriving DecidableEq

/-- Where `deliverWithRetry` is. -/
inductive Phase where
  | sending
  | recording (result : ℕ × Option (List UInt8))
  | sleeping
  | returned
  deriving DecidableEq

/-- A call of `deliverWithRetry`. -/
structure Job where
  item : Delivery
  attempt : ℕ := 0
  phase : Phase := .sending
  /-- history: the results of its attempts, the last one first -/
  results : List (ℕ × Option (List UInt8)) := []
  deriving DecidableEq

/-- A call of `Test`. -/
inductive Tester where
  | sending (hook : Hook)
  | recording (hook : Hook) (result : ℕ × Option (List UInt8))
  | returned
  deriving DecidableEq

structure System where
  service : Service
  log : Log
  queue : List Delivery := []
  runner : Runner := .select
  cancelled : Bool := false
  publishers : List Publisher := []
  jobs : List Job := []
  testers : List Tester := []
  /-- history: the hooks that wanted an event when it was published, and what became of some of them -/
  wanted : ℕ := 0
  dropped : ℕ := 0
  lost : List Delivery := []

/-- The attempt ends the delivery: it has succeeded, there are no delays left, or it is not to be tried again. -/
def final (attempt : ℕ) (result : ℕ × Option (List UInt8)) : Bool :=
  result.2.isNone || retryDelays.length ≤ attempt || !retryable result.1

/-- A delivery that has written down a result: it ends, or it goes to sleep. -/
def Job.noted (j : Job) (result : ℕ × Option (List UInt8)) : Job :=
  { j with phase := if final j.attempt result then .returned else .sleeping, results := result :: j.results }

/-! ### Steps -/

inductive Move where
  /-- a request, and what the store does with it -/
  | request (c : Call) (storeFails : Option Err)
  | publish (event : Event)
  /-- the next step of a call of `Publish`; the ID and the time of its payload -/
  | offer (i : ℕ) (id : Str) (now : ℕ)
  | cancel
  /-- `Run` receives from the queue, gets a slot, or sees the end of its context -/
  | receive
  | start
  | done
  | stop
  /-- a delivery has an answer, writes it down at a time, or wakes up -/
  | answer (i : ℕ) (a : Answer)
  | note (i : ℕ) (now : ℕ)
  | wake (i : ℕ)
  | abandon (i : ℕ)
  /-- a call of `Test`, its answer, and writing it down -/
  | test (id : ℤ)
  | tested (i : ℕ) (a : Answer)
  | noted (i : ℕ) (now : ℕ)

namespace System

/-- The deliveries that hold a slot. -/
def active (s : System) : ℕ := s.jobs.countP (fun j => j.phase ≠ .returned)

/-- A request leaves the deliveries alone. -/
def withService (env : Env) (s : System) (storeFails : Option Err) (c : Call) : System :=
  { s with service := (s.service.step env storeFails c).2, log := s.service.hear env storeFails s.log c }

/-- A step of a call of `Publish`. -/
def offer (s : System) (i : ℕ) (id : Str) (now : ℕ) : Publisher → Option System
  | .called event =>
    some { s with
      publishers := s.publishers.set i (.offering s.service.hooks ⟨id, event, now⟩),
      wanted := s.wanted + s.service.hooks.countP (matches' event) }
  | .offering [] _ => some { s with publishers := s.publishers.set i .returned }
  | .offering (hook :: hooks) payload =>
    let s := { s with publishers := s.publishers.set i (.offering hooks payload) }
    if !matches' payload.event hook then some s
    else if s.queue.length < queueSize then some { s with queue := s.queue ++ [⟨hook, payload⟩] }
    else some { s with dropped := s.dropped + 1 }
  | .returned => none

/-- A delivery writes down a result. -/
def note (env : Env) (s : System) (i : ℕ) (now : ℕ) (j : Job) : Option System :=
  match j.phase with
  | .recording result =>
    some ({ s with jobs := s.jobs.set i (j.noted result) }.withService env none
      (.record j.item.hook.id ⟨now, result.1, result.2⟩))
  | _ => none

def step (env : Env) (s : System) : Move → Option System
  | .request c storeFails =>
    match c with
    | .record _ _ | .restart => none
    | c => some (s.withService env storeFails c)
  | .publish event => some { s with publishers := s.publishers ++ [.called event] }
  | .offer i id now => (s.publishers[i]?).bind (s.offer i id now)
  | .cancel => some { s with cancelled := true }
  | .receive => match s.runner, s.queue with
    | .select, item :: queue => some { s with runner := .slot item, queue := queue }
    | _, _ => none
  | .start => match s.runner with
    | .slot item => if s.active < parallel then some { s with runner := .select, jobs := s.jobs ++ [{ item := item }] } else none
    | _ => none
  | .done => match s.runner with
    | .select => if s.cancelled then some { s with runner := .stopping } else none
    | .slot item => if s.cancelled then some { s with runner := .select, lost := s.lost ++ [item] } else none
    | _ => none
  | .stop => if s.runner = .stopping then some { s with runner := .returned } else none
  | .answer i a => (s.jobs[i]?).bind (fun j =>
      if j.phase = .sending then some { s with jobs := s.jobs.set i { j with phase := .recording a.result } } else none)
  | .note i now => (s.jobs[i]?).bind (s.note env i now)
  | .wake i => (s.jobs[i]?).bind (fun j =>
      if j.phase = .sleeping then some { s with jobs := s.jobs.set i { j with phase := .sending, attempt := j.attempt + 1 } }
      else none)
  | .abandon i => (s.jobs[i]?).bind (fun j =>
      if j.phase = .sleeping ∧ s.cancelled then some { s with jobs := s.jobs.set i { j with phase := .returned } } else none)
  | .test id => (s.service.hooks.find? (fun h => h.id = id)).map (fun h => { s with testers := s.testers ++ [.sending h] })
  | .tested i a => match s.testers[i]? with
    | some (.sending h) => some { s with testers := s.testers.set i (.recording h a.result) }
    | _ => none
  | .noted i now => match s.testers[i]? with
    | some (.recording h result) =>
      some ({ s with testers := s.testers.set i .returned }.withService env none (.record h.id ⟨now, result.1, result.2⟩))
    | _ => none

/-- An empty database, and nothing published. -/
def new : System := { service := ⟨[], Repo.new⟩, log := fun _ => [] }

/-- A run; it is nothing where a step is not possible. -/
def run (env : Env) (s : System) (moves : List Move) : Option System := moves.foldlM (fun s m => s.step env m) s

end System

/-! ### What holds on the way -/

/-- The delivery is one the hook has asked for, and the hook could be stored. -/
def Meant (env : Env) (d : Delivery) : Prop := matches' d.payload.event d.hook = true ∧ Normal env d.hook

/-- A result after which a delivery is tried again. -/
def Again (result : ℕ × Option (List UInt8)) : Prop := result.2.isSome = true ∧ retryable result.1 = true

/-- The attempts of a delivery: all but the last one have failed in a way that may pass, and no more are made than there are
delays before them. -/
def Job.Tried (cancelled : Bool) (j : Job) : Prop :=
  match j.phase with
  | .sending | .recording _ => j.results.length = j.attempt ∧ j.attempt ≤ retryDelays.length ∧ ∀ r ∈ j.results, Again r
  | .sleeping => j.results.length = j.attempt + 1 ∧ j.attempt < retryDelays.length ∧ ∀ r ∈ j.results, Again r
  | .returned => ∃ last before, j.results = last :: before ∧ before.length = j.attempt ∧ j.attempt ≤ retryDelays.length ∧
      (∀ r ∈ before, Again r) ∧ (final j.attempt last = true ∨ cancelled = true)

/-- The hooks a call of `Publish` has still to offer its event to, and wants. -/
def Publisher.pending : Publisher → ℕ
  | .offering hooks payload => hooks.countP (matches' payload.event)
  | _ => 0

/-- The hooks a call of `Publish` has taken could be stored. -/
def Publisher.Clean (env : Env) : Publisher → Prop
  | .offering hooks _ => ∀ h ∈ hooks, Normal env h
  | _ => True

/-- The item in the hands of `Run`. -/
def Runner.held : Runner → List Delivery
  | .slot item => [item]
  | _ => []

namespace System

/-- Every delivery, wherever it is. -/
def deliveries (s : System) : List Delivery := s.queue ++ s.runner.held ++ s.lost ++ s.jobs.map Job.item

structure Inv (env : Env) (s : System) : Prop where
  consistent : Consistent env s.service
  heard : Heard s.service s.log
  queue : s.queue.length ≤ queueSize
  slots : s.active ≤ parallel
  account : s.wanted = s.dropped + s.deliveries.length + (s.publishers.map Publisher.pending).sum
  meant : ∀ d ∈ s.deliveries, Meant env d
  clean : ∀ p ∈ s.publishers, p.Clean env
  tried : ∀ j ∈ s.jobs, j.Tried s.cancelled

end System

section Lists

variable {α : Type} {l : List α} {i : ℕ} {a : α}

/-- A list whose entry is replaced, and the list itself, are the same beside that entry. -/
theorem set_perm_of_get (h : l[i]? = some a) : l.Perm (a :: l.eraseIdx i) ∧ ∀ b, (l.set i b).Perm (b :: l.eraseIdx i) := by
  obtain ⟨hi, rfl⟩ := List.getElem?_eq_some_iff.1 h
  exact ⟨(List.getElem_cons_eraseIdx_perm hi).symm, fun b => List.set_perm_cons_eraseIdx hi b⟩

theorem sum_set (h : l[i]? = some a) (f : α → ℕ) (b : α) : ((l.set i b).map f).sum + f a = (l.map f).sum + f b := by
  obtain ⟨hl, hset⟩ := set_perm_of_get h
  rw [(hl.map f).sum_eq, ((hset b).map f).sum_eq]
  simp only [List.map_cons, List.sum_cons]
  omega

theorem countP_set_add (h : l[i]? = some a) (p : α → Bool) (b : α) :
    (l.set i b).countP p + (p a).toNat = l.countP p + (p b).toNat := by
  obtain ⟨hl, hset⟩ := set_perm_of_get h
  rw [hl.countP_eq, (hset b).countP_eq, List.countP_cons, List.countP_cons]
  cases p a <;> cases p b <;> simp

theorem forall_set {P : α → Prop} (h : ∀ x ∈ l, P x) {b : α} (hb : P b) : ∀ x ∈ l.set i b, P x := by
  intro x hx
  rcases List.mem_or_eq_of_mem_set hx with hx | rfl
  · exact h x hx
  · exact hb

end Lists

theorem consistent_step {env : Env} {s : System} (h : s.Inv env) (storeFails : Option Err) (c : Call) :
    Consistent env (s.service.step env storeFails c).2 ∧
      Heard (s.service.step env storeFails c).2 (s.service.hear env storeFails s.log c) := by
  rcases step_cases h.consistent h.heard storeFails c with ⟨⟨e, he⟩, hlog⟩ | ⟨r, s', hs, hc, hh⟩
  · rw [he, hlog]
    exact ⟨h.consistent, h.heard⟩
  · rw [hs]
    exact ⟨hc, hh⟩

/-- A request, or a result that is written down, leaves the deliveries alone. -/
theorem System.Inv.withService {env : Env} {s : System} (h : s.Inv env) (storeFails : Option Err) (c : Call) :
    (s.withService env storeFails c).Inv env where
  consistent := (consistent_step h storeFails c).1
  heard := (consistent_step h storeFails c).2
  queue := h.queue
  slots := h.slots
  account := h.account
  meant := h.meant
  clean := h.clean
  tried := h.tried

namespace System.Inv

variable {env : Env} {s : System}

/-- A job that goes on with its item. -/
theorem setJob (h : s.Inv env) {i : ℕ} {j j' : Job} (hj : s.jobs[i]? = some j) (hitem : j'.item = j.item)
    (hphase : j.phase ≠ .returned) (htried : j'.Tried s.cancelled) : ({ s with jobs := s.jobs.set i j' } : System).Inv env := by
  have hitems : (s.jobs.set i j').map Job.item = s.jobs.map Job.item := Keyed.map_set hj hitem
  have hdeliveries : ({ s with jobs := s.jobs.set i j' } : System).deliveries = s.deliveries := by
    show s.queue ++ s.runner.held ++ s.lost ++ (s.jobs.set i j').map Job.item = _
    rw [hitems]
    rfl
  refine ⟨h.consistent, h.heard, h.queue, ?_, ?_, ?_, h.clean, forall_set h.tried htried⟩
  · have hcount := countP_set_add hj (fun j => decide (j.phase ≠ .returned)) j'
    have hone : (decide (j.phase ≠ .returned)).toNat = 1 := by rw [decide_eq_true hphase]; rfl
    have hle : (decide (j'.phase ≠ .returned)).toNat ≤ 1 := Bool.toNat_le _
    have hslots := h.slots
    show (s.jobs.set i j').countP (fun j => decide (j.phase ≠ .returned)) ≤ parallel
    unfold active at hslots
    omega
  · rw [hdeliveries]
    exact h.account
  · rw [hdeliveries]
    exact h.meant

/-- A step of a call of `Publish`. -/
theorem offer (h : s.Inv env) {i : ℕ} {id : Str} {now : ℕ} {p : Publisher} {s' : System} (hp : s.publishers[i]? = some p)
    (hs : s.offer i id now p = some s') : s'.Inv env := by
  have hsum := fun b => sum_set hp Publisher.pending b
  have haccount := h.account
  cases p with
  | returned => cases hs
  | called event =>
    cases hs
    have hone := hsum (.offering s.service.hooks ⟨id, event, now⟩)
    simp only [Publisher.pending] at hone
    have hnext : s.wanted + s.service.hooks.countP (matches' event) = s.dropped + s.deliveries.length +
        ((s.publishers.set i (.offering s.service.hooks ⟨id, event, now⟩)).map Publisher.pending).sum := by omega
    exact ⟨h.consistent, h.heard, h.queue, h.slots, hnext, h.meant, forall_set h.clean h.consistent.valid.normal, h.tried⟩
  | offering hooks payload =>
    have hclean : ∀ x ∈ hooks, Normal env x := h.clean _ (List.mem_of_getElem? hp)
    cases hooks with
    | nil =>
      cases hs
      have hone := hsum .returned
      simp only [Publisher.pending, List.countP_nil] at hone
      have hnext : s.wanted = s.dropped + s.deliveries.length + ((s.publishers.set i .returned).map Publisher.pending).sum := by
        omega
      exact ⟨h.consistent, h.heard, h.queue, h.slots, hnext, h.meant, forall_set h.clean trivial, h.tried⟩
    | cons hook hooks =>
      have hone := hsum (.offering hooks payload)
      simp only [Publisher.pending, List.countP_cons] at hone
      have hrest : ∀ x ∈ hooks, Normal env x := fun x hx => hclean x (List.mem_cons_of_mem hook hx)
      have hset : ∀ p ∈ s.publishers.set i (.offering hooks payload), p.Clean env := forall_set h.clean hrest
      rw [System.offer] at hs
      dsimp only at hs
      split at hs
      · -- the hook does not want the event
        rename_i hno
        cases hs
        rw [Bool.not_eq_true'] at hno
        rw [hno, if_neg Bool.false_ne_true] at hone
        have hnext : s.wanted = s.dropped + s.deliveries.length +
            ((s.publishers.set i (.offering hooks payload)).map Publisher.pending).sum := by omega
        exact ⟨h.consistent, h.heard, h.queue, h.slots, hnext, h.meant, hset, h.tried⟩
      rename_i hwants
      rw [Bool.not_eq_true', Bool.not_eq_false] at hwants
      rw [hwants, if_pos rfl] at hone
      split at hs
      · -- there is room
        rename_i hroom
        cases hs
        have hdeliveries : (s.queue ++ [(⟨hook, payload⟩ : Delivery)] ++ s.runner.held ++ s.lost ++ s.jobs.map Job.item).Perm
            ((⟨hook, payload⟩ : Delivery) :: s.deliveries) := by
          rw [deliveries]
          simp only [List.append_assoc, List.singleton_append]
          exact List.perm_middle
        have hnext : s.wanted = s.dropped +
            List.length (s.queue ++ [(⟨hook, payload⟩ : Delivery)] ++ s.runner.held ++ s.lost ++ s.jobs.map Job.item) +
            ((s.publishers.set i (.offering hooks payload)).map Publisher.pending).sum := by
          rw [hdeliveries.length_eq, List.length_cons]
          omega
        refine ⟨h.consistent, h.heard, ?_, h.slots, hnext, fun d hd => ?_, hset, h.tried⟩
        · show (s.queue ++ [(⟨hook, payload⟩ : Delivery)]).length ≤ queueSize
          rw [List.length_append, List.length_singleton]
          exact hroom
        · rcases List.mem_cons.1 (hdeliveries.mem_iff.1 hd) with rfl | hd
          · exact ⟨hwants, hclean hook List.mem_cons_self⟩
          · exact h.meant d hd
      · -- the queue is full
        cases hs
        have hnext : s.wanted = s.dropped + 1 + s.deliveries.length +
            ((s.publishers.set i (.offering hooks payload)).map Publisher.pending).sum := by omega
        exact ⟨h.consistent, h.heard, h.queue, h.slots, hnext, h.meant, hset, h.tried⟩

/-- `Run` moves an item; the deliveries stay the same ones. -/
theorem move {queue lost : List Delivery} {runner : Runner} (h : s.Inv env) (hqueue : queue.length ≤ s.queue.length)
    (hperm : (queue ++ runner.held ++ lost ++ s.jobs.map Job.item).Perm s.deliveries) :
    ({ s with queue := queue, runner := runner, lost := lost } : System).Inv env where
  consistent := h.consistent
  heard := h.heard
  queue := hqueue.trans h.queue
  slots := h.slots
  account := by
    show s.wanted = s.dropped + List.length (queue ++ runner.held ++ lost ++ s.jobs.map Job.item) + _
    rw [hperm.length_eq]
    exact h.account
  meant d hd := h.meant d (hperm.mem_iff.1 hd)
  clean := h.clean
  tried := h.tried

/-- A delivery is started in a free slot. -/
theorem start (h : s.Inv env) {item : Delivery} (hrunner : s.runner = .slot item) (hfree : s.active < parallel) :
    ({ s with runner := .select, jobs := s.jobs ++ [{ item := item }] } : System).Inv env := by
  have hperm : (s.queue ++ [] ++ s.lost ++ (s.jobs ++ [({ item := item } : Job)]).map Job.item).Perm s.deliveries := by
    rw [deliveries, hrunner, List.perm_iff_count]
    intro d
    simp only [Runner.held, List.map_append, List.map_singleton, List.count_append, List.count_nil]
    omega
  refine ⟨h.consistent, h.heard, h.queue, ?_, ?_, fun d hd => h.meant d (hperm.mem_iff.1 hd), h.clean, fun j hj => ?_⟩
  · show (s.jobs ++ [({ item := item } : Job)]).countP (fun j => decide (j.phase ≠ .returned)) ≤ parallel
    rw [List.countP_append, List.countP_singleton]
    unfold active at hfree
    split <;> omega
  · show s.wanted = s.dropped + List.length (s.queue ++ [] ++ s.lost ++ (s.jobs ++ [({ item := item } : Job)]).map Job.item) + _
    rw [hperm.length_eq]
    exact h.account
  · rcases List.mem_append.1 hj with hj | hj
    · exact h.tried j hj
    · rw [List.mem_singleton.1 hj]
      exact ⟨rfl, Nat.zero_le _, by simp⟩

/-- A result is written down: the delivery ends with it, or it has failed in a way that may pass. -/
theorem note (h : s.Inv env) {i now : ℕ} {j : Job} {s' : System} (hj : s.jobs[i]? = some j) (hs : s.note env i now j = some s') :
    s'.Inv env := by
  have htried := h.tried j (List.mem_of_getElem? hj)
  unfold System.note at hs
  split at hs
  · rename_i result hphase
    cases hs
    rw [Job.Tried, hphase] at htried
    have hnoted : (j.noted result).Tried s.cancelled := by
      obtain ⟨hlen, hle, hagain⟩ := htried
      unfold Job.noted Job.Tried
      cases hfinal : final j.attempt result with
      | true =>
        rw [if_pos rfl]
        exact ⟨result, j.results, rfl, hlen, hle, hagain, Or.inl hfinal⟩
      | false =>
        have hopen : result.2.isSome = true ∧ ¬ retryDelays.length ≤ j.attempt ∧ retryable result.1 = true := by
          unfold final at hfinal
          simpa [and_assoc, Option.isSome_iff_ne_none] using hfinal
        rw [if_neg Bool.false_ne_true]
        refine ⟨by rw [List.length_cons, hlen], not_le.1 hopen.2.1, fun r hr => ?_⟩
        rcases List.mem_cons.1 hr with rfl | hr
        · exact ⟨hopen.1, hopen.2.2⟩
        · exact hagain r hr
    have hopen : j.phase ≠ .returned := by
      rw [hphase]
      exact Phase.noConfusion
    have hitem : (j.noted result).item = j.item := rfl
    exact (h.setJob hj hitem hopen hnoted).withService none _
  · cases hs

/-- Another step of a delivery that has not ended. -/
theorem phases (h : s.Inv env) {i : ℕ} {j : Job} (hj : s.jobs[i]? = some j) :
    (∀ a : Answer, j.phase = .sending → ({ s with jobs := s.jobs.set i { j with phase := .recording a.result } } : System).Inv env) ∧
    (j.phase = .sleeping →
      ({ s with jobs := s.jobs.set i { j with phase := .sending, attempt := j.attempt + 1 } } : System).Inv env) ∧
    (j.phase = .sleeping → s.cancelled = true →
      ({ s with jobs := s.jobs.set i { j with phase := .returned } } : System).Inv env) := by
  have htried := h.tried j (List.mem_of_getElem? hj)
  refine ⟨fun a hphase => ?_, fun hphase => ?_, fun hphase hcancelled => ?_⟩
  · rw [Job.Tried, hphase] at htried
    exact h.setJob hj rfl (by rw [hphase]; exact Phase.noConfusion) htried
  · rw [Job.Tried, hphase] at htried
    exact h.setJob hj rfl (by rw [hphase]; exact Phase.noConfusion) ⟨htried.1, htried.2.1, htried.2.2⟩
  · rw [Job.Tried, hphase] at htried
    obtain ⟨hlen, hlt, hagain⟩ := htried
    have hne : j.results ≠ [] := fun h0 => by
      rw [h0] at hlen
      cases hlen
    obtain ⟨last, before, hresults⟩ := List.exists_cons_of_ne_nil hne
    refine h.setJob hj rfl (by rw [hphase]; exact Phase.noConfusion) ⟨last, before, hresults, ?_, hlt.le, fun r hr => ?_,
      Or.inr hcancelled⟩
    · rw [hresults, List.length_cons] at hlen
      exact Nat.succ_injective hlen
    · rw [hresults] at hagain
      exact hagain r (List.mem_cons_of_mem last hr)

end System.Inv

theorem System.Inv.cancel {env : Env} {s : System} (h : s.Inv env) : ({ s with cancelled := true } : System).Inv env where
  consistent := h.consistent
  heard := h.heard
  queue := h.queue
  slots := h.slots
  account := h.account
  meant := h.meant
  clean := h.clean
  tried j hj := by
    have htried := h.tried j hj
    unfold Job.Tried at htried ⊢
    split <;> rename_i hphase <;> rw [hphase] at htried
    · exact htried
    · exact htried
    · exact htried
    · obtain ⟨last, before, hresults, hlen, hle, hagain, -⟩ := htried
      exact ⟨last, before, hresults, hlen, hle, hagain, Or.inr rfl⟩

/-- **One step.** -/
theorem System.Inv.step {env : Env} {s s' : System} (h : s.Inv env) {m : Move} (hs : s.step env m = some s') : s'.Inv env := by
  cases m with
  | request c storeFails =>
    cases c <;> simp only [System.step, Option.some.injEq, reduceCtorEq] at hs <;> rw [← hs] <;> exact h.withService storeFails _
  | publish event =>
    cases hs
    refine ⟨h.consistent, h.heard, h.queue, h.slots, ?_, h.meant, fun p hp => ?_, h.tried⟩
    · show s.wanted = s.dropped + s.deliveries.length + ((s.publishers ++ [Publisher.called event]).map Publisher.pending).sum
      rw [List.map_append, List.sum_append]
      exact h.account
    · rcases List.mem_append.1 hp with hp | hp
      · exact h.clean p hp
      · rw [List.mem_singleton.1 hp]
        exact trivial
  | offer i id now =>
    obtain ⟨p, hp, hs⟩ := Option.bind_eq_some_iff.1 hs
    exact h.offer hp hs
  | cancel =>
    cases hs
    exact h.cancel
  | receive =>
    simp only [System.step] at hs
    split at hs
    · rename_i item queue hrunner hqueue
      cases hs
      have hlen : queue.length ≤ s.queue.length := by
        rw [hqueue]
        exact Nat.le_succ _
      refine h.move hlen ?_
      rw [System.deliveries, hrunner, hqueue, List.perm_iff_count]
      intro d
      simp only [Runner.held, List.count_append, List.count_cons, List.count_nil]
      omega
    · cases hs
  | start =>
    simp only [System.step] at hs
    split at hs
    · rename_i item hrunner
      split at hs
      · rename_i hfree
        cases hs
        exact h.start hrunner hfree
      · cases hs
    · cases hs
  | done =>
    simp only [System.step] at hs
    split at hs
    · rename_i hrunner
      split at hs
      · cases hs
        refine h.move (le_refl _) ?_
        rw [System.deliveries, hrunner]
        exact List.Perm.refl _
      · cases hs
    · rename_i item hrunner
      split at hs
      · cases hs
        refine h.move (le_refl _) ?_
        rw [System.deliveries, hrunner, List.perm_iff_count]
        intro d
        simp only [Runner.held, List.count_append, List.count_nil]
        omega
      · cases hs
    · cases hs
  | stop =>
    simp only [System.step] at hs
    split at hs
    · rename_i hrunner
      cases hs
      refine h.move (le_refl _) ?_
      rw [System.deliveries, hrunner]
      exact List.Perm.refl _
    · cases hs
  | answer i a =>
    obtain ⟨j, hj, hs⟩ := Option.bind_eq_some_iff.1 hs
    split at hs
    · rename_i hphase
      cases hs
      exact (h.phases hj).1 a hphase
    · cases hs
  | note i now =>
    obtain ⟨j, hj, hs⟩ := Option.bind_eq_some_iff.1 hs
    exact h.note hj hs
  | wake i =>
    obtain ⟨j, hj, hs⟩ := Option.bind_eq_some_iff.1 hs
    split at hs
    · rename_i hphase
      cases hs
      exact (h.phases hj).2.1 hphase
    · cases hs
  | abandon i =>
    obtain ⟨j, hj, hs⟩ := Option.bind_eq_some_iff.1 hs
    split at hs
    · rename_i hphase
      cases hs
      exact (h.phases hj).2.2 hphase.1 hphase.2
    · cases hs
  | test id =>
    obtain ⟨x, -, rfl⟩ := Option.map_eq_some_iff.1 hs
    exact ⟨h.consistent, h.heard, h.queue, h.slots, h.account, h.meant, h.clean, h.tried⟩
  | tested i a =>
    simp only [System.step] at hs
    split at hs
    · cases hs
      exact ⟨h.consistent, h.heard, h.queue, h.slots, h.account, h.meant, h.clean, h.tried⟩
    · cases hs
  | noted i now =>
    simp only [System.step] at hs
    split at hs
    · rename_i x result hget
      cases hs
      have hset : ({ s with testers := s.testers.set i .returned } : System).Inv env :=
        ⟨h.consistent, h.heard, h.queue, h.slots, h.account, h.meant, h.clean, h.tried⟩
      exact hset.withService none _
    · cases hs

/-! ### Runs -/

/-- What holds of the deliveries at any time. -/
structure Delivered (env : Env) (s : System) : Prop where
  bounded : s.queue.length ≤ 256 ∧ s.active ≤ 4
  /-- each hook that wanted an event still waits for its turn, or its delivery is somewhere or was dropped -/
  account : s.wanted = s.dropped + s.deliveries.length + (s.publishers.map Publisher.pending).sum
  /-- what is sent was asked for, and the hook could be stored -/
  meant : ∀ d ∈ s.deliveries, d.hook.enabled = true ∧ wants d.hook d.payload.event = true ∧ normalize env d.hook = .ok d.hook
  /-- up to four attempts are made, and each after the first follows a failure that may pass -/
  attempts : ∀ j ∈ s.jobs, j.results.length ≤ 4 ∧ ∀ r ∈ j.results.tail, Again r
  /-- a delivery ends with a success, a failure that does not pass, the fourth attempt, or the end of the context -/
  ended : ∀ j ∈ s.jobs, j.phase = .returned → ∃ r ∈ j.results.head?, ¬ Again r ∨ j.results.length = 4 ∨ s.cancelled = true
  service : Sound env s.service s.log

theorem System.Inv.delivered {env : Env} {s : System} (h : s.Inv env) : Delivered env s where
  bounded := ⟨h.queue, h.slots⟩
  account := h.account
  meant d hd := by
    obtain ⟨hwants, hnormal⟩ := h.meant d hd
    rw [matches', Bool.and_eq_true] at hwants
    exact ⟨hwants.1, hwants.2, normal_iff.1 hnormal⟩
  attempts j hj := by
    have hthree : retryDelays.length = 3 := rfl
    have htried := h.tried j hj
    unfold Job.Tried at htried
    split at htried
    · exact ⟨by omega, fun r hr => htried.2.2 r (List.mem_of_mem_tail hr)⟩
    · exact ⟨by omega, fun r hr => htried.2.2 r (List.mem_of_mem_tail hr)⟩
    · exact ⟨by omega, fun r hr => htried.2.2 r (List.mem_of_mem_tail hr)⟩
    · obtain ⟨last, before, hresults, hlen, hle, hagain, -⟩ := htried
      rw [hresults]
      exact ⟨by rw [List.length_cons]; omega, hagain⟩
  ended j hj hphase := by
    have htried := h.tried j hj
    rw [Job.Tried, hphase] at htried
    obtain ⟨last, before, hresults, hlen, hle, -, hend⟩ := htried
    rw [hresults]
    refine ⟨last, rfl, ?_⟩
    rcases hend with hfinal | hcancelled
    · rw [final, Bool.or_eq_true, Bool.or_eq_true, decide_eq_true_eq] at hfinal
      rcases hfinal with (hnone | hlast) | hno
      · refine Or.inl fun hagain => ?_
        rw [Option.isNone_iff_eq_none] at hnone
        rw [Again, hnone] at hagain
        exact absurd hagain.1 Bool.false_ne_true
      · refine Or.inr (Or.inl ?_)
        have hthree : retryDelays.length = 3 := rfl
        rw [List.length_cons]
        omega
      · refine Or.inl fun hagain => ?_
        rw [hagain.2] at hno
        exact absurd hno Bool.false_ne_true
    · exact Or.inr (Or.inr hcancelled)
  service := h.consistent.sound h.heard

theorem System.new_inv (env : Env) : System.new.Inv env where
  consistent := ⟨⟨by simp [new], by simp [new], List.nodup_nil, Nat.zero_le _⟩, List.Perm.nil⟩
  heard := ⟨by simp [new], fun _ _ => rfl⟩
  queue := Nat.zero_le _
  slots := Nat.zero_le _
  account := rfl
  meant := by simp [new, deliveries, Runner.held]
  clean := by simp [new]
  tried := by simp [new]

theorem System.run_inv {env : Env} {moves : List Move} {s s' : System} (h : s.Inv env) (hrun : s.run env moves = some s') :
    s'.Inv env := by
  induction moves generalizing s with
  | nil =>
    cases hrun
    exact h
  | cons m moves ih =>
    rw [System.run, List.foldlM_cons] at hrun
    obtain ⟨t, ht, hrun⟩ := Option.bind_eq_some_iff.1 hrun
    exact ih (h.step ht) hrun

/-- **Delivery.** In every interleaving of publications, requests, tests, attempts and the end of the service the queue and the
slots are bounded, every event that a hook wanted is accounted for, nothing else is sent, and each delivery is tried until it
succeeds, fails for good or has been tried four times. -/
theorem deliveries_sound (env : Env) (moves : List Move) : ∀ s ∈ System.new.run env moves, Delivered env s := by
  intro s hs
  exact (System.run_inv (System.new_inv env) hs).delivered

namespace Outage

def env : Env where
  parse _ := some ⟨"https".toList, false, "hooks.example".toList, [], [], []⟩
  fold := Char.toLower

def event : Event := ⟨"upstream.unavailable".toList, "critical".toList, [], [], []⟩

/-- A hook is created, an event published, and its delivery tried twice. -/
def moves : List Move :=
  [.request (.create ⟨"pager".toList, "https://hooks.example".toList, [], [], false, none, none⟩) none, .publish event,
    .offer 0 [] 5, .offer 0 [] 5, .offer 0 [] 5, .receive, .start, .answer 0 (.answered 503), .note 0 6, .wake 0,
    .answer 0 (.answered 200), .note 0 8]

end Outage

open Outage in
theorem deliveries_sound_outage : ∃ s, System.new.run env moves = some s ∧ Delivered env s ∧ s.wanted = 1 ∧
    s.jobs.map (fun j => j.results.map Prod.fst) = [[200, 503]] := by
  have hend : (System.new.run env moves).any (fun s =>
      s.wanted = 1 && s.jobs.map (fun j => j.results.map Prod.fst) = [[200, 503]]) = true := by decide +kernel
  obtain ⟨s, hs, hp⟩ := (Option.any_eq_true _ _).1 hend
  rw [Bool.and_eq_true, decide_eq_true_eq, decide_eq_true_eq] at hp
  exact ⟨s, hs, deliveries_sound env moves s hs, hp.1, hp.2⟩

end Velora.Webhooks
