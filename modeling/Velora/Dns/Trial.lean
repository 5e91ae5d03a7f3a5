import Velora.Dns.Forwarder
import Velora.Lib.Prog

/-!
# The trials of an upstream (`internal/dns/upstream_health.go`)

After three failures in a row an upstream gets no requests for half a minute, and then one at a time: `Begin` sets a flag, and
while it is set no other request is admitted. `Resolve` makes one `Finish` for each `Begin` that admits it, on all its paths
(`resolve_matched`), so that the flag is clear when nothing is in flight. But `Finish` clears the flag whoever calls it. A
request from before the third failure that fails during a trial makes room for a second one; without such a failure there is
never more than one trial in flight (`trial_exclusive_iff`).
-/

namespace Velora.Dns

open Velora.Lib Velora.Lib.Text Velora.Wire

/-! ### Upstream health -/

/-- `upstreamFailureThreshold`. -/
def upstreamFailureThreshold : ℕ := 3

/-- `upstreamRetryDelay`, in nanoseconds. -/
def upstreamRetryDelay : ℕ := 30 * 10 ^ 9

/-- The values of `UpstreamStatus.State`. -/
inductive HealthState where
  | unknown | healthy | degraded | unavailable
  deriving DecidableEq

/-- `UpstreamStatus`; the latency in nanoseconds. -/
structure UpstreamStatus where
  address : Str
  state : HealthState := .unknown
  consecutiveFailures : ℕ := 0
  latency : ℤ := 0
  lastSuccess : Option ℕ := none
  lastFailure : Option ℕ := none
  deriving DecidableEq

/-- `upstreamState`; the zero time is 0. -/
structure UpstreamState where
  status : UpstreamStatus
  retryAt : ℕ := 0
  probing : Bool := false
  deriving DecidableEq

structure UpstreamHealth where
  order : List Str
  items : Map Str UpstreamState

/-- What `onTransition` is called with. -/
structure Transition where
  address : Str
  previous : HealthState
  current : HealthState
  deriving DecidableEq

def UpstreamState.unavailable (item : UpstreamState) : Bool := upstreamFailureThreshold ≤ item.status.consecutiveFailures

namespace UpstreamHealth

/-- `NewUpstreamHealth`. -/
def new (addresses : List Str) : UpstreamHealth where
  order := addresses
  items := addresses.foldl (fun items address => items.insert address { status := { address := address } }) ∅

/-- `Begin`. -/
def begin (h : UpstreamHealth) (address : Str) (now : ℕ) : Bool × UpstreamHealth :=
  match h.items.lookup address with
  | none => (false, h)
  | some item =>
    if item.status.consecutiveFailures < upstreamFailureThreshold then (true, h)
    else if now < item.retryAt ∨ item.probing then (false, h)
    else (true, { h with items := h.items.insert address { item with probing := true } })

end UpstreamHealth

/-- What `Finish` makes of the state of the upstream. -/
def UpstreamState.finish (item : UpstreamState) (now : ℕ) (duration : ℤ) : Option Err → UpstreamState
  | none =>
    { status := { item.status with state := .healthy, consecutiveFailures := 0, latency := duration, lastSuccess := some now }
      retryAt := 0
      probing := false }
  | some _ =>
    let failures := item.status.consecutiveFailures + 1
    if upstreamFailureThreshold ≤ failures then
      { status := { item.status with state := .unavailable, consecutiveFailures := failures, lastFailure := some now }
        retryAt := now + upstreamRetryDelay
        probing := false }
    else
      { item with
        status := { item.status with state := .degraded, consecutiveFailures := failures, lastFailure := some now }
        probing := false }

/-- `Finish`, and the call of `onTransition` it makes. -/
def UpstreamHealth.finish (h : UpstreamHealth) (address : Str) (now : ℕ) (duration : ℤ) (err : Option Err) :
    UpstreamHealth × Option Transition :=
  match h.items.lookup address with
  | none => (h, none)
  | some item =>
    let item' := item.finish now duration err
    let previous := item.status.state
    let current := item'.status.state
    ({ h with items := h.items.insert address item' },
      if (current = .unavailable ∧ previous ≠ current) ∨ (current = .healthy ∧ previous ≠ .healthy ∧ previous ≠ .unknown) then
        some ⟨address, previous, current⟩
      else none)

/-! ### `Resolve` step by step -/

/-- What `Resolve` does that other goroutines may see or that takes time. -/
inductive UpstreamOp where
  /-- `ctx.Err()` -/
  | ctxErr
  /-- `time.Now()` -/
  | now
  | begin (upstream : Str) (now : ℕ)
  /-- the exchange with the upstream, and the checks of its response -/
  | attempt (upstream : Str)
  | finish (upstream : Str) (now : ℕ) (duration : ℤ) (err : Option Err)

abbrev UpstreamAns : UpstreamOp → Type
  | .ctxErr => Option Err
  | .now => ℕ
  | .begin _ _ => Bool
  | .attempt _ => Attempt
  | .finish _ _ _ _ => Unit

abbrev Resolving := Prog UpstreamOp UpstreamAns (Except Err (Msg × Str))

section

variable {σ : Type}

/-- The attempts that are left, as a program. -/
def attempts (f : Forwarder σ) (q : Msg) : List Str → Option Err → Resolving
  | [], last => .done (.error (.allFailed ((last.map Err.text).getD "<nil>")))
  | upstream :: rest, last => do
    let e : Option Err ← Prog.ask UpstreamOp.ctxErr
    match e with
    | some e => return .error e
    | none =>
      let now : ℕ ← Prog.ask UpstreamOp.now
      let admitted : Bool ← Prog.ask (UpstreamOp.begin upstream now)
      if !admitted then attempts f q rest (some (last.getD .coolingDown))
      else
        let started : ℕ ← Prog.ask UpstreamOp.now
        let a : Attempt ← Prog.ask (UpstreamOp.attempt upstream)
        let now : ℕ ← Prog.ask UpstreamOp.now
        let stopped : ℕ ← Prog.ask UpstreamOp.now
        match a with
        | .fatal e =>
          let _ : Unit ← Prog.ask (UpstreamOp.finish upstream now (stopped - started) (some e))
          return .error e
        | .failed e =>
          let _ : Unit ← Prog.ask (UpstreamOp.finish upstream now (stopped - started) (some e))
          attempts f q rest (some e)
        | .answered m =>
          let _ : Unit ← Prog.ask (UpstreamOp.finish upstream now (stopped - started) none)
          return .ok (restore f q m, upstream)

/-- `Resolve` as a program. -/
def Forwarder.program (f : Forwarder σ) (q : Msg) : Resolving := attempts f q f.schedule none

/-- The steps of a `Resolve` that runs alone. -/
def Forwarder.alone (lib : Miekg) (env : Env σ) (f : Forwarder σ) (ctx : Ctx σ) (q : Msg) :
    (op : UpstreamOp) → Unit → World σ → Option (UpstreamAns op × World σ)
  | .ctxErr, _, w => some (ctx.err w.net, w)
  | .now, _, w => some (env.clock w.net, w)
  | .begin upstream _, _, w => some (beginHealth f upstream w)
  | .attempt upstream, _, w => some (attempt lib env f (f.check lib env ctx q) upstream q w)
  | .finish upstream _ _ e, _, w => some ((), finishHealth f upstream e w)

/-- **The program is `Resolve`** when it runs alone. -/
theorem exec_program (lib : Miekg) (env : Env σ) (f : Forwarder σ) (ctx : Ctx σ) (q : Msg) (w : World σ) :
    (f.program q).exec (f.alone lib env ctx q) () w = some (f.resolve lib env ctx q w) := by
  unfold Forwarder.program Forwarder.resolve
  generalize f.schedule = schedule
  generalize (none : Option Err) = last
  induction schedule generalizing last w with
  | nil => rfl
  | cons upstream rest ih =>
    rw [attempts, tryAll, Prog.ask_bind, Prog.exec_call, Forwarder.alone, Option.bind_some]
    cases ctx.err w.net with
    | some e => rfl
    | none =>
      dsimp only
      rw [Prog.ask_bind, Prog.exec_call, Forwarder.alone, Option.bind_some, Prog.ask_bind, Prog.exec_call, Forwarder.alone,
        Option.bind_some]
      rcases beginHealth f upstream w with ⟨_ | _, w₁⟩
      · exact ih w₁ (some (last.getD .coolingDown))
      · dsimp only
        simp only [Bool.not_true, Bool.false_eq_true, if_false, Prog.ask_bind, Prog.exec_call, Forwarder.alone,
          Option.bind_some]
        rcases attempt lib env f (f.check lib env ctx q) upstream q w₁ with ⟨m | e | e, w₂⟩
        · rfl
        · exact ih (finishHealth f upstream (some e) w₂) (some e)
        · rfl

end

/-! ### Many at a time -/

/-- A request that `Begin` has admitted, from then to its `Finish`. -/
structure Flight where
  thread : ℕ
  upstream : Str
  /-- the spell of unavailability in which it was admitted -/
  spell : Option ℕ
  deriving DecidableEq

/-- The health of the upstreams and a clock, with two history variables. -/
structure Upstreams where
  health : UpstreamHealth
  clock : ℕ := 0
  /-- history: how often an upstream has become unavailable -/
  spells : Str → ℕ := fun _ => 0
  /-- history: the requests in flight -/
  flights : List Flight := []

/-- What the outside gives a goroutine that asks it. -/
structure Outside where
  ctx : Option Err := none
  clock : ℕ := 0
  attempt : Attempt := .failed .coolingDown

namespace Upstreams

def unavailable (s : Upstreams) (u : Str) : Bool := (s.health.items.lookup u).any UpstreamState.unavailable

/-- The requests in flight that were admitted since the upstream is unavailable. -/
def trials (s : Upstreams) (u : Str) : List Flight :=
  s.flights.filter (fun fl => fl.upstream = u ∧ fl.spell = some (s.spells u))

/-- `Begin` by thread `i`. -/
def begin (s : Upstreams) (i : ℕ) (u : Str) (now : ℕ) : Bool × Upstreams :=
  let (admitted, health) := s.health.begin u now
  let spell := if s.unavailable u then some (s.spells u) else none
  (admitted, { s with health := health, flights := if admitted then ⟨i, u, spell⟩ :: s.flights else s.flights })

/-- `Finish` by thread `i`. -/
def finish (s : Upstreams) (i : ℕ) (u : Str) (now : ℕ) (duration : ℤ) (err : Option Err) : Upstreams :=
  let s' := { s with
    health := (s.health.finish u now duration err).1
    flights := s.flights.filter (fun fl => fl.thread ≠ i) }
  if !s.unavailable u && s'.unavailable u then { s' with spells := Function.update s.spells u (s.spells u + 1) } else s'

/-- One step of thread `i`. The clock does not go back. -/
def act (i : ℕ) : (op : UpstreamOp) → Outside → Upstreams → Option (UpstreamAns op × Upstreams)
  | .ctxErr, x, s => some (x.ctx, s)
  | .now, x, s => if s.clock ≤ x.clock then some (x.clock, { s with clock := x.clock }) else none
  | .begin u now, _, s => some (s.begin i u now)
  | .attempt _, x, s => some (x.attempt, s)
  | .finish u now duration err, _, s => some ((), s.finish i u now duration err)

end Upstreams

/-- Any number of calls of `Resolve`, each with its forwarder, that share the health of their upstreams. -/
abbrev Resolvers (σ : Type) := Pool Upstreams (Forwarder σ × Msg) UpstreamOp UpstreamAns (Except Err (Msg × Str))

def Resolvers.step {σ : Type} : Resolvers σ → Turn (Forwarder σ × Msg) Outside → Option (Resolvers σ) :=
  Pool.step (fun c => c.1.program c.2) Upstreams.act

def Resolvers.start (σ : Type) (addresses : List Str) : Resolvers σ := { shared := { health := .new addresses } }

/-- The call is not the failure of a request that was admitted before the upstream became unavailable, while another one is
tried. -/
def Upstreams.timely (s : Upstreams) (i : ℕ) : UpstreamOp → Bool
  | .finish u _ _ (some _) =>
    !(s.health.items.lookup u).any UpstreamState.probing || (s.trials u).any (fun fl => fl.thread = i)
  | _ => true

def Resolvers.timely {σ : Type} (w : Resolvers σ) : Turn (Forwarder σ × Msg) Outside → Bool
  | .start _ => true
  | .turn i _ =>
    match w.threads[i]? with
    | some (_, .call op _) => w.shared.timely i op
    | _ => true

/-! ### `Begin` and `Finish` once each -/

/-- A goroutine has at most one request in flight, with `some u` the upstream: it begins none before it has finished that. -/
def matched : (op : UpstreamOp) → (UpstreamAns op → Option Str → Prop) → Option Str → Prop
  | .begin u _, Q, ph => ph = none ∧ Q true (some u) ∧ Q false none
  | .finish u _ _ _, Q, ph => ph = some u ∧ Q () none
  | .ctxErr, Q, ph => ∀ a, Q a ph
  | .now, Q, ph => ∀ a, Q a ph
  | .attempt _, Q, ph => ∀ a, Q a ph

section

variable {σ : Type}

/-- **Each `Begin` that admits has one `Finish`**, on all paths of `Resolve`. -/
theorem resolve_matched (f : Forwarder σ) (q : Msg) : (f.program q).obeys matched (fun _ ph => ph = none) none := by
  unfold Forwarder.program
  generalize f.schedule = schedule
  generalize (none : Option Err) = last
  induction schedule generalizing last with
  | nil => rfl
  | cons upstream rest ih =>
    rw [attempts, Prog.ask_bind, Prog.obeys_call]
    rintro (_ | e)
    · dsimp only
      rw [Prog.ask_bind, Prog.obeys_call]
      intro now
      rw [Prog.ask_bind, Prog.obeys_call]
      refine ⟨rfl, ?_, ih _⟩
      simp only [Bool.not_true, Bool.false_eq_true, if_false, Prog.ask_bind, Prog.obeys_call]
      rintro started (m | e | e) now stopped
      · exact ⟨rfl, rfl⟩
      · exact ⟨rfl, ih _⟩
      · exact ⟨rfl, rfl⟩
    · rfl

end

/-! ### What `Begin` and `Finish` do -/

namespace Upstreams

/-- What thread `i` has in flight. -/
def Phase (s : Upstreams) (i : ℕ) (ph : Option Str) : Prop :=
  (s.flights.filter (fun fl => fl.thread = i)).map Flight.upstream = ph.toList

/-- The flag of an upstream is set while it is unavailable and a trial is in flight. -/
structure Base (s : Upstreams) : Prop where
  probing : ∀ u item, s.health.items.lookup u = some item → item.probing = true → item.unavailable = true ∧ s.trials u ≠ []
  spell : ∀ fl ∈ s.flights, ∀ n, fl.spell = some n → n ≤ s.spells fl.upstream

/-- At most one trial is in flight, and then the flag is set. -/
def Sole (s : Upstreams) : Prop := ∀ u item, s.health.items.lookup u = some item → item.unavailable = true →
  (s.trials u).length ≤ 1 ∧ (s.trials u ≠ [] → item.probing = true)

variable {s s' : Upstreams} {i : ℕ} {u v : Str} {now : ℕ} {duration : ℤ} {err : Option Err} {item : UpstreamState}

theorem unavailable_of_lookup (h : s.health.items.lookup u = some item) : s.unavailable u = item.unavailable := by
  rw [unavailable, h, Option.any_some]

/-- **`Begin`**: it does not admit the request, or the upstream is not unavailable, or the request is a trial. -/
theorem begin_cases (s : Upstreams) (i : ℕ) (u : Str) (now : ℕ) :
    s.begin i u now = (false, s) ∨
      (s.unavailable u = false ∧ s.begin i u now = (true, { s with flights := ⟨i, u, none⟩ :: s.flights })) ∨
      ∃ item, s.health.items.lookup u = some item ∧ item.unavailable = true ∧ item.retryAt ≤ now ∧ item.probing = false ∧
        s.begin i u now = (true, { s with
          health := { s.health with items := s.health.items.insert u { item with probing := true } }
          flights := ⟨i, u, some (s.spells u)⟩ :: s.flights }) := by
  unfold begin UpstreamHealth.begin
  cases hitem : s.health.items.lookup u with
  | none => exact Or.inl rfl
  | some item =>
    dsimp only
    by_cases hfew : item.status.consecutiveFailures < upstreamFailureThreshold
    · have havailable : s.unavailable u = false := by
        rw [unavailable_of_lookup hitem]
        exact decide_eq_false (not_le.2 hfew)
      rw [if_pos hfew, if_pos rfl, havailable]
      exact Or.inr (Or.inl ⟨rfl, rfl⟩)
    · have hunavailable : item.unavailable = true := decide_eq_true (not_lt.1 hfew)
      rw [if_neg hfew]
      by_cases hwait : now < item.retryAt ∨ item.probing = true
      · rw [if_pos hwait]
        exact Or.inl rfl
      · rw [if_neg hwait, if_pos rfl, unavailable_of_lookup hitem, if_pos hunavailable]
        rw [not_or, not_lt, Bool.not_eq_true] at hwait
        exact Or.inr (Or.inr ⟨item, rfl, hunavailable, hwait.1, hwait.2, rfl⟩)

theorem finish_health : (s.finish i u now duration err).health = (s.health.finish u now duration err).1 := by
  unfold finish
  dsimp only
  split <;> rfl

theorem finish_lookup : (s.finish i u now duration err).health.items.lookup v =
    if v = u then (s.health.items.lookup u).map (fun item => item.finish now duration err)
    else s.health.items.lookup v := by
  rw [finish_health, UpstreamHealth.finish]
  cases hitem : s.health.items.lookup u with
  | none =>
    dsimp only
    split
    · rename_i hv
      rw [hv, hitem]
      rfl
    · rfl
  | some item =>
    dsimp only
    split
    · rename_i hv
      rw [hv, AList.lookup_insert]
      rfl
    · rename_i hv
      rw [AList.lookup_insert_ne hv]

theorem finish_flights : (s.finish i u now duration err).flights = s.flights.filter (fun fl => fl.thread ≠ i) := by
  unfold finish
  dsimp only
  split <;> rfl

theorem finish_spells_ne (hv : v ≠ u) : (s.finish i u now duration err).spells v = s.spells v := by
  unfold finish
  dsimp only
  split
  · exact Function.update_of_ne hv _ _
  · rfl

/-- A spell begins when the upstream becomes unavailable. -/
theorem finish_spells : (s.finish i u now duration err).spells u =
    if s.unavailable u = false ∧ (s.finish i u now duration err).unavailable u = true then s.spells u + 1 else s.spells u := by
  rw [unavailable, unavailable, finish_health]
  unfold finish
  dsimp only
  split
  · rename_i hbegins
    rw [Bool.and_eq_true, Bool.not_eq_true'] at hbegins
    exact (Function.update_self _ _ _).trans (if_pos hbegins).symm
  · rename_i hbegins
    rw [Bool.and_eq_true, Bool.not_eq_true'] at hbegins
    exact (if_neg hbegins).symm

/-- A finished request has no flag, and is a failure where the upstream is unavailable then. -/
theorem finish_item : (item.finish now duration err).probing = false ∧
    ((item.finish now duration err).unavailable = true → err.isSome = true) ∧
    (item.unavailable = true → err.isSome = true → (item.finish now duration err).unavailable = true) := by
  cases err with
  | none =>
    refine ⟨rfl, fun h => ?_, fun _ h => ?_⟩
    · cases h
    · cases h
  | some e =>
    unfold UpstreamState.finish
    dsimp only
    split
    · rename_i hmany
      exact ⟨rfl, fun _ => rfl, fun _ _ => decide_eq_true hmany⟩
    · rename_i hfew
      refine ⟨rfl, fun _ => rfl, fun h _ => ?_⟩
      have hmany : upstreamFailureThreshold ≤ item.status.consecutiveFailures := of_decide_eq_true h
      omega

/-! ### Trials -/

theorem trials_cons_none : ({ s with flights := ⟨i, u, none⟩ :: s.flights } : Upstreams).trials v = s.trials v := by
  unfold trials
  rw [List.filter_cons_of_neg (by simp)]

theorem trials_cons_self {health : UpstreamHealth} :
    ({ s with health := health, flights := ⟨i, u, some (s.spells u)⟩ :: s.flights } : Upstreams).trials u =
      ⟨i, u, some (s.spells u)⟩ :: s.trials u := by
  unfold trials
  rw [List.filter_cons_of_pos (by simp)]

theorem trials_cons_ne {health : UpstreamHealth} {spell : Option ℕ} (hv : v ≠ u) :
    ({ s with health := health, flights := ⟨i, u, spell⟩ :: s.flights } : Upstreams).trials v = s.trials v := by
  unfold trials
  rw [List.filter_cons_of_neg (by simp [Ne.symm hv])]

/-- The requests in flight of thread `i` are for this upstream. -/
theorem Phase.upstream (h : s.Phase i (some u)) {fl : Flight} (hfl : fl ∈ s.flights) (hi : fl.thread = i) : fl.upstream = u := by
  have hmem : fl.upstream ∈ (s.flights.filter (fun fl => fl.thread = i)).map Flight.upstream :=
    List.mem_map_of_mem (List.mem_filter.2 ⟨hfl, decide_eq_true hi⟩)
  rw [h] at hmem
  exact List.mem_singleton.1 hmem

theorem Phase.thread_ne (h : s.Phase i none) {fl : Flight} (hfl : fl ∈ s.flights) : fl.thread ≠ i := by
  intro hi
  have hnil := List.map_eq_nil_iff.1 h
  have hmem : fl ∈ s.flights.filter (fun fl => fl.thread = i) := List.mem_filter.2 ⟨hfl, decide_eq_true hi⟩
  rw [hnil] at hmem
  cases hmem

theorem finish_trials_ne (hphase : s.Phase i (some u)) (hv : v ≠ u) :
    (s.finish i u now duration err).trials v = s.trials v := by
  unfold trials
  rw [finish_spells_ne hv, finish_flights, List.filter_filter]
  refine List.filter_congr fun fl hfl => ?_
  by_cases hi : fl.thread = i
  · have hne : fl.upstream ≠ v := fun hu => hv (hu.symm.trans (hphase.upstream hfl hi))
    simp [hne]
  · simp [hi]

/-- The trials of an upstream that was unavailable before. -/
theorem finish_trials (h : s.unavailable u = true) :
    (s.finish i u now duration err).trials u = (s.trials u).filter (fun fl => fl.thread ≠ i) := by
  unfold trials
  rw [finish_spells, if_neg (by simp [h]), finish_flights, List.filter_filter, List.filter_filter]
  exact List.filter_congr fun fl _ => Bool.and_comm _ _

/-- A spell begins without trials. -/
theorem finish_trials_nil (hb : s.Base) (h : s.unavailable u = false)
    (h' : (s.finish i u now duration err).unavailable u = true) : (s.finish i u now duration err).trials u = [] := by
  refine List.filter_eq_nil_iff.2 fun fl hfl htrial => ?_
  rw [finish_spells, if_pos ⟨h, h'⟩, decide_eq_true_eq] at htrial
  rw [finish_flights] at hfl
  have hle := hb.spell fl (List.mem_of_mem_filter hfl) _ htrial.2
  rw [htrial.1] at hle
  omega

/-! ### What every step keeps -/

theorem begin_base (h : s.Base) : (s.begin i u now).2.Base := by
  rcases s.begin_cases i u now with heq | ⟨-, heq⟩ | ⟨item, hitem, hunavailable, -, -, heq⟩
  all_goals rw [heq]
  · exact h
  · refine ⟨fun v x hx hprobing => ?_, fun fl hfl n hn => ?_⟩
    · rw [trials_cons_none]
      exact h.probing v x hx hprobing
    · rcases List.mem_cons.1 hfl with rfl | hfl
      · cases hn
      · exact h.spell fl hfl n hn
  · refine ⟨fun v x hx hprobing => ?_, fun fl hfl n hn => ?_⟩
    · dsimp only at hx
      by_cases hv : v = u
      · subst hv
        rw [AList.lookup_insert, Option.some.injEq] at hx
        subst hx
        rw [trials_cons_self]
        exact ⟨hunavailable, List.cons_ne_nil _ _⟩
      · rw [AList.lookup_insert_ne hv] at hx
        rw [trials_cons_ne hv]
        exact h.probing v x hx hprobing
    · rcases List.mem_cons.1 hfl with rfl | hfl
      · cases hn
        exact le_refl _
      · exact h.spell fl hfl n hn

theorem finish_base (h : s.Base) (hphase : s.Phase i (some u)) : (s.finish i u now duration err).Base := by
  refine ⟨fun v x hx hprobing => ?_, fun fl hfl n hn => ?_⟩
  · rw [finish_lookup] at hx
    split at hx
    · -- the flag of the upstream itself is clear
      obtain ⟨item, -, rfl⟩ := Option.map_eq_some_iff.1 hx
      rw [finish_item.1] at hprobing
      cases hprobing
    · rename_i hv
      rw [finish_trials_ne hphase hv]
      exact h.probing v x hx hprobing
  · rw [finish_flights] at hfl
    refine (h.spell fl (List.mem_of_mem_filter hfl) n hn).trans ?_
    by_cases hu : fl.upstream = u
    · rw [hu, finish_spells]
      split <;> omega
    · rw [finish_spells_ne hu]

theorem begin_sole (h : s.Sole) : (s.begin i u now).2.Sole := by
  rcases s.begin_cases i u now with heq | ⟨-, heq⟩ | ⟨item, hitem, hunavailable, -, hclear, heq⟩
  all_goals rw [heq]
  · exact h
  · intro v x hx hv
    rw [trials_cons_none]
    exact h v x hx hv
  · intro v x hx hunavailable'
    dsimp only at hx
    by_cases hv : v = u
    · subst hv
      rw [AList.lookup_insert, Option.some.injEq] at hx
      subst hx
      -- a trial in flight would have set the flag
      have hnone : s.trials v = [] := by
        by_contra htrial
        rw [(h v item hitem hunavailable).2 htrial] at hclear
        cases hclear
      rw [trials_cons_self, hnone]
      exact ⟨le_refl _, fun _ => rfl⟩
    · rw [AList.lookup_insert_ne hv] at hx
      rw [trials_cons_ne hv]
      exact h v x hx hunavailable'

/-- **When `Finish` keeps the trials apart.** -/
theorem finish_sole_iff (hb : s.Base) (h : s.Sole) (hphase : s.Phase i (some u)) :
    (s.finish i u now duration err).Sole ↔ s.timely i (.finish u now duration err) = true := by
  constructor
  · intro h'
    cases err with
    | none => rfl
    | some e =>
      rw [timely, Bool.or_eq_true, Bool.not_eq_true', or_iff_not_imp_left, Bool.not_eq_false]
      intro hprobing
      obtain ⟨item, hitem, hflag⟩ := (Option.any_eq_true _ _).1 hprobing
      obtain ⟨hunavailable, htrials⟩ := hb.probing u item hitem hflag
      -- the flag is clear afterwards, so no trial may be left
      have hlookup : (s.finish i u now duration (some e)).health.items.lookup u = some (item.finish now duration (some e)) := by
        rw [finish_lookup, if_pos rfl, hitem, Option.map_some]
      have hfiltered : (s.finish i u now duration (some e)).trials u = (s.trials u).filter (fun fl => fl.thread ≠ i) :=
        finish_trials ((unavailable_of_lookup hitem).trans hunavailable)
      have hnone : (s.trials u).filter (fun fl => fl.thread ≠ i) = [] := by
        rw [← hfiltered]
        by_contra hleft
        have hset := (h' u _ hlookup (finish_item.2.2 hunavailable rfl)).2 hleft
        rw [finish_item.1] at hset
        cases hset
      obtain ⟨fl, hfl⟩ := List.exists_mem_of_ne_nil _ htrials
      refine List.any_eq_true.2 ⟨fl, hfl, ?_⟩
      by_contra hother
      have hmem := List.filter_eq_nil_iff.1 hnone fl hfl
      simp only [decide_eq_true_eq] at hother hmem
      exact hmem hother
  · intro htimely v x hx hunavailable'
    have hlookup := hx
    rw [finish_lookup] at hx
    split at hx
    · rename_i hv
      subst hv
      obtain ⟨item, hitem, rfl⟩ := Option.map_eq_some_iff.1 hx
      have hnone : (s.finish i v now duration err).trials v = [] := by
        by_cases hunavailable : s.unavailable v = true
        · rw [finish_trials hunavailable]
          obtain ⟨e, rfl⟩ := Option.isSome_iff_exists.1 (finish_item.2.1 hunavailable')
          obtain ⟨hone, hflag⟩ := h v item hitem ((unavailable_of_lookup hitem).symm.trans hunavailable)
          refine List.filter_eq_nil_iff.2 fun fl hfl hother => ?_
          rw [timely, hitem, Option.any_some, hflag (List.ne_nil_of_mem hfl)] at htimely
          obtain ⟨fl', hfl', hthread⟩ := List.any_eq_true.1 htimely
          -- there is one trial, the one that is finished
          obtain ⟨only, honly⟩ := List.length_eq_one_iff.1 (le_antisymm hone (List.length_pos_of_mem hfl))
          rw [honly, List.mem_singleton] at hfl hfl'
          rw [hfl', ← hfl] at hthread
          exact of_decide_eq_true hother (of_decide_eq_true hthread)
        · rw [Bool.not_eq_true] at hunavailable
          exact finish_trials_nil hb hunavailable ((unavailable_of_lookup hlookup).trans hunavailable')
      rw [hnone]
      exact ⟨Nat.zero_le _, fun hne => absurd rfl hne⟩
    · rename_i hv
      rw [finish_trials_ne hphase hv]
      exact h v x hx hunavailable'

/-- Where a thread is after its `Begin`. -/
theorem begin_phase (h : s.Phase i none) : (s.begin i u now).2.Phase i (if (s.begin i u now).1 then some u else none) := by
  have hcons : ∀ (health : UpstreamHealth) (spell : Option ℕ),
      Phase { s with health := health, flights := ⟨i, u, spell⟩ :: s.flights } i (some u) := by
    intro health spell
    have hnil : s.flights.filter (fun fl => fl.thread = i) = [] := List.map_eq_nil_iff.1 h
    unfold Phase
    rw [List.filter_cons_of_pos (by simp), hnil]
    rfl
  rcases s.begin_cases i u now with heq | ⟨-, heq⟩ | ⟨item, -, -, -, -, heq⟩
  all_goals rw [heq]
  · exact h
  · exact hcons _ _
  · exact hcons _ _

theorem begin_phase_ne {j : ℕ} {ph : Option Str} (hj : j ≠ i) (h : s.Phase j ph) : (s.begin i u now).2.Phase j ph := by
  rcases s.begin_cases i u now with heq | ⟨-, heq⟩ | ⟨item, -, -, -, -, heq⟩
  all_goals rw [heq]
  · exact h
  all_goals
    unfold Phase
    rw [List.filter_cons_of_neg (by simp [Ne.symm hj])]
    exact h

theorem finish_phase : (s.finish i u now duration err).Phase i none := by
  unfold Phase
  rw [finish_flights, List.filter_filter, List.filter_eq_nil_iff.2 (fun fl _ => by simp)]
  rfl

theorem finish_phase_ne {j : ℕ} {ph : Option Str} (hj : j ≠ i) (h : s.Phase j ph) :
    (s.finish i u now duration err).Phase j ph := by
  unfold Phase
  rw [finish_flights, List.filter_filter]
  refine (congrArg _ (List.filter_congr fun fl _ => ?_)).trans h
  by_cases hthread : fl.thread = j
  · simp [hthread, hj]
  · simp [hthread]

theorem begin_flights {fl : Flight} (h : fl ∈ (s.begin i u now).2.flights) : fl ∈ s.flights ∨ fl.thread = i := by
  rcases s.begin_cases i u now with heq | ⟨-, heq⟩ | ⟨item, -, -, -, -, heq⟩
  all_goals rw [heq] at h
  · exact Or.inl h
  all_goals
    rcases List.mem_cons.1 h with rfl | h
    · exact Or.inr rfl
    · exact Or.inl h

variable {op : UpstreamOp} {x : Outside} {a : UpstreamAns op} {Q : UpstreamAns op → Option Str → Prop} {ph : Option Str}

/-- **One step of a thread.** -/
theorem act_keeps (hb : s.Base) (hphase : s.Phase i ph) (hop : matched op Q ph) (hact : act i op x s = some (a, s')) :
    s'.Base ∧ (∃ ph', s'.Phase i ph' ∧ Q a ph') ∧ (∀ j ph, j ≠ i → s.Phase j ph → s'.Phase j ph) ∧
      ∀ fl ∈ s'.flights, fl ∈ s.flights ∨ fl.thread = i := by
  cases op with
  | ctxErr =>
    cases hact
    exact ⟨hb, ⟨ph, hphase, hop _⟩, fun _ _ _ h => h, fun _ h => Or.inl h⟩
  | attempt u =>
    cases hact
    exact ⟨hb, ⟨ph, hphase, hop _⟩, fun _ _ _ h => h, fun _ h => Or.inl h⟩
  | now =>
    rw [act] at hact
    split at hact
    · cases hact
      exact ⟨⟨hb.probing, hb.spell⟩, ⟨ph, hphase, hop _⟩, fun _ _ _ h => h, fun _ h => Or.inl h⟩
    · cases hact
  | begin u now =>
    obtain ⟨rfl, hyes, hno⟩ := hop
    have hanswer : Q (s.begin i u now).1 (if (s.begin i u now).1 then some u else none) := by
      cases (s.begin i u now).1 with
      | true => exact hyes
      | false => exact hno
    cases hact
    exact ⟨begin_base hb, ⟨_, begin_phase hphase, hanswer⟩, fun _ _ hj h => begin_phase_ne hj h, fun _ h => begin_flights h⟩
  | finish u now duration err =>
    obtain ⟨rfl, hQ⟩ := hop
    cases hact
    refine ⟨finish_base hb hphase, ⟨none, finish_phase, hQ⟩, fun _ _ hj h => finish_phase_ne hj h, fun fl h => ?_⟩
    rw [finish_flights] at h
    exact Or.inl (List.mem_of_mem_filter h)

theorem act_sole_iff (hb : s.Base) (h : s.Sole) (hphase : s.Phase i ph) (hop : matched op Q ph)
    (hact : act i op x s = some (a, s')) : s'.Sole ↔ s.timely i op = true := by
  cases op with
  | ctxErr =>
    cases hact
    exact iff_of_true h rfl
  | attempt u =>
    cases hact
    exact iff_of_true h rfl
  | now =>
    rw [act] at hact
    split at hact
    · cases hact
      exact iff_of_true h rfl
    · cases hact
  | begin u now =>
    cases hact
    exact iff_of_true (begin_sole h) rfl
  | finish u now duration err =>
    obtain ⟨rfl, -⟩ := hop
    cases hact
    exact finish_sole_iff hb h hphase

/-! ### Trials one at a time -/

/-- At most one trial is in flight, and whichever `Begin` comes next, there is still at most one. -/
def Exclusive (s : Upstreams) : Prop := ∀ u, s.unavailable u = true →
  (s.trials u).length ≤ 1 ∧ ∀ i now, ((s.begin i u now).2.trials u).length ≤ 1

theorem exclusive_iff : s.Exclusive ↔ s.Sole := by
  constructor
  · intro h u item hitem hunavailable
    obtain ⟨hone, hnext⟩ := h u ((unavailable_of_lookup hitem).trans hunavailable)
    refine ⟨hone, fun htrials => ?_⟩
    by_contra hclear
    -- when it is time, another request is admitted
    have htwo := hnext 0 item.retryAt
    have hbegin : s.health.begin u item.retryAt =
        (true, { s.health with items := s.health.items.insert u { item with probing := true } }) := by
      have hmany : ¬ item.status.consecutiveFailures < upstreamFailureThreshold := not_lt.2 (of_decide_eq_true hunavailable)
      rw [UpstreamHealth.begin, hitem]
      dsimp only
      rw [if_neg hmany, if_neg (by simp [hclear])]
    rw [begin, hbegin] at htwo
    dsimp only at htwo
    rw [if_pos rfl, (unavailable_of_lookup hitem).trans hunavailable, if_pos rfl, trials_cons_self, List.length_cons] at htwo
    have hpos := List.length_pos_iff.2 htrials
    omega
  · intro h u hunavailable
    obtain ⟨item, hitem, hmany⟩ := (Option.any_eq_true _ _).1 hunavailable
    refine ⟨(h u item hitem hmany).1, fun i now => ?_⟩
    have hnext : (s.begin i u now).2.Sole := begin_sole h
    rcases s.begin_cases i u now with heq | ⟨havailable, heq⟩ | ⟨item', hitem', -, -, -, heq⟩
    · rw [heq]
      exact (h u item hitem hmany).1
    · rw [havailable] at hunavailable
      cases hunavailable
    · have hlookup : (s.begin i u now).2.health.items.lookup u = some { item' with probing := true } := by
        rw [heq]
        exact AList.lookup_insert _
      cases hitem.symm.trans hitem'
      exact (hnext u _ hlookup hmany).1

/-- What holds in any case: no trial before its time, and when nothing is in flight the flag is clear and the next request is
admitted in time. -/
structure Fair (s : Upstreams) : Prop where
  early : ∀ u item now, s.health.items.lookup u = some item → item.unavailable = true → (s.health.begin u now).1 = true →
    item.retryAt ≤ now
  clear : ∀ u item, s.health.items.lookup u = some item → (∀ fl ∈ s.flights, fl.upstream ≠ u) → item.probing = false ∧
    ∀ now, item.retryAt ≤ now → (s.health.begin u now).1 = true

theorem Base.fair (h : s.Base) : s.Fair where
  early u item now hitem hunavailable hadmitted := by
    rcases s.begin_cases 0 u now with heq | ⟨havailable, -⟩ | ⟨item', hitem', -, hle, -⟩
    · have hno : (s.begin 0 u now).1 = (s.health.begin u now).1 := rfl
      rw [heq, hadmitted] at hno
      cases hno
    · rw [unavailable_of_lookup hitem, hunavailable] at havailable
      cases havailable
    · cases hitem.symm.trans hitem'
      exact hle
  clear u item hitem hnone := by
    have hclear : item.probing = false := by
      rw [← Bool.not_eq_true]
      intro hset
      obtain ⟨fl, hfl⟩ := List.exists_mem_of_ne_nil _ (h.probing u item hitem hset).2
      obtain ⟨hmem, htrial⟩ := List.mem_filter.1 hfl
      exact hnone fl hmem (of_decide_eq_true htrial).1
    refine ⟨hclear, fun now hle => ?_⟩
    rw [UpstreamHealth.begin, hitem]
    dsimp only
    split
    · rfl
    · rw [if_neg (by simp [hclear]; omega)]

end Upstreams

namespace Resolvers

variable {σ : Type} {w w' : Resolvers σ} {e : Turn (Forwarder σ × Msg) Outside}

/-- What every run keeps: each request in flight is the one that a thread has begun and not finished. -/
structure Flying (w : Resolvers σ) : Prop where
  holds : w.Holds Upstreams.Base (fun s i _ p => ∃ ph, s.Phase i ph ∧ p.obeys matched (fun _ ph => ph = none) ph)
  threads : ∀ fl ∈ w.shared.flights, fl.thread < w.threads.length

/-- **One step of many.** -/
theorem step_flying (h : Flying w) (hs : Resolvers.step w e = some w') :
    Flying w' ∧ (w.shared.Sole → (w'.shared.Sole ↔ w.timely e = true)) := by
  have hnew : w.shared.Phase w.threads.length none := by
    unfold Upstreams.Phase
    rw [List.filter_eq_nil_iff.2 fun fl hfl => ?_]
    · rfl
    · have := h.threads fl hfl
      simp only [decide_eq_true_eq]
      omega
  refine ⟨⟨Pool.step_holds (fun c _ => ⟨none, hnew, resolve_matched c.1 c.2⟩) ?_ h.holds hs, ?_⟩, ?_⟩
  · rintro i x c op k a s' - - hb ⟨ph, hphase, hop⟩ hact
    obtain ⟨hb', hphase', hothers, -⟩ := Upstreams.act_keeps hb hphase hop hact
    exact ⟨hb', hphase', fun j _ _ hj ⟨ph, hph, hobeys⟩ => ⟨ph, hothers j ph hj hph, hobeys⟩⟩
  · cases e with
    | start c =>
      cases hs
      intro fl hfl
      rw [List.length_append]
      exact Nat.lt_add_right _ (h.threads fl hfl)
    | turn i x =>
      obtain ⟨c, op, k, a, s', hi, hact, rfl⟩ := Pool.step_turn hs
      obtain ⟨ph, hphase, hop⟩ := h.holds.threads i c _ hi
      obtain ⟨-, -, -, hflights⟩ := Upstreams.act_keeps h.holds.shared hphase hop hact
      intro fl hfl
      rw [List.length_set]
      rcases hflights fl hfl with hold | rfl
      · exact h.threads fl hold
      · exact (List.getElem?_eq_some_iff.1 hi).1
  · intro hsole
    cases e with
    | start c =>
      cases hs
      exact iff_of_true hsole rfl
    | turn i x =>
      obtain ⟨c, op, k, a, s', hi, hact, rfl⟩ := Pool.step_turn hs
      obtain ⟨ph, hphase, hop⟩ := h.holds.threads i c _ hi
      rw [timely, hi]
      exact Upstreams.act_sole_iff h.holds.shared hsole hphase hop hact

theorem new_lookup {addresses : List Str} {u : Str} {item : UpstreamState}
    (h : (UpstreamHealth.new addresses).items.lookup u = some item) : item = { status := { address := u } } := by
  have hloop : ∀ (addresses : List Str) (items : Map Str UpstreamState),
      (∀ u item, items.lookup u = some item → item = { status := { address := u } }) → ∀ u item,
      (addresses.foldl (fun items address => items.insert address { status := { address := address } }) items).lookup u =
        some item → item = { status := { address := u } } := by
    intro addresses
    induction addresses with
    | nil => exact fun _ h => h
    | cons address rest ih =>
      intro items hitems
      refine ih _ fun u item hitem => ?_
      by_cases hu : u = address
      · rw [hu, AList.lookup_insert] at hitem
        rw [hu]
        exact (Option.some.inj hitem).symm
      · rw [AList.lookup_insert_ne hu] at hitem
        exact hitems u item hitem
  exact hloop addresses ∅ (fun u item h => by rw [AList.lookup_empty] at h; cases h) u item h

theorem start_flying (σ : Type) (addresses : List Str) : Flying (start σ addresses) := by
  refine ⟨⟨⟨fun u item hitem hset => ?_, by simp [start]⟩, by simp [start]⟩, by simp [start]⟩
  rw [new_lookup hitem] at hset
  cases hset

theorem start_sole (σ : Type) (addresses : List Str) : (start σ addresses).shared.Sole := by
  intro u item hitem hunavailable
  rw [new_lookup hitem] at hunavailable
  cases hunavailable

/-- **Trials are exclusive** in a run, in all its states and whichever `Begin` comes next, exactly when no request that was
admitted before an upstream became unavailable fails while another one is tried. In every run no trial is admitted before its
time, the flag is clear when nothing is in flight, and a `Resolve` that has returned has nothing in flight. -/
theorem trial_exclusive_iff {addresses : List Str} {es : List (Turn (Forwarder σ × Msg) Outside)}
    (hrun : run Resolvers.step (start σ addresses) es = some w) :
    ((∀ n v, run Resolvers.step (start σ addresses) (es.take n) = some v → v.shared.Exclusive) ↔
        Meets Resolvers.step (fun w e => w.timely e = true) (start σ addresses) es) ∧
      w.shared.Fair ∧
      ∀ (i : ℕ) (c : Forwarder σ × Msg) (r : Except Err (Msg × Str)), w.threads[i]? = some (c, .done r) →
        ∀ fl ∈ w.shared.flights, fl.thread ≠ i := by
  have hflying : ∀ es v, run Resolvers.step (start σ addresses) es = some v → Flying v := fun es v hv =>
    run_keeps (fun _ _ _ h hs => (step_flying h hs).1) hv (start_flying σ addresses)
  have h := hflying es w hrun
  refine ⟨?_, h.holds.shared.fair, fun i c r hi fl hfl => ?_⟩
  · have hstep : ∀ (v : Resolvers σ) e v', Flying v ∧ v.shared.Sole → Resolvers.step v e = some v' →
        (Flying v' ∧ v'.shared.Sole ↔ v.timely e = true) := by
      intro v e v' hv hs
      obtain ⟨hflying', hsole⟩ := step_flying hv.1 hs
      rw [and_iff_right hflying']
      exact hsole hv.2
    rw [← run_invariant_iff hstep hrun ⟨start_flying σ addresses, start_sole σ addresses⟩]
    refine forall_congr' fun n => forall_congr' fun v => forall_congr' fun hv => ?_
    rw [Upstreams.exclusive_iff, and_iff_right (hflying _ v hv)]
  · obtain ⟨ph, hphase, rfl⟩ := h.holds.threads i c _ hi
    exact hphase.thread_ne hfl

namespace Sample

def upstream : Str := "192.0.2.53:53".toList

def call : Forwarder Unit × Msg := ({ upstreams := [upstream], retries := 0 }, default)

/-- Thread `i` takes its next four steps at this second: the two halves of one attempt, which fails. -/
def half (i second : ℕ) : List (Turn (Forwarder Unit × Msg) Outside) :=
  List.replicate 4 (.turn i { clock := second * 10 ^ 9 })

/-- Four requests are sent, and three of them fail. -/
def outage : List (Turn (Forwarder Unit × Msg) Outside) :=
  List.replicate 6 (.start call) ++ half 0 0 ++ half 1 0 ++ half 2 0 ++ half 3 0 ++ half 0 0 ++ half 1 0 ++ half 2 0

end Sample

open Velora.Dns.Resolvers.Sample in
theorem trial_exclusive_outage : ∃ w, run Resolvers.step (start Unit [upstream]) (outage ++ half 4 30) = some w ∧
    w.shared.trials upstream = [⟨4, upstream, some 1⟩] ∧
    ∀ n v, run Resolvers.step (start Unit [upstream]) ((outage ++ half 4 30).take n) = some v → v.shared.Exclusive := by
  have htest : (run Resolvers.step (start Unit [upstream]) (outage ++ half 4 30)).any (fun w =>
      decide (w.shared.trials upstream = [⟨4, upstream, some 1⟩])) = true := by
    decide +kernel
  have hmeets : checks Resolvers.step (fun w e => w.timely e) (start Unit [upstream]) (outage ++ half 4 30) = true := by
    decide +kernel
  obtain ⟨w, hw, htrials⟩ := (Option.any_eq_true _ _).1 htest
  exact ⟨w, hw, of_decide_eq_true htrials, (trial_exclusive_iff hw).1.2 (meets_of_checks hmeets)⟩

open Velora.Dns.Resolvers.Sample in
/-- The fourth request of the outage fails during a trial, and a second trial is sent while the first one is in flight. -/
theorem trial_twice : ∃ w, run Resolvers.step (start Unit [upstream]) (outage ++ half 4 30 ++ half 3 31 ++ half 5 61) = some w ∧
    w.shared.unavailable upstream = true ∧ w.shared.trials upstream = [⟨5, upstream, some 1⟩, ⟨4, upstream, some 1⟩] := by
  have htest : (run Resolvers.step (start Unit [upstream]) (outage ++ half 4 30 ++ half 3 31 ++ half 5 61)).any (fun w =>
      w.shared.unavailable upstream &&
        decide (w.shared.trials upstream = [⟨5, upstream, some 1⟩, ⟨4, upstream, some 1⟩])) = true := by
    decide +kernel
  obtain ⟨w, hw, hstate⟩ := (Option.any_eq_true _ _).1 htest
  rw [Bool.and_eq_true, decide_eq_true_eq] at hstate
  exact ⟨w, hw, hstate⟩

end Resolvers

end Velora.Dns
