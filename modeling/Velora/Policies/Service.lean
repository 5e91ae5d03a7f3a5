import Velora.Filtering.Service
import Velora.Forwarding.Service

/-!
# Policies of clients

`internal/policies/policies.go` next to the publications of `internal/filtering/service.go`, as programs of atomic steps. A
save, a delete and the forgetting of a client hold both locks of the service from their start to their end; a recompilation
holds one of them, and reads the policies and the published sources at different times. A publication stores the sources
and then starts a recompilation, which waits for its lock.
-/

namespace Velora.Policies

open Velora.Lib Velora.Lib.Text
open Velora.Dns (Map)
open Velora.Filtering (Source Matcher Clean Usable)

def maxPolicies : ℕ := 64
def maxExtraDomains : ℕ := 1000

inductive Err where
  | invalid (detail : String)
  | notFound
  | exists (detail : String)
  | storage (text : String)
  deriving DecidableEq

structure Policy where
  id : ℤ
  clientID : ℤ
  mode : Str
  blocklists : List ℤ
  allow : List Str
  block : List Str
  enabled : Bool
  deriving DecidableEq

def modeDefault : Str := "default".toList
def modeDisabled : Str := "disabled".toList
def modeCustom : Str := "custom".toList

/-- What queries read: no matcher stands for no filtering, and a client without an entry has the global filter. -/
abbrev Compiled := Map ℤ (Option Matcher)

/-- `BlockedFor`, of the client that owns the address. -/
def blockedFor (current : Compiled) (global : Str → Bool) (client : Option ℤ) (name : Str) : Bool :=
  match client.bind current.lookup with
  | some matcher => (matcher.map (fun m => m.blocked name)).getD false
  | none => global name

/-! ### What a save accepts -/

/-- `domains`. -/
def domains (label : String) : List Str → List Str → Except Err (List Str)
  | [], out => .ok out
  | raw :: rest, out =>
    if trimSpaces raw = [] then domains label rest out
    else
      match Filtering.name raw with
      | none =>
        .error (.invalid (Forwarding.quoted (trimSpaces raw) ++ " is not a valid " ++ label ++ " domain"))
      | some domain => domains label rest (if domain ∈ out then out else out ++ [domain])

/-- The loop of `normalize` over the blocklists. -/
def normalizeBlocklists : List ℤ → List ℤ → Except Err (List ℤ)
  | [], out => .ok out
  | id :: rest, out =>
    if id < 1 then .error (.invalid ("unknown blocklist " ++ toString id))
    else normalizeBlocklists rest (if id ∈ out then out else out ++ [id])

/-- `normalize`. -/
def normalize (p : Policy) : Except Err Policy :=
  if p.clientID < 1 then .error (.invalid "choose a client")
  else if p.mode = modeDefault ∨ p.mode = modeDisabled then .ok { p with blocklists := [], allow := [], block := [] }
  else if p.mode ≠ modeCustom then .error (.invalid "mode must be default, disabled or custom")
  else do
    let blocklists ← normalizeBlocklists p.blocklists []
    let allow ← domains "allowed" p.allow []
    let block ← domains "blocked" p.block []
    if allow.length + block.length > maxExtraDomains then .error (.invalid "at most 1000 extra domains")
    else
      .ok { p with blocklists := blocklists.insertionSort (fun a b => a ≤ b), allow := allow, block := block }

/-! ### Compiling -/

/-- The rules a custom policy adds. -/
def extraRules (p : Policy) : List Filtering.Rule :=
  p.block.map (fun d => ⟨d, true, .block⟩) ++ p.allow.map (fun d => ⟨d, true, .allow⟩)

/-- What a policy adds to the table: nothing, an entry, or an entry with the matcher of a subset. -/
inductive Adds where
  | nothing
  | unfiltered
  | subset

def Policy.adds (p : Policy) : Adds :=
  if !p.enabled then .nothing
  else if p.mode = modeDisabled then .unfiltered
  else if p.mode = modeCustom then .subset
  else .nothing

/-- One turn of the loop of `compile`, with the answer of `Subset` where it is asked. -/
def addPolicy (subset : List ℤ → List Filtering.Rule → Except Filtering.Err Matcher) (next : Compiled) (p : Policy) :
    Except Filtering.Err Compiled :=
  match p.adds with
  | .nothing => .ok next
  | .unfiltered => .ok (next.insert p.clientID none)
  | .subset => (subset p.blocklists (extraRules p)).map (fun m => next.insert p.clientID (some m))

/-- `compile`, against sources that do not change. -/
def compile (subset : List ℤ → List Filtering.Rule → Except Filtering.Err Matcher) (ps : List Policy) :
    Except Filtering.Err Compiled :=
  ps.foldlM (addPolicy subset) ∅

/-! ### Steps -/

/-- Lists as the blocklist service publishes them (`after_clean`). -/
structure Publication where
  sources : List Source
  clean : Clean sources

inductive Op where
  /-- `s.rebuild.Lock()` of an operation -/
  | lockRebuild
  /-- `s.rebuild.Lock()` of a recompilation that was started -/
  | take
  | unlockRebuild
  | lock
  | unlock
  /-- a read of `s.policies` -/
  | policies
  /-- one call of `Subset`, which loads the published sources once -/
  | subset (ids : List ℤ) (extra : List Filtering.Rule)
  | savePolicy (p : Policy)
  | deletePolicy (id : ℤ)
  /-- `s.policies = ps` -/
  | setPolicies (ps : List Policy)
  /-- `s.current.Store(next)` -/
  | store (next : Compiled)
  /-- the mutex of the blocklist service -/
  | lockSources
  | unlockSources
  /-- `s.published.Store(&snapshot)` -/
  | publish (snapshot : Publication)
  /-- `go (*observer)()` -/
  | spawn

abbrev Ans : Op → Type
  | .policies => List Policy
  | .subset _ _ => Except Filtering.Err Matcher
  | .savePolicy _ => Except Err Policy
  | .deletePolicy _ => Except Err Unit
  | _ => Unit

abbrev Script := Prog Op Ans

def ask (op : Op) : Script (Ans op) := Prog.ask op

/-- One turn of the loop of `compile`. -/
def compileTurn (next : Compiled) (p : Policy) : Script (Except Filtering.Err Compiled) :=
  match p.adds with
  | .nothing => return .ok next
  | .unfiltered => return .ok (next.insert p.clientID none)
  | .subset => do
    let r ← ask (.subset p.blocklists (extraRules p))
    return r.map (fun m => next.insert p.clientID (some m))

/-- `compile`. -/
def compileScript : List Policy → Compiled → Script (Except Filtering.Err Compiled)
  | [], next => return .ok next
  | p :: ps, next => do
    match ← compileTurn next p with
    | .error e => return .error e
    | .ok next => compileScript ps next

/-- The clients a save must not meet again: all but that of the policy it replaces. -/
def others (ps : List Policy) : Option ℕ → List Policy
  | some i => ps.eraseIdx i
  | none => ps

/-- The list a save goes on with. -/
def place (ps : List Policy) (p : Policy) : Option ℕ → List Policy
  | some i => ps.set i p
  | none => ps ++ [p]

/-- The place of the policy with an ID. -/
def indexOf (ps : List Policy) (id : ℤ) : Option ℕ := if id = 0 then none else ps.findIdx? (fun x => x.id = id)

/-- The checks of `save` on the policies it has read, and the place of the one it saves. -/
def checkSave (ps : List Policy) (p : Policy) : Except Err (Option ℕ) :=
  if p.id ≠ 0 ∧ indexOf ps p.id = none then .error .notFound
  else if (others ps (indexOf ps p.id)).any (fun x => x.clientID = p.clientID) then
    .error (.exists "this client already has a policy")
  else if p.id = 0 ∧ ps.length ≥ maxPolicies then .error (.invalid "at most 64 policies")
  else .ok (indexOf ps p.id)

/-- `save`, between taking and releasing the locks. -/
def saveLocked (p : Policy) : Script (Except Err Unit) := do
  let ps : List Policy ← ask .policies
  match checkSave ps p with
  | .error e => return .error e
  | .ok index =>
    match ← compileScript (place ps p index) ∅ with
    | .error _ => return .error (.invalid "invalid domain")
    | .ok next =>
      let r : Except Err Policy ← ask (.savePolicy p)
      match r with
      | .error e => return .error e
      | .ok saved =>
        let _ : Unit ← ask (.setPolicies ((place ps saved index).insertionSort (fun a b => a.clientID ≤ b.clientID)))
        let _ : Unit ← ask (.store next)
        return .ok ()

/-- Store what is compiled from the policies, when they can be compiled. -/
def recompileFrom (ps : List Policy) : Script (Except Err Unit) := do
  match ← compileScript ps ∅ with
  | .error _ => return .ok ()
  | .ok next =>
    let _ : Unit ← ask (.store next)
    return .ok ()

/-- `Delete`, between taking and releasing the locks. -/
def deleteLocked (id : ℤ) : Script (Except Err Unit) := do
  let ps : List Policy ← ask .policies
  match ps.findIdx? (fun x => x.id = id) with
  | none => return .error .notFound
  | some i =>
    let r : Except Err Unit ← ask (.deletePolicy id)
    match r with
    | .error e => return .error e
    | .ok _ =>
      let _ : Unit ← ask (.setPolicies (ps.eraseIdx i))
      recompileFrom (ps.eraseIdx i)

/-- `ForgetClient`, between taking and releasing the locks. -/
def forgetLocked (client : ℤ) : Script (Except Err Unit) := do
  let ps : List Policy ← ask .policies
  let rest := ps.filter (fun x => x.clientID ≠ client)
  if rest.length = ps.length then return .ok ()
  else
    let _ : Unit ← ask (.setPolicies rest)
    recompileFrom rest

/-- The lock of the service around a script. -/
def locked (body : Script (Except Err Unit)) : Script (Except Err Unit) := do
  let _ : Unit ← ask .lock
  let r ← body
  let _ : Unit ← ask .unlock
  return r

/-- The lock of recompilations around a script; `acquire` is how it is taken. -/
def rebuilding (acquire : Op) (body : Script (Except Err Unit)) : Script (Except Err Unit) := do
  let _ ← ask acquire
  let r ← body
  let _ : Unit ← ask .unlockRebuild
  return r

/-- `Recompile`, with the lock. -/
def recompileLocked : Script (Except Err Unit) := do
  let _ : Unit ← ask .lock
  let ps : List Policy ← ask .policies
  let _ : Unit ← ask .unlock
  recompileFrom ps

inductive Call where
  | create (p : Policy)
  | update (id : ℤ) (p : Policy)
  | delete (id : ℤ)
  | forget (client : ℤ)
  | recompile
  | publish (snapshot : Publication)

/-- `save`. -/
def save (p : Policy) : Script (Except Err Unit) :=
  match normalize p with
  | .error e => return .error e
  | .ok p => rebuilding .lockRebuild (locked (saveLocked p))

def body : Call → Script (Except Err Unit)
  | .create p => save { p with id := 0 }
  | .update id p => if id < 1 then return .error .notFound else save { p with id := id }
  | .delete id => rebuilding .lockRebuild (locked (deleteLocked id))
  | .forget client => rebuilding .lockRebuild (locked (forgetLocked client))
  | .recompile => rebuilding .take recompileLocked
  | .publish snapshot => do
    let _ : Unit ← ask .lockSources
    let _ : Unit ← ask (.publish snapshot)
    let _ : Unit ← ask .spawn
    let _ : Unit ← ask .unlockSources
    return .ok ()

/-! ### The shared state -/

structure State where
  static : List Filtering.Rule
  policies : List Policy
  current : Compiled
  published : List Source
  /-- the locks, with the thread that holds them -/
  rebuild : Option ℕ := none
  mu : Option ℕ := none
  sources : Option ℕ := none
  /-- recompilations that were started and have not got their lock -/
  spawned : ℕ := 0
  /-- history: sources were stored whose recompilation has not been started -/
  announcing : Bool := false

/-- What the outside decides: the ID of a new policy, or that the store fails. -/
abbrev Outside := Except Err ℤ

/-- One step of a thread. -/
def act (i : ℕ) : (op : Op) → Outside → State → Option (Ans op × State)
  | .lockRebuild, _, s => if s.rebuild = none then some ((), { s with rebuild := some i }) else none
  | .take, _, s =>
    if s.rebuild = none ∧ 0 < s.spawned then some ((), { s with rebuild := some i, spawned := s.spawned - 1 }) else none
  | .unlockRebuild, _, s => some ((), { s with rebuild := none })
  | .lock, _, s => if s.mu = none then some ((), { s with mu := some i }) else none
  | .unlock, _, s => some ((), { s with mu := none })
  | .policies, _, s => some (s.policies, s)
  | .subset ids extra, _, s => some (Filtering.subset s.static s.published ids extra, s)
  | .savePolicy p, x, s => some (x.map (fun id => if p.id = 0 then { p with id := id } else p), s)
  | .deletePolicy _, x, s => some (x.map (fun _ => ()), s)
  | .setPolicies ps, _, s => some ((), { s with policies := ps })
  | .store next, _, s => some ((), { s with current := next })
  | .lockSources, _, s => if s.sources = none then some ((), { s with sources := some i }) else none
  | .unlockSources, _, s => some ((), { s with sources := none })
  | .publish snapshot, _, s => some ((), { s with published := snapshot.sources, announcing := true })
  | .spawn, _, s => some ((), { s with spawned := s.spawned + 1, announcing := false })

abbrev System := Pool State Call Op Ans (Except Err Unit)

def System.step (w : System) (e : Turn Call Outside) : Option System := Pool.step body act w e

end Velora.Policies
