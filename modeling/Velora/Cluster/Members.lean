import Velora.Cluster.Service
import Velora.Lib.Stamp

/-!
# Join tokens and members

The part of `internal/cluster/service.go` in which a primary admits replicas, over the two tables of
`internal/database/cluster.go`: tokens are issued, a join redeems one and then saves a member, and members are removed,
leave or are dissolved. Calls of any number of clients take turns, one statement of the database after the other. The
database compares the expiry of a token with the time as texts.
-/

namespace Velora.Cluster.Members

open Velora.Lib Velora.Lib.Text Velora.Zones

/-- `JoinTokenLifetime`, in nanoseconds. -/
def joinTokenLifetime : ℕ := 30 * 60 * 1000000000
def maxMembers : ℕ := 16

/-- The errors of the package: one of its own, mostly with a message after it, or one of the database or of the system. -/
inductive Err where
  | invalid (message : String) | state (message : String) | incompatible (message : String)
  | unauthorized (message : Option String) | conflict (message : Option String)
  | notFound
  | plain (text : String)
  deriving DecidableEq

def Err.ofService : Cluster.Err → Err
  | .invalid m => .invalid m
  | .state m => .state m
  | .incompatible m => .incompatible m
  | .plain m => .plain m

structure Member where
  nodeID : Str
  name : Str
  address : Str
  version : Str
  joinedAt : ℕ
  lastSeenAt : Option ℕ := none
  appliedRevision : Str := []
  lastError : Str := []
  deriving DecidableEq

/-- A row of `cluster_members`. -/
structure MemberRow where
  member : Member
  credentialHash : Str
  deriving DecidableEq

/-- A row of `cluster_join_tokens`. -/
structure TokenRow where
  hash : Str
  expires : ℕ
  deriving DecidableEq

/-- The column `expires_at`. -/
def TokenRow.expiresAt (row : TokenRow) : Str := Stamp.rfc3339Nano row.expires

/-- What an operation returns beside an error. -/
inductive Result where
  | token (token : Str) (expires : ℕ)
  | response (clusterID nodeSecret primaryName primaryVersion : Str)
  | ok
  deriving DecidableEq

/-! ### Steps -/

inductive Op where
  | current
  | saveState (next : State)
  | randomToken (before : Str)
  | now
  | listMembers
  | member (nodeID : Str)
  /-- `SaveClusterMember`; the token the member has come with and when it was redeemed are history -/
  | saveMember (row : MemberRow) (token : Str) (redeemed : ℕ)
  | deleteMember (nodeID : Str)
  /-- the transaction of `DeleteClusterMembers` -/
  | deleteMembers
  /-- the first statement of `SaveJoinToken` -/
  | deleteExpired
  /-- its second statement; the token itself is history -/
  | insertToken (token hash : Str) (expires : ℕ)
  /-- `ConsumeJoinToken`; the token itself is history -/
  | consume (token hash : Str) (now : ℕ)

abbrev Ans : Op → Type
  | .current => State
  | .randomToken _ => Except Err Str
  | .now => ℕ
  | .listMembers => Except Err (List Member)
  | .member _ => Option MemberRow
  | .consume _ _ _ => Except Err Bool
  | _ => Option Err

abbrev Script := Prog Op Ans (Except Err Result)

def ask (op : Op) : Prog Op Ans (Ans op) := Prog.ask op

/-- What an operation without a result returns for an `error`. -/
def result : Option Err → Except Err Result
  | none => .ok .ok
  | some e => .error e

/-! ### Operations -/

section

variable (hashSecret : Str → Str) (version : Str)

/-- `IssueJoinToken`, with the two statements of `SaveJoinToken`. -/
def issueJoinToken : Script := do
  let state : State ← ask .current
  if state.role ≠ .primary then return .error (.state "only the primary can add nodes")
  else
    let members : Except Err (List Member) ← ask .listMembers
    match members with
    | .error e => return .error e
    | .ok members =>
      if members.length ≥ maxMembers then return .error (.invalid "at most 16 replicas")
      else
        let token : Except Err Str ← ask (.randomToken "vjt_".toList)
        match token with
        | .error e => return .error e
        | .ok token =>
          let now : ℕ ← ask .now
          let expires := now + joinTokenLifetime
          let deleted : Option Err ← ask .deleteExpired
          match deleted with
          | some e => return .error e
          | none =>
            let saved : Option Err ← ask (.insertToken token (hashSecret token) expires)
            match saved with
            | some e => return .error e
            | none => return .ok (.token token expires)

/-- `strings.Trim` with the digits of a hexadecimal number. -/
def trimHex (s : Str) : Str :=
  let hex := fun c => c ∈ "0123456789abcdef".toList
  ((s.dropWhile hex).reverse.dropWhile hex).reverse

/-- `AcceptJoin` behind the use of the token. -/
def admitJoin (state : State) (request : JoinRequest) (address name : Str) (redeemed : ℕ) : Script := do
  let known : Option MemberRow ← ask (.member request.nodeID)
  match known with
  | some _ =>
    return .error (.conflict (some "a node with this ID is already a member; remove it on the primary first"))
  | none =>
    let secret : Except Err Str ← ask (.randomToken "vns_".toList)
    match secret with
    | .error e => return .error e
    | .ok secret =>
      let now : ℕ ← ask .now
      let member : Member :=
        { nodeID := request.nodeID, name := name, address := address, version := request.version, joinedAt := now }
      let saved : Option Err ← ask (.saveMember ⟨member, hashSecret secret⟩ request.token redeemed)
      match saved with
      | some e => return .error e
      | none => return .ok (.response state.clusterID secret state.nodeName version)

/-- `AcceptJoin`. -/
def acceptJoin (request : JoinRequest) (address : Str) : Script := do
  let state : State ← ask .current
  if state.role ≠ .primary then return .error (.state "this node is not a cluster primary")
  else if request.protocol ≠ protocol then
    return .error (.incompatible ("the joining node speaks cluster protocol " ++ toString request.protocol ++
      ", this primary speaks " ++ toString protocol ++ "; update both to the same Velora version"))
  else
    match validName request.name with
    | .error e => return .error (.ofService e)
    | .ok name =>
      if byteLen request.nodeID ≠ 24 ∨ trimHex request.nodeID ≠ [] then return .error (.invalid "invalid node ID")
      else if request.nodeID = state.nodeID then
        return .error (.conflict (some "a node cannot join its own cluster"))
      else
        let now : ℕ ← ask .now
        let valid : Except Err Bool ← ask (.consume request.token (hashSecret request.token) now)
        match valid with
        | .error e => return .error e
        | .ok false =>
          return .error (.unauthorized
            (some "the join token is invalid, already used or expired; create a new one on the primary"))
        | .ok true => admitJoin hashSecret version state request address name now

/-- `RemoveMember`. -/
def removeMember (nodeID : Str) : Script := do
  let state : State ← ask .current
  if state.role ≠ .primary then return .error (.state "only the primary manages members")
  else if nodeID = state.nodeID then
    return .error (.conflict (some "the primary cannot remove itself; dissolve the cluster instead"))
  else
    let known : Option MemberRow ← ask (.member nodeID)
    match known with
    | none => return .error .notFound
    | some _ =>
      let deleted : Option Err ← ask (.deleteMember nodeID)
      return result deleted

/-- `strings.Cut(value, ":")`. -/
def cutColon (value : Str) : Option (Str × Str) :=
  match value.span (· ≠ ':') with
  | (_, []) => none
  | (before, _ :: rest) => some (before, rest)

/-- `DepartMember`, in the handler of `peer/leave`: behind `Authenticate`. -/
def departMember (header : Str) : Script := do
  let state : State ← ask .current
  if state.role ≠ .primary then return .error (.unauthorized none)
  else
    match (cutPrefix "VeloraNode ".toList header).bind cutColon with
    | none => return .error (.unauthorized none)
    | some (nodeID, secret) =>
      let known : Option MemberRow ← ask (.member nodeID)
      match known with
      | none => return .error (.unauthorized none)
      | some row =>
        if row.credentialHash ≠ hashSecret secret then return .error (.unauthorized none)
        else
          let deleted : Option Err ← ask (.deleteMember row.member.nodeID)
          return result deleted

/-- `Dissolve`. -/
def dissolve : Script := do
  let state : State ← ask .current
  if state.role ≠ .primary then return .error (.state "only the primary can dissolve the cluster")
  else
    let deleted : Option Err ← ask .deleteMembers
    match deleted with
    | some e => return .error e
    | none =>
      let saved : Option Err ← ask (.saveState { role := .standalone, nodeID := state.nodeID })
      return result saved

/-- A call; `save` stands for the other operations that save the state of the node, `Leave` among them. -/
inductive Call where
  | issue
  | join (request : JoinRequest) (address : Str)
  | remove (nodeID : Str)
  | depart (header : Str)
  | dissolve
  | save (next : State)
  deriving DecidableEq

def body : Call → Script
  | .issue => issueJoinToken hashSecret
  | .join request address => acceptJoin hashSecret version request address
  | .remove nodeID => removeMember nodeID
  | .depart header => departMember hashSecret header
  | .dissolve => dissolve
  | .save next => do
    let saved : Option Err ← ask (.saveState next)
    return result saved

end

/-! ### The node -/

/-- A token that was stored. -/
structure Issue where
  token : Str
  expires : ℕ
  deriving DecidableEq

/-- A token that was redeemed, by a call. -/
structure Redeemed where
  thread : ℕ
  token : Str
  time : ℕ
  deriving DecidableEq

structure Node where
  state : State
  members : List MemberRow := []
  tokens : List TokenRow := []
  /-- history: the tokens that were issued -/
  issued : List Issue := []
  /-- history: the calls that have redeemed a token and have not saved a member -/
  pending : List Redeemed := []
  /-- history: the calls that have saved a member -/
  admitted : List Redeemed := []
  deriving DecidableEq

/-- How a statement ends: it is done, it has failed and left the tables as they were, or it is done and is reported to have
failed. -/
inductive Outcome where
  | done
  | failed (text : String)
  | lost (text : String)
  deriving DecidableEq

/-- What the outside decides at a step. -/
structure Outside where
  db : Outcome := .done
  time : ℕ := 0
  random : Except Err Str := .ok []
  deriving DecidableEq

/-- What a statement answers and leaves, with what it does when it is done. -/
def Outcome.answer {α : Type} (x : Outcome) (fails : Err → α) (s : Node) (does : α × Node) : α × Node :=
  match x with
  | .done => does
  | .failed text => (fails (.plain text), s)
  | .lost text => (fails (.plain text), does.2)

/-- `DELETE FROM cluster_join_tokens WHERE token_hash=… AND expires_at>=…` deletes the row. -/
def TokenRow.redeems (hash : Str) (now : ℕ) (row : TokenRow) : Bool :=
  row.hash = hash && !decide (row.expiresAt < Stamp.rfc3339Nano now)

/-- One step of call `i`. -/
def act (i : ℕ) : (op : Op) → Outside → Node → Option (Ans op × Node)
  | .current, _, s => some (s.state, s)
  | .saveState next, x, s => some (match x.db with
    | .done => (none, { s with state := next })
    | .failed text => (some (.plain text), s)
    | .lost text => (some (.plain text), s))
  | .randomToken before, x, s => some (x.random.map (before ++ ·), s)
  | .now, x, s => some (x.time, s)
  | .listMembers, x, s =>
    some (x.db.answer .error s
      (.ok ((s.members.map MemberRow.member).insertionSort (fun a b => a.name ≤ b.name)), s))
  | .member nodeID, x, s =>
    some (x.db.answer (fun _ => none) s (s.members.find? (fun row => row.member.nodeID = nodeID), s))
  | .saveMember row token redeemed, x, s =>
    -- `node_id` is the primary key
    some (x.db.answer some s
      (if s.members.any (fun old => old.member.nodeID = row.member.nodeID) then (some (.conflict none), s)
      else (none, { s with
        members := row :: s.members
        pending := s.pending.filter (fun e => e.thread ≠ i)
        admitted := ⟨i, token, redeemed⟩ :: s.admitted })))
  | .deleteMember nodeID, x, s =>
    some (x.db.answer some s
      (if (s.members.countP (fun row => row.member.nodeID = nodeID)) = 1 then none else some .notFound,
        { s with members := s.members.filter (fun row => row.member.nodeID ≠ nodeID) }))
  | .deleteMembers, x, s => some (x.db.answer some s (none, { s with members := [], tokens := [] }))
  | .deleteExpired, x, s =>
    some (x.db.answer some s
      (none, { s with tokens := s.tokens.filter (fun row => !decide (row.expiresAt < Stamp.rfc3339Nano x.time)) }))
  | .insertToken token hash expires, x, s =>
    -- `token_hash` is the primary key
    some (x.db.answer some s
      (if s.tokens.any (fun row => row.hash = hash) then (some (.plain "UNIQUE constraint failed"), s)
      else (none, { s with tokens := ⟨hash, expires⟩ :: s.tokens, issued := ⟨token, expires⟩ :: s.issued })))
  | .consume token hash now, x, s =>
    let valid := s.tokens.countP (TokenRow.redeems hash now) = 1
    let left := { s with tokens := s.tokens.filter (fun row => !row.redeems hash now) }
    some (match x.db with
      | .done => (.ok valid, if valid then { left with pending := ⟨i, token, now⟩ :: left.pending } else left)
      | .failed text => (.error (.plain text), s)
      | .lost text => (.error (.plain text), left))

abbrev System := Pool Node Call Op Ans (Except Err Result)

def System.step (hashSecret : Str → Str) (version : Str) (w : System) (e : Turn Call Outside) : Option System :=
  Pool.step (body hashSecret version) act w e

end Velora.Cluster.Members
