import Velora.Cluster.Snapshot
import Velora.Zones.Service

/-!
# The cluster service of a node

`internal/cluster/service.go`. The operations of a node that change its role or apply the primary's zones, as programs: a
step reads or saves the node's state, asks the network or the database, or makes one call of the zone service. What the
steps do is left to the modules that run these programs.
-/

namespace Velora.Cluster

open Velora.Lib Velora.Lib.Text Velora.Zones

inductive Role where
  | standalone | primary | replica
  deriving DecidableEq

def Role.text : Role → String
  | .standalone => "standalone"
  | .primary => "primary"
  | .replica => "replica"

structure State where
  role : Role
  clusterID : Str := []
  nodeID : Str
  nodeName : Str := []
  advertisedURL : Str := []
  primaryURL : Str := []
  allowInsecure : Bool := false
  createdAt : Option ℕ := none
  lastSyncAt : Option ℕ := none
  lastSyncError : String := ""
  appliedRevision : Str := []
  secret : Str := []
  deriving DecidableEq

/-- The errors of the package: a message, with one of `ErrInvalid`, `ErrState` and `ErrIncompatible` before it or none. -/
inductive Err where
  | invalid (message : String) | state (message : String) | incompatible (message : String) | plain (message : String)
  deriving DecidableEq

/-- `err.Error()`. -/
def Err.error : Err → String
  | .invalid m => "invalid cluster request: " ++ m
  | .state m => "not allowed in the current cluster role: " ++ m
  | .incompatible m => "incompatible cluster protocol: " ++ m
  | .plain m => m

/-- `err.Error()` of an error of the zone service. -/
def zoneError : Zones.Err → String
  | .notFound => "zone or record not found"
  | .conflict => "zone changed"
  | .exists => "zone name already exists"
  | .invalid m => "invalid zone: " ++ m
  | .storage m => m

/-! ### The network -/

/-- What `/api/v1/cluster/peer/info` has answered. -/
structure Info where
  role : Option Str := none
  protocol : ℤ := 0
  clusterID : Option Str := none
  deriving DecidableEq

structure JoinRequest where
  token : Str
  protocol : ℕ
  nodeID : Str
  name : Str
  version : Str
  deriving DecidableEq

/-- The answer to a join: its status, the members that are read of it, and the hint that goes with the status. -/
structure JoinReply where
  status : ℕ
  clusterID : Str := []
  nodeSecret : Str := []
  message : String := ""
  hint : String := ""
  deriving DecidableEq

/-- The answer to the request for a snapshot: whether its body could be read, its status with a hint, whether its signature is
that of the body, and the body as a snapshot. -/
structure Response where
  readError : Option String := none
  status : ℕ
  hint : String := ""
  signed : Bool
  snapshot : Option Snapshot
  deriving DecidableEq

/-- `url.Parse`, as far as `ValidateURL` looks at it. -/
structure URL where
  scheme : Str
  host : Str
  user : Bool
  path : Str
  rawQuery : Str
  fragment : Str
  deriving DecidableEq

/-! ### Checks -/

/-- `validName`. -/
def validName (name : Str) : Except Err Str :=
  let name := trimSpaces name
  if name = [] ∨ byteLen name > 64 ∨ name.any (fun c => c ∈ ['\r', '\n', Char.ofNat 0]) then
    .error (.invalid "node name must be 1–64 characters on one line")
  else .ok name

/-- `ValidateURL`. -/
def validateURL (parse : Str → Option URL) (raw : Str) (allowInsecure : Bool) : Except Err Str :=
  let raw := ((trimSpaces raw).reverse.dropWhile (· = '/')).reverse
  match parse raw with
  | none => .error (.invalid "enter a base URL such as https://dns1.example.lan:8443")
  | some u =>
    if u.host = [] ∨ u.user ∨ u.rawQuery ≠ [] ∨ u.fragment ≠ [] ∨ (u.path ≠ [] ∧ u.path ≠ ['/']) ∨ byteLen raw > 512 then
      .error (.invalid "enter a base URL such as https://dns1.example.lan:8443")
    else if u.scheme = "https".toList then .ok (u.scheme ++ "://".toList ++ u.host)
    else if u.scheme = "http".toList then
      if !allowInsecure then
        .error (.invalid "plain HTTP sends the join token and node credential unencrypted; use HTTPS or explicitly allow HTTP on a trusted network")
      else .ok (u.scheme ++ "://".toList ++ u.host)
    else .error (.invalid "the URL must start with https:// or http://")

/-! ### Steps -/

inductive Op where
  | current
  | save (next : State)
  | newID
  | now
  | fetchInfo (base : Str)
  /-- `POST …/peer/join` -/
  | join (base : Str) (request : JoinRequest)
  /-- `POST …/peer/leave`, when it is possible -/
  | leave (state : State)
  | deleteMembers
  /-- `GET …/peer/snapshot` -/
  | getSnapshot (state : State)
  /-- `s.zones.List()` -/
  | list
  /-- the order in which a loop runs over a map -/
  | iterate (entries : List Zone)
  | zones (call : Zones.Call)

abbrev Ans : Op → Type
  | .current => State
  | .save _ => Option String
  | .newID => Except String Str
  | .now => ℕ
  | .fetchInfo _ => Except String Info
  | .join _ _ => Except String JoinReply
  | .leave _ => Unit
  | .deleteMembers => Option String
  | .getSnapshot _ => Except String Response
  | .list => List Zone
  | .iterate _ => List Zone
  | .zones _ => Except Zones.Err Zone

/-- An operation: an error, or the state that `Create` and `Join` return. -/
abbrev Script := Prog Op Ans (Except Err (Option State))

/-- What an operation returns for an `error`. -/
def result : Option Err → Except Err (Option State)
  | none => .ok none
  | some e => .error e

/-! ### Applying a snapshot -/

section

variable (env : Env)

/-- The loop of `apply` over the zones of the snapshot. -/
def applyItems (existing : List Zone) : List SnapshotZone → Prog Op Ans (Option Err)
  | [] => .done none
  | item :: items =>
    match existing.find? (fun z => z.name = item.name) with
    | none => do
      let r : Except Zones.Err Zone ← Prog.ask (Op.zones (.create item.toZone))
      match r with
      | .error e => return some (.plain ("zone " ++ String.ofList item.name ++ ": " ++ zoneError e))
      | .ok _ => applyItems existing items
    | some old =>
      if sameZone env old item then applyItems existing items
      else do
        let r : Except Zones.Err Zone ← Prog.ask (Op.zones (.update old.id old.revision item.toZone))
        match r with
        | .error e => return some (.plain ("zone " ++ String.ofList item.name ++ ": " ++ zoneError e))
        | .ok _ => applyItems existing items

/-- The loop of `apply` over the zones that the snapshot does not have. -/
def deleteZones : List Zone → Prog Op Ans (Option Err)
  | [] => .done none
  | z :: zs => do
    let r : Except Zones.Err Zone ← Prog.ask (Op.zones (.delete z.id z.revision))
    match r with
    | .error e => return some (.plain ("zone " ++ String.ofList z.name ++ ": " ++ zoneError e))
    | .ok _ => deleteZones zs

/-- `apply`. -/
def apply (snapshot : Snapshot) : Prog Op Ans (Option Err) := do
  let all : List Zone ← Prog.ask Op.list
  let existing := all.filter (fun z => !secondary z)
  let err ← applyItems env existing snapshot.zones
  match err with
  | some e => return some e
  | none =>
    let surplus := existing.filter (fun z => !snapshot.zones.any (fun item => item.name = z.name))
    let order : List Zone ← Prog.ask (Op.iterate surplus)
    deleteZones order

/-- `pullAndApply`. -/
def pullAndApply (state : State) : Prog Op Ans (Option Err) := do
  let r : Except String Response ← Prog.ask (Op.getSnapshot state)
  match r with
  | .error text => return some (.plain ("cannot reach the primary: " ++ text))
  | .ok response =>
    match response.readError with
    | some text => return some (.plain text)
    | none =>
      if response.status = 401 then
        return some (.plain "the primary no longer accepts this node; it was removed or the cluster was dissolved — leave the cluster to edit zones locally")
      else if response.status ≠ 200 then
        return some (.plain ("the primary answered HTTP " ++ toString response.status ++ response.hint))
      else if !response.signed then
        return some (.plain "the snapshot signature does not match; refusing to apply it")
      else
        match response.snapshot with
        | none => return some (.plain "the primary sent an unreadable snapshot")
        | some snapshot =>
          if snapshot.protocol ≠ protocol then
            return some (.plain ("the primary now speaks cluster protocol " ++ toString snapshot.protocol ++
              ", this node speaks " ++ toString protocol ++ "; update this node"))
          else if snapshot.clusterID ≠ state.clusterID then
            return some (.plain "the primary belongs to a different cluster")
          else if snapshot.revision = state.appliedRevision then return none
          else
            let err ← apply env snapshot
            match err with
            | some e =>
              return some (.plain ("applying revision " ++ String.ofList snapshot.revision ++ " failed: " ++ e.error))
            | none =>
              let current : State ← Prog.ask Op.current
              let saved : Option String ← Prog.ask (Op.save { current with appliedRevision := snapshot.revision })
              return saved.map Err.plain

/-- `SyncOnce`; the callback `onSync` is left out. -/
def syncOnce : Script := do
  let state : State ← Prog.ask Op.current
  if state.role ≠ .replica then return .error (.state "this node is not a replica")
  else
    let err ← pullAndApply env state
    let state : State ← Prog.ask Op.current
    if state.role ≠ .replica then return result err
    else
      let now : ℕ ← Prog.ask Op.now
      let saved : Option String ← Prog.ask (Op.save
        { state with lastSyncAt := some now, lastSyncError := (err.map Err.error).getD "" })
      match saved with
      | some text => return .error (.plain (String.intercalate "\n" ((err.map Err.error).toList ++ [text])))
      | none => return result err

end

/-! ### Roles -/

/-- The arguments of `Create`. -/
structure CreateArgs where
  name : Str
  advertisedURL : Str
  allowInsecure : Bool
  skipCheck : Bool
  deriving DecidableEq

/-- The arguments of `Join`. -/
structure JoinArgs where
  primaryURL : Str
  token : Str
  name : Str
  allowInsecure : Bool
  deriving DecidableEq

section

variable (parse : Str → Option URL) (version : Str)

/-- `Create`. -/
def create (a : CreateArgs) : Script := do
  let state : State ← Prog.ask Op.current
  if state.role ≠ .standalone then return .error (.state ("this node is already a cluster " ++ state.role.text))
  else
    match validName a.name with
    | .error e => return .error e
    | .ok name =>
      match validateURL parse a.advertisedURL a.allowInsecure with
      | .error e => return .error e
      | .ok base =>
        let id : Except String Str ← Prog.ask Op.newID
        match id with
        | .error text => return .error (.plain text)
        | .ok clusterID =>
          let now : ℕ ← Prog.ask Op.now
          let next := { state with role := .primary, clusterID := clusterID, nodeName := name, advertisedURL := base
                                   allowInsecure := a.allowInsecure, createdAt := some now }
          let saved : Option String ← Prog.ask (Op.save next)
          match saved with
          | some text => return .error (.plain text)
          | none =>
            if a.skipCheck then return .ok (some next)
            else
              let info : Except String Info ← Prog.ask (Op.fetchInfo base)
              match info with
              | .error text =>
                let _ : Option String ← Prog.ask (Op.save state)
                return .error (.invalid text)
              | .ok info =>
                if info.clusterID ≠ some clusterID then
                  let _ : Option String ← Prog.ask (Op.save state)
                  return .error (.invalid (String.ofList base ++ " answered for a different Velora node"))
                else return .ok (some next)

/-- `Dissolve`. -/
def dissolve : Script := do
  let state : State ← Prog.ask Op.current
  if state.role ≠ .primary then return .error (.state "only the primary can dissolve the cluster")
  else
    let deleted : Option String ← Prog.ask Op.deleteMembers
    match deleted with
    | some text => return .error (.plain text)
    | none =>
      let saved : Option String ← Prog.ask (Op.save { role := .standalone, nodeID := state.nodeID })
      return result (saved.map Err.plain)

/-- `Join`; the trigger of the first sync at its end is left out. -/
def join (a : JoinArgs) : Script := do
  let state : State ← Prog.ask Op.current
  if state.role ≠ .standalone then return .error (.state "leave the current cluster first")
  else
    match validName a.name with
    | .error e => return .error e
    | .ok name =>
      match validateURL parse a.primaryURL a.allowInsecure with
      | .error e => return .error e
      | .ok base =>
        let token := trimSpaces a.token
        if !"vjt_".toList.isPrefixOf token ∨ byteLen token > 100 then
          return .error (.invalid "paste the join token created on the primary (it starts with vjt_)")
        else
          let info : Except String Info ← Prog.ask (Op.fetchInfo base)
          match info with
          | .error text => return .error (.invalid text)
          | .ok info =>
            if info.role ≠ some "primary".toList then
              return .error (.invalid (String.ofList base ++ " is not a cluster primary"))
            else if info.protocol ≠ protocol then
              return .error (.incompatible ("the primary speaks cluster protocol " ++ toString info.protocol ++
                ", this node speaks " ++ toString protocol ++ "; run the same Velora version on both"))
            else
              let reply : Except String JoinReply ← Prog.ask (Op.join base ⟨token, protocol, state.nodeID, name, version⟩)
              match reply with
              | .error text =>
                return .error (.invalid ("cannot reach " ++ String.ofList base ++ ": " ++ text))
              | .ok reply =>
                if reply.status ≠ 200 then
                  let message := if reply.message = "" then "HTTP " ++ toString reply.status ++ reply.hint else reply.message
                  return .error (.invalid ("the primary rejected the join: " ++ message))
                else if reply.nodeSecret = [] ∨ reply.clusterID = [] then
                  return .error (.invalid "the primary sent an incomplete answer")
                else
                  let now : ℕ ← Prog.ask Op.now
                  let next : State :=
                    { role := .replica, clusterID := reply.clusterID, nodeID := state.nodeID, nodeName := name
                      primaryURL := base, allowInsecure := a.allowInsecure, createdAt := some now, secret := reply.nodeSecret }
                  let saved : Option String ← Prog.ask (Op.save next)
                  match saved with
                  | some text => return .error (.plain text)
                  | none => return .ok (some next)

/-- `Leave`. -/
def leave : Script := do
  let state : State ← Prog.ask Op.current
  if state.role ≠ .replica then return .error (.state "this node is not a replica")
  else
    let _ : Unit ← Prog.ask (Op.leave state)
    let saved : Option String ← Prog.ask (Op.save { role := .standalone, nodeID := state.nodeID })
    return result (saved.map Err.plain)

end

end Velora.Cluster
