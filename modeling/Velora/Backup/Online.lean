import Velora.Lib.Prog

/-!
# Online restore

The model of the part of `internal/backup/online.go` that runs when the server starts: `PrepareStartup` with `swapIn` and
`rollbackTo`, and `ConfirmStartup`. A file system of the files they use is changed by atomic steps; what a file holds is not
looked at, apart from the file with the result, which is only written whole and kept as what is in it.
-/

namespace Velora.Backup

open Velora.Lib

/-! ### The files -/

/-- `backupmeta.Metadata`. -/
structure Metadata where
  formatVersion : ℤ := 0
  veloraVersion : String := ""
  createdAt : ℕ := 0
  schemaVersion : ℤ := 0
  components : List String := []
  deriving DecidableEq

/-- `RestoreState.State`. -/
inductive Phase where
  | pending | applied | completed | rolledBack | failed
  deriving DecidableEq

/-- `RestoreState`, without the time. A safety copy is named by the time at which it was made. -/
structure RestoreState where
  state : Phase
  metadata : Metadata := {}
  safetyCopy : Option ℕ := none
  error : String := ""
  deriving DecidableEq

/-- The files: the database and the configuration in use, with what SQLite keeps next to the database, the two under the
names they have before they are renamed, the members of the pending restore and those of a safety copy. -/
inductive Path where
  | database | wal | shm | config
  | configStage | databaseRollback | configRollback
  | pendingDatabase | pendingConfig | pendingManifest
  | safetyDatabase (t : ℕ) | safetyConfig (t : ℕ)
  deriving DecidableEq

/-- Whether a file is in the directory of the pending restore. -/
def Path.pending : Path → Bool
  | .pendingDatabase | .pendingConfig | .pendingManifest => true
  | _ => false

/-- What the code does with files and the model does not look into: how a configuration is written and read, what a database
is with the log next to it, what it becomes when it is opened by this version, and the manifest of a restore. -/
structure Formats (File Config : Type) where
  save : Config → File
  load : File → Except String Config
  replay : File → File → File
  migrate : File → File
  manifest : File → Option Metadata

structure Disk (File : Type) where
  files : Path → Option File
  /-- the directories of safety copies -/
  dirs : List ℕ := []
  result : Option RestoreState
  /-- history: the staged database has been renamed and neither the result written nor the configuration put back since -/
  swapping : Bool := false
  /-- history: the staged configuration has been renamed and not been put back since -/
  installed : Bool := false

/-! ### Steps -/

inductive Op (Config : Type) where
  | readState
  | writeState (state : RestoreState)
  | stat (path : Path)
  | lstat (path : Path)
  | read (path : Path)
  | save (path : Path) (cfg : Config)
  | remove (path : Path)
  | rename (source target : Path)
  | copy (source target : Path)
  | mkdir (t : ℕ)
  | removePending
  | lock
  | checkpoint
  | check (cfg : Config)
  | now

/-- The answers. A call that can only fail answers with its error. -/
abbrev Ans (File : Type) {Config : Type} : Op Config → Type
  | .readState => Except String (Option RestoreState)
  | .stat _ => Bool
  -- whether it is a regular file
  | .lstat _ => Except String (Option Bool)
  | .read _ => Except String File
  | .now => ℕ
  | _ => Option String

section

variable {File Config : Type}

abbrev Script (File Config α : Type) := Prog (Op Config) (Ans File) α

/-- `errors.Join`. -/
def joinErrors (errs : List (Option String)) : Option String :=
  match errs.filterMap id with
  | [] => none
  | texts => some (String.intercalate "\n" texts)

/-- One round of the loop of `rollbackTo`; `stale` is removed before the rename. -/
def rollbackItem (source temp target : Path) (stale : List Path) : Script File Config (Option String) := do
  let found : Bool ← Prog.ask (Op.stat source)
  if !found then return none
  else
    let _ : Option String ← Prog.ask (Op.remove temp)
    let copied : Option String ← Prog.ask (Op.copy source temp)
    match copied with
    | some e => return some e
    | none =>
      stale.forM (fun path => do
        let _ : Option String ← Prog.ask (Op.remove path)
        return ())
      Prog.ask (Op.rename temp target)

/-- `rollbackTo`. -/
def rollbackTo : Option ℕ → Script File Config (Option String)
  | none => return some "no safety copy recorded"
  | some t => do
    let database ← rollbackItem (.safetyDatabase t) .databaseRollback .database [.wal, .shm]
    let config ← rollbackItem (.safetyConfig t) .configRollback .config []
    return joinErrors [database, config]

/-- The name of a file in a message. -/
def Path.text : Path → String
  | .config => "config"
  | _ => "database"

/-- The checks of `swapIn` on the files it is going to replace. -/
def checkTargets : List Path → Script File Config (Option String)
  | [] => return none
  | path :: paths => do
    let info : Except String (Option Bool) ← Prog.ask (Op.lstat path)
    match info with
    | .error e => return some e
    | .ok (some false) => return some ("restore target is not a regular file: " ++ path.text)
    | .ok _ => checkTargets paths

/-- A copy of a file that is there. -/
def copyFound (source target : Path) : Script File Config (Option String) := do
  let found : Bool ← Prog.ask (Op.stat source)
  if found then Prog.ask (Op.copy source target) else return none

/-- The part of `swapIn` after which the staged configuration is removed: it returns the safety copy and an error. -/
def replaceFiles (cfg : Config) : Script File Config (Option ℕ × Option String) := do
  let saved : Option String ← Prog.ask (Op.save .configStage cfg)
  match saved with
  | some e => return (none, some e)
  | none =>
    let found : Bool ← Prog.ask (Op.stat .database)
    let flushed : Option String ← if found then Prog.ask Op.checkpoint else pure none
    match flushed with
    | some e => return (none, some e)
    | none =>
      let t : ℕ ← Prog.ask Op.now
      let made : Option String ← Prog.ask (Op.mkdir t)
      match made with
      | some e => return (none, some e)
      | none =>
        let copied ← copyFound .database (.safetyDatabase t)
        match copied with
        | some e => return (some t, some e)
        | none =>
          let copied ← copyFound .config (.safetyConfig t)
          match copied with
          | some e => return (some t, some e)
          | none =>
            let _ : Option String ← Prog.ask (Op.remove .wal)
            let _ : Option String ← Prog.ask (Op.remove .shm)
            let renamed : Option String ← Prog.ask (Op.rename .pendingDatabase .database)
            match renamed with
            | some e => fail t e
            | none =>
              let renamed : Option String ← Prog.ask (Op.rename .configStage .config)
              match renamed with
              | some e => fail t e
              | none =>
                let checked : Option String ← Prog.ask (Op.check cfg)
                match checked with
                | some e => fail t e
                | none => return (some t, none)
where
  fail (t : ℕ) (cause : String) : Script File Config (Option ℕ × Option String) := do
    let err ← rollbackTo (some t)
    return (some t, joinErrors [some cause, err])

/-- `swapIn`; the lock is given back when it returns. -/
def swapIn (cfg : Config) : Script File Config (Option ℕ × Option String) := do
  let err ← checkTargets [.config, .database]
  match err with
  | some e => return (none, some e)
  | none =>
    let locked : Option String ← Prog.ask Op.lock
    match locked with
    | some e => return (none, some e)
    | none =>
      let _ : Option String ← Prog.ask (Op.remove .configStage)
      let r ← replaceFiles cfg
      let _ : Option String ← Prog.ask (Op.remove .configStage)
      return r

variable (fmt : Formats File Config)

/-- The part of `PrepareStartup` after which the pending restore is removed. -/
def applyPending : Script File Config (Bool × Option String) := do
  let manifest : Except String File ← Prog.ask (Op.read .pendingManifest)
  let metadata := ((manifest.toOption.bind fmt.manifest).getD {} : Metadata)
  let bytes : Except String File ← Prog.ask (Op.read .pendingConfig)
  match bytes with
  | .error e => return (false, some e)
  | .ok bytes =>
    match fmt.load bytes with
    | .error e => return (false, some e)
    | .ok cfg =>
      let (safety, err) ← swapIn cfg
      match err with
      | some e =>
        let _ : Option String ← Prog.ask (Op.writeState
          { state := .rolledBack, metadata := metadata, safetyCopy := safety, error := "The restore could not be applied: " ++ e })
        return (false, none)
      | none =>
        let written : Option String ← Prog.ask (Op.writeState
          { state := .applied, metadata := metadata, safetyCopy := safety })
        return (true, written)

/-- `PrepareStartup` of an installation that has both paths. -/
def prepareStartup : Script File Config (Bool × Option String) := do
  let read : Except String (Option RestoreState) ← Prog.ask Op.readState
  match read with
  | .error e => return (false, some ("read restore state: " ++ e))
  | .ok state =>
    match state.filter (fun state => state.state = .applied) with
    | some state =>
      let err ← rollbackTo state.safetyCopy
      match err with
      | some e =>
        let text :=
          "Velora did not become ready with the restored backup and the safety copy could not be restored: " ++ e
        let _ : Option String ← Prog.ask (Op.writeState { state with state := .failed, error := text })
        return (false, some text)
      | none =>
        let written : Option String ← Prog.ask (Op.writeState { state with
          state := .rolledBack
          error := "Velora did not become ready with the restored backup; the previous data was restored." })
        return (true, written)
    | none =>
      let found : Bool ← Prog.ask (Op.stat .pendingDatabase)
      if !found then return (false, none)
      else
        let r ← applyPending fmt
        let _ : Option String ← Prog.ask Op.removePending
        return r

/-- `ConfirmStartup`. -/
def confirmStartup : Script File Config (Option String) := do
  let read : Except String (Option RestoreState) ← Prog.ask Op.readState
  match read with
  | .error e => return some e
  | .ok state =>
    match state.filter (fun state => state.state = .applied) with
    | some state => Prog.ask (Op.writeState { state with state := .completed })
    | none => return none

/-! ### The file system -/

/-- What is decided outside: the time, whether a file is a regular one, whether the lock, the checkpoint and the check of the
restored state succeed, and whether the check has upgraded the database. -/
structure Choice where
  now : ℕ := 0
  lstat : Except String Bool := .ok true
  lock : Option String := none
  checkpoint : Option String := none
  check : Option String := none
  migrated : Bool := true

/-- A file is given new contents, or none. -/
def Disk.set (d : Disk File) (path : Path) (file : Option File) : Disk File :=
  { d with files := Function.update d.files path file }

def missing : String := "no such file or directory"

/-- One step on the file system. A step fails only when a file is missing or already there, or when it is decided outside. -/
def act : (op : Op Config) → Choice → Disk File → Option (Ans File op × Disk File)
  | .readState, _, d => some (.ok d.result, d)
  | .writeState state, _, d => some (none, { d with result := some state, swapping := false })
  | .stat path, _, d => some ((d.files path).isSome, d)
  | .lstat path, x, d =>
    some (x.lstat.map (fun regular => (d.files path).map (fun _ => regular)), d)
  | .read path, _, d =>
    match d.files path with
    | some file => some (.ok file, d)
    | none => some (.error missing, d)
  | .save path cfg, _, d => some (none, d.set path (some (fmt.save cfg)))
  | .remove path, _, d =>
    if (d.files path).isSome then some (none, d.set path none) else some (some missing, d)
  | .rename source target, _, d =>
    match d.files source with
    | none => some (some missing, d)
    | some file => some (none,
        { ((d.set target (some file)).set source none) with
          swapping := if source = .pendingDatabase then true else if source = .configRollback then false else d.swapping
          installed := if source = .configStage then true else if source = .configRollback then false else d.installed })
  | .copy source target, _, d =>
    match d.files source with
    | none => some (some missing, d)
    | some file => if (d.files target).isSome then some (some "file exists", d) else some (none, d.set target (some file))
  | .mkdir t, _, d => if t ∈ d.dirs then some (some "file exists", d) else some (none, { d with dirs := t :: d.dirs })
  | .removePending, _, d => some (none, { d with files := fun path => if path.pending then none else d.files path })
  | .lock, x, d => some (x.lock, d)
  | .checkpoint, x, d =>
    match x.checkpoint, d.files .database, d.files .wal with
    | some e, _, _ => some (some e, d)
    | none, some db, some log => some (none, (d.set .database (some (fmt.replay db log))).set .wal none)
    | none, _, _ => some (none, d)
  | .check _, x, d =>
    match d.files .database with
    | some db => some (x.check, if x.migrated then d.set .database (some (fmt.migrate db)) else d)
    | none => some (x.check, d)
  | .now, x, d => some (x.now, d)

end

end Velora.Backup
