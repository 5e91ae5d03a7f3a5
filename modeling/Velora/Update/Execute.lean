import Velora.Lib.Prog
import Velora.Update.Manager

/-!
# An update of a native installation

The model of `cmd/velora-updater/execute.go`: `executeUpdate` with `backupCurrent`, `installRelease` and `restoreBackup`. What
is downloaded, verified and extracted is given from outside as the bundle, as are the answers of systemd and of the server.
-/

namespace Velora.Update

open Velora.Lib

/-! ### The files -/

/-- What an installation consists of, and the members of a bundle. -/
inductive Artefact where
  | binary | version | web | unit
  deriving DecidableEq

/-- An artefact in its place, and the one kept of the version before; the service unit is not kept. -/
inductive Path where
  | live (a : Artefact)
  | prev (a : Artefact)
  deriving DecidableEq

abbrev Bundle (File : Type) := Artefact → Option File

/-- The error of a rename. -/
inductive RenameErr where
  | notExist
  | other (text : String)
  deriving DecidableEq

/-! ### Steps -/

inductive Op (File : Type) where
  | download | verify | extract
  | transition (id : ℕ) (state : State)
  | fail (id : ℕ) (err : String)
  | complete (id : ℕ)
  | rollback (id : ℕ) (cause : String)
  | saveState
  | stat (path : Path)
  | remove (path : Path)
  | rename (source target : Path)
  /-- `copyFile` or `copyDir`, of a member of the bundle to its place -/
  | copy (a : Artefact) (content : File)
  | restart
  | ready

/-- The answers; a call that can only fail answers with its error. -/
abbrev Ans {File : Type} : Op File → Type
  | .extract => Except String (Bundle File)
  | .stat _ => Bool
  | .rename _ _ => Option RenameErr
  | .ready => Bool
  | _ => Option String

abbrev Script (File α : Type) := Prog (Op File) Ans α

section

variable {File : Type}

def Artefact.text : Artefact → String
  | .binary => "binary"
  | .version => "version"
  | .web => "web dir"
  | .unit => "service"

/-- `backupCurrent` for the binary and for the `VERSION` file. -/
def backupFile (a : Artefact) : Script File (Option String) := do
  let _ : Option String ← Prog.ask (Op.remove (.prev a))
  let renamed : Option RenameErr ← Prog.ask (Op.rename (.live a) (.prev a))
  match renamed with
  | some (.other e) => return some ("backup " ++ a.text ++ ": " ++ e)
  | _ => return none

/-- `backupCurrent` for the web directory. -/
def backupWeb : Script File (Option String) := do
  let _ : Option String ← Prog.ask (Op.remove (.prev .web))
  let found : Bool ← Prog.ask (Op.stat (.live .web))
  if !found then return none
  else
    let renamed : Option RenameErr ← Prog.ask (Op.rename (.live .web) (.prev .web))
    match renamed with
    | some (.other e) => return some ("backup web dir: " ++ e)
    | some .notExist => return some "backup web dir: no such file or directory"
    | none => return none

/-- `backupCurrent`. -/
def backupCurrent : Script File (Option String) := do
  let err ← backupFile .version
  match err with
  | some e => return some e
  | none =>
    let err ← backupFile .binary
    match err with
    | some e => return some e
    | none => backupWeb

/-- `restoreBackup` for one artefact. -/
def restoreFile (a : Artefact) : Script File (Option String) := do
  let found : Bool ← Prog.ask (Op.stat (.prev a))
  if !found then return none
  else
    let _ : Option String ← Prog.ask (Op.remove (.live a))
    let renamed : Option RenameErr ← Prog.ask (Op.rename (.prev a) (.live a))
    match renamed with
    | some (.other e) => return some ("restore " ++ a.text ++ ": " ++ e)
    | some .notExist => return some ("restore " ++ a.text ++ ": no such file or directory")
    | none => return none

/-- `restoreBackup`. -/
def restoreBackup : Script File (Option String) := do
  let err ← restoreFile .binary
  match err with
  | some e => return some e
  | none =>
    let err ← restoreFile .web
    match err with
    | some e => return some e
    | none => restoreFile .version

/-- `installRelease` for a member that the bundle may have; `what` is the word for it in the error. -/
def installMember (bundle : Bundle File) (a : Artefact) (what : String) : Script File (Option String) :=
  match bundle a with
  | none => return none
  | some content => do
    let copied : Option String ← Prog.ask (Op.copy a content)
    return copied.map (fun e => "install " ++ what ++ ": " ++ e)

/-- `installRelease`. -/
def installRelease (bundle : Bundle File) : Script File (Option String) := do
  let err ← installMember bundle .binary "binary"
  match err with
  | some e => return some e
  | none =>
    if (bundle .version).isNone then return some "release VERSION: no such file or directory"
    else
      let err ← installMember bundle .version "VERSION"
      match err with
      | some e => return some e
      | none =>
        let err ← installMember bundle .web "web assets"
        match err with
        | some e => return some e
        | none => installMember bundle .unit "service"

/-- `restoreAndRestart`. -/
def restoreAndRestart : Script File (Option String) := do
  let err ← restoreBackup
  match err with
  | some e => return some e
  | none => Prog.ask Op.restart

/-- `Fail` and the save that follows it. -/
def failUpdate (id : ℕ) (err : String) : Script File Unit := do
  let _ : Option String ← Prog.ask (Op.fail id err)
  let _ : Option String ← Prog.ask Op.saveState
  return ()

/-- `RollbackWithError` and the save that follows it. -/
def rolledBack (id : ℕ) (cause : String) : Script File Unit := do
  let _ : Option String ← Prog.ask (Op.rollback id cause)
  let _ : Option String ← Prog.ask Op.saveState
  return ()

/-- The part of `executeUpdate` from the readiness wait on. -/
def awaitReadiness (id : ℕ) : Script File Unit := do
  let moved : Option String ← Prog.ask (Op.transition id .readiness)
  match moved with
  | some _ => return ()
  | none =>
    let ready : Bool ← Prog.ask Op.ready
    if !ready then
      let err ← restoreAndRestart
      match err with
      | some e => failUpdate id ("readiness failed, restore failed: " ++ e)
      | none =>
        let recovered : Bool ← Prog.ask Op.ready
        if !recovered then failUpdate id "readiness failed and restored version did not recover"
        else rolledBack id "new version failed readiness"
    else
      let completed : Option String ← Prog.ask (Op.complete id)
      match completed with
      | some _ => return ()
      | none =>
        let _ : Option String ← Prog.ask Op.saveState
        return ()

/-- The part of `executeUpdate` that changes the installation. -/
def replaceInstallation (id : ℕ) (bundle : Bundle File) : Script File Unit := do
  let err ← backupCurrent
  match err with
  | some e => failUpdate id ("backup: " ++ e)
  | none =>
    let err ← installRelease bundle
    match err with
    | some e =>
      let restored ← restoreBackup
      match restored with
      | some r => failUpdate id ("install failed: " ++ e ++ ", restore failed: " ++ r)
      | none => rolledBack id ("install failed: " ++ e)
    | none =>
      let restarted : Option String ← Prog.ask Op.restart
      match restarted with
      | some e =>
        let err ← restoreAndRestart
        match err with
        | some r => failUpdate id ("restart failed: " ++ e ++ ", rollback failed: " ++ r)
        | none => rolledBack id ("restart failed: " ++ e)
      | none => awaitReadiness id

/-- `executeUpdate`, of the attempt with this id. -/
def executeUpdate (id : ℕ) : Script File Unit := do
  let downloaded : Option String ← Prog.ask Op.download
  match downloaded with
  | some e => failUpdate id ("download: " ++ e)
  | none =>
    let moved : Option String ← Prog.ask (Op.transition id .verifying)
    match moved with
    | some _ => return ()
    | none =>
      let verified : Option String ← Prog.ask Op.verify
      match verified with
      | some e => failUpdate id ("checksum verification: " ++ e)
      | none =>
        let extracted : Except String (Bundle File) ← Prog.ask Op.extract
        match extracted with
        | .error e => failUpdate id ("extract release: " ++ e)
        | .ok bundle =>
          let _ : Option String ← Prog.ask Op.saveState
          let moved : Option String ← Prog.ask (Op.transition id .installing)
          match moved with
          | some _ => return ()
          | none => replaceInstallation id bundle

/-! ### The installation -/

/-- What is decided outside. -/
structure Choice (File : Type) where
  now : ℕ := 0
  download : Option String := none
  verify : Option String := none
  extract : Except String (Bundle File)
  /-- the errors of the renames, of an artefact and back -/
  backup : Artefact → Option String := fun _ => none
  restore : Artefact → Option String := fun _ => none
  /-- the errors of the copies, with what is left in the place of the artefact when it was touched -/
  install : Artefact → Option (String × Option File) := fun _ => none
  /-- the answers to the restarts and to the waits, one after the other -/
  restart : ℕ → Option String := fun _ => none
  ready : ℕ → Bool := fun _ => true
  save : Option String := none

/-- The installation, and the agent with its state file. -/
structure World (File : Type) where
  files : Path → Option File
  manager : Manager
  saved : Option Persisted := none
  /-- how often the service was restarted and waited for -/
  restarts : ℕ := 0
  waits : ℕ := 0

/-- What an operation of the manager does. -/
def World.managed (w : World File) : Except String Manager → Option String × World File
  | .ok m => (none, { w with manager := m })
  | .error e => (some e, w)

def World.set (w : World File) (path : Path) (file : Option File) : World File :=
  { w with files := Function.update w.files path file }

def act : (op : Op File) → Choice File → World File → Option (Ans op × World File)
  | .download, x, w => some (x.download, w)
  | .verify, x, w => some (x.verify, w)
  | .extract, x, w => some (x.extract, w)
  | .transition id state, _, w => some (w.managed (w.manager.transition id state))
  | .fail id err, x, w => some (w.managed (w.manager.fail x.now id err))
  | .complete id, x, w => some (w.managed (w.manager.complete x.now id))
  | .rollback id cause, x, w => some (w.managed (w.manager.rollbackWithError x.now id cause))
  | .saveState, x, w =>
    match x.save with
    | some e => some (some e, w)
    | none => some (none, { w with saved := some w.manager.persisted })
  | .stat path, _, w => some ((w.files path).isSome, w)
  | .remove path, _, w => some (none, w.set path none)
  | .rename source target, x, w =>
    match w.files source with
    | none => some (some .notExist, w)
    | some file =>
      let err := match source with
        | .live a => x.backup a
        | .prev a => x.restore a
      match err with
      | some e => some (some (.other e), w)
      | none => some (none, (w.set target (some file)).set source none)
  | .copy a content, x, w =>
    match x.install a with
    | none => some (none, w.set (.live a) (some content))
    | some (e, none) => some (some e, w)
    | some (e, some left) => some (some e, w.set (.live a) (some left))
  | .restart, x, w => some (x.restart w.restarts, { w with restarts := w.restarts + 1 })
  | .ready, x, w => some (x.ready w.waits, { w with waits := w.waits + 1 })

end

end Velora.Update
