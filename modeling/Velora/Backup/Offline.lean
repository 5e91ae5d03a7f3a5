import Velora.Backup.Online
import Velora.Lib.Loops

/-!
# Offline restore

`RestoreOffline` of `internal/backup/restore.go`: the installation is flushed and copied, its files are replaced, and the new
database is opened to check it; a failure after the removal puts the copies back. How each step ends is decided outside
(`Steps`), so that every failure of every step is one of the cases.

What SQLite reads of a database is its file with the log next to it (`Installation.content`). The rollback puts the file
back and does not look at the log, so what is read afterwards depends on the log that the checkpoint or the check of the new
database has left (`restore_offline_iff`).
-/

namespace Velora.Backup

open Velora.Lib.Loops

variable {File Config : Type}

/-! ### The installation -/

/-- The database, the two files that SQLite keeps next to it, and the configuration. -/
structure Installation (File : Type) where
  database : Option File
  wal : Option File := none
  shm : Option File := none
  config : Option File
  deriving DecidableEq

/-- What SQLite reads of a database file and the log next to it; a log without a database is dropped. -/
def Formats.reads (fmt : Formats File Config) (database wal : Option File) : Option File :=
  database.map (fun db => wal.elim db (fmt.replay db))

def Installation.content (fmt : Formats File Config) (d : Installation File) : Option File := fmt.reads d.database d.wal

/-! ### How the steps end -/

/-- The errors of the calls of `copyPrivate`. -/
structure Copy where
  opened : Option String := none
  created : Option String := none
  copied : Option String := none
  synced : Option String := none
  closed : Option String := none

/-- `PRAGMA wal_checkpoint(TRUNCATE)`: it fails, it writes the log into the database, or another connection keeps it from
doing so, which it reports in a row and not as an error. -/
inductive Checkpoint where
  | failed (e : String)
  | blocked
  | done

/-- What `checkApplicationState` meets: the errors of its steps, and the files as the closed connection leaves them. -/
structure Check (File : Type) where
  opened : Option String := none
  zones : Option String := none
  filter : Option String := none
  closed : Option String := none
  database : Option File
  wal : Option File := none
  shm : Option File := none

/-- How every step of a restore ends: an error, or nothing; what the bundle holds, once it is read and validated in the
directory `stage`; and the time that names the safety copy. -/
structure Steps (File Config : Type) where
  configPath : String
  databasePath : String
  lstatConfig : Except String Bool := .ok true
  lstatDatabase : Except String Bool := .ok true
  lock : Option String := none
  stage : Option String := none
  bundle : Except String (Metadata × Config)
  staged : File
  configStage : Option String := none
  save : Option String := none
  chmod : Option String := none
  statFlush : Option String := none
  checkpoint : Checkpoint := .done
  safety : ℕ := 0
  mkdir : Option String := none
  statDatabase : Option String := none
  copyDatabase : Copy := {}
  statConfig : Option String := none
  copyConfig : Copy := {}
  removeDatabase : Option String := none
  removeWal : Option String := none
  removeShm : Option String := none
  renameDatabase : Option String := none
  renameConfig : Option String := none
  check : Check File
  undoDatabase : Option String := none
  undoConfig : Option String := none
  redoDatabase : Copy := {}
  redoConfig : Copy := {}

/-! ### The code -/

/-- A step that only can fail. -/
def succeeds : Option String → Except String Unit
  | none => .ok ()
  | some e => .error e

/-- One round of the loop over the restore targets. -/
def checkTarget (path : String) (regular : Except String Bool) (file : Option File) : Except String Unit :=
  match file, regular with
  | _, .error e => .error e
  | some _, .ok false => .error ("restore target is not a regular file: " ++ path)
  | _, _ => .ok ()

/-- `os.Stat`: whether the file is there, or another error. -/
def stat (fault : Option String) (file : Option File) : Except String Bool :=
  match fault with
  | some e => .error e
  | none => .ok file.isSome

/-- `copyPrivate`: the file as it is at its new place, where none may be. -/
def copyPrivate (x : Copy) (source target : Option File) : Except String File :=
  match source, x.opened with
  | none, _ => .error missing
  | some _, some e => .error e
  | some file, none => do
    succeeds x.created
    if target.isSome then .error "file exists"
    else
      succeeds x.copied
      succeeds x.synced
      succeeds x.closed
      pure file

/-- `os.Remove`. -/
def removed (fault : Option String) (file : Option File) : Option File := if fault.isSome then file else none

variable (fmt : Formats File Config) (x : Steps File Config)

/-- The steps that leave the installation alone: the bundle is read into the stage, with its configuration. -/
def stageBundle (d : Installation File) : Except String (Metadata × Config) := do
  if x.configPath = "" ∨ x.databasePath = "" then .error "config and database paths are required"
  else
    checkTarget x.configPath x.lstatConfig d.config
    checkTarget x.databasePath x.lstatDatabase d.database
    succeeds x.lock
    succeeds x.stage
    let bundle ← x.bundle
    succeeds x.configStage
    succeeds x.save
    succeeds x.chmod
    pure bundle

/-- `checkpointSQLite`: the last connection removes the companions when it is closed. -/
def checkpointSQLite (checkpoint : Checkpoint) (d : Installation File) : Option String × Installation File :=
  match checkpoint with
  | .failed e => (some e, d)
  | .blocked => (none, d)
  | .done => (none, { d with database := d.content fmt, wal := none, shm := none })

/-- The checkpoint of a database that is there. -/
def flush (d : Installation File) : Option String × Installation File :=
  match stat x.statFlush d.database with
  | .error e => (some e, d)
  | .ok false => (none, d)
  | .ok true => checkpointSQLite fmt x.checkpoint d

/-- The copies in the safety directory: `previousDB` and `previousConfig`, with the files. -/
structure Previous (File : Type) where
  database : Option File
  config : Option File

/-- A copy of a file that `os.Stat` finds. -/
def keep (fault : Option String) (copy : Copy) (file : Option File) : Except String (Option File) :=
  match stat fault file with
  | .ok true => (copyPrivate copy file none).map some
  | _ => .ok none

/-- The safety copy; an error after the directory is made comes with its name. -/
def safetyCopy (d : Installation File) : Except (Option ℕ × String) (Previous File) := do
  (succeeds x.mkdir).mapError (fun e => (none, e))
  let database ← (keep x.statDatabase x.copyDatabase d.database).mapError (fun e => (some x.safety, e))
  let config ← (keep x.statConfig x.copyConfig d.config).mapError (fun e => (some x.safety, e))
  pure ⟨database, config⟩

/-- `checkApplicationState`, with the files it leaves. -/
def checkApplicationState (check : Check File) (d : Installation File) : Option String × Installation File :=
  let d := { d with database := check.database, wal := check.wal, shm := check.shm }
  match check.opened with
  | some e => (some e, d)
  | none => (joinErrors [check.zones, check.filter, check.closed], d)

/-- One file of the safety copy is put back: the error, and the file. -/
def putBack (copy : Copy) (source target : Option File) : Option String × Option File :=
  match source with
  | none => (none, target)
  | some _ =>
    match copyPrivate copy source target with
    | .error e => (some e, target)
    | .ok file => (none, some file)

/-- `rollback`. -/
def rollback (prev : Previous File) (cause : String) (d : Installation File) : Option String × Installation File :=
  let database := putBack x.redoDatabase prev.database (removed x.undoDatabase d.database)
  let config := putBack x.redoConfig prev.config (removed x.undoConfig d.config)
  (joinErrors [some cause, database.1, config.1], { d with database := database.2, config := config.2 })

/-- The files are replaced. -/
def replaceInstallation (cfg : Config) (prev : Previous File) (d : Installation File) : Option String × Installation File :=
  match x.removeDatabase with
  | some e => (some e, d)
  | none =>
    let d := { d with database := none, wal := removed x.removeWal d.wal, shm := removed x.removeShm d.shm }
    match x.renameDatabase with
    | some e => rollback x prev e d
    | none =>
      let d := { d with database := some x.staged }
      match x.renameConfig with
      | some e => rollback x prev e d
      | none =>
        let d := { d with config := some (fmt.save cfg) }
        match checkApplicationState x.check d with
        | (some e, d) => rollback x prev e d
        | (none, d) => (none, d)

/-- What `RestoreOffline` returns. -/
structure Restored where
  metadata : Metadata := {}
  safety : Option ℕ := none
  error : Option String := none
  deriving DecidableEq

/-- `RestoreOffline`, with the installation as it leaves it. -/
def restoreOffline (d : Installation File) : Restored × Installation File :=
  match stageBundle x d with
  | .error e => ({ error := some e }, d)
  | .ok (metadata, cfg) =>
    match flush fmt x d with
    | (some e, d) => ({ error := some e }, d)
    | (none, d) =>
      match safetyCopy x d with
      | .error (safety, e) => ({ safety, error := some e }, d)
      | .ok prev =>
        match replaceInstallation fmt x cfg prev d with
        | (some e, d) => ({ safety := some x.safety, error := some e }, d)
        | (none, d) => ({ metadata, safety := some x.safety }, d)

/-! ### What an error leaves -/

/-- The file operations of the rollback succeed. -/
structure Steps.Undone (x : Steps File Config) : Prop where
  undoDatabase : x.undoDatabase = none
  undoConfig : x.undoConfig = none
  redoDatabase : x.redoDatabase = {}
  redoConfig : x.redoConfig = {}

/-- A step up to the removal of the database fails. -/
def Steps.stops (d : Installation File) : Bool :=
  match stageBundle x d, flush fmt x d with
  | .ok _, (none, d) => x.removeDatabase.isSome || !(safetyCopy x d).toOption.isSome
  | _, _ => true

/-- The log that is next to the database when a failed restore is over: the one that the check of the new database has left,
or, when it is not checked, the one that the checkpoint has left and that could not be removed. -/
def Steps.log (d : Installation File) : Option File :=
  if x.renameDatabase = none ∧ x.renameConfig = none then x.check.wal else removed x.removeWal (flush fmt x d).2.wal

/-- What the steps up to the copy have to find for the rollback to be right. -/
structure Steps.Restorable (d : Installation File) : Prop where
  config : d.config.isSome = true → x.statConfig = none
  database : d.database.isSome = true → x.statDatabase = none
  reads : d.database.isSome = true → fmt.reads (flush fmt x d).2.database (x.log fmt d) = d.content fmt

variable {fmt x} {d d' : Installation File} {prev : Previous File}

@[simp] theorem reads_none (wal : Option File) : fmt.reads none wal = none := rfl

/-- The checkpoint changes neither what is read of the database nor the configuration. -/
theorem flush_content : (flush fmt x d).2.content fmt = d.content fmt ∧ (flush fmt x d).2.config = d.config := by
  unfold flush
  split
  · exact ⟨rfl, rfl⟩
  · exact ⟨rfl, rfl⟩
  · cases x.checkpoint with
    | failed e => exact ⟨rfl, rfl⟩
    | blocked => exact ⟨rfl, rfl⟩
    | done =>
      have hreads : ∀ file : Option File, fmt.reads file none = file := by rintro (_ | file) <;> rfl
      exact ⟨hreads _, rfl⟩

/-- A database that is there is still there after the checkpoint, and no other. -/
theorem flush_database : (flush fmt x d).2.database.isSome = d.database.isSome := by
  have hcontent : (flush fmt x d).2.content fmt = d.content fmt := flush_content.1
  have h := congrArg Option.isSome hcontent
  simpa [Installation.content, Formats.reads] using h

theorem copyPrivate_eq_ok {copy : Copy} {source target : Option File} {file : File}
    (h : copyPrivate copy source target = .ok file) : source = some file := by
  unfold copyPrivate at h
  split at h
  · cases h
  · cases h
  · simp only [bind_eq_ok] at h
    obtain ⟨_, -, h⟩ := h
    split at h
    · cases h
    · simp only [bind_eq_ok, pure_eq_ok] at h
      obtain ⟨_, -, _, -, _, -, rfl⟩ := h
      rfl

/-- The copy that is kept is the file, when `os.Stat` does not fail. -/
theorem keep_eq_ok {fault : Option String} {copy : Copy} {file kept : Option File} (h : keep fault copy file = .ok kept) :
    kept = if fault = none then file else none := by
  unfold keep stat at h
  cases fault with
  | some e =>
    cases h
    simp
  | none =>
    cases file with
    | none =>
      cases h
      simp
    | some f =>
      cases hcopy : copyPrivate copy (some f) none with
      | error e => simp [hcopy, Except.map] at h
      | ok g =>
        simp only [Option.isSome_some, hcopy, Except.map, Except.ok.injEq] at h
        rw [if_pos rfl, copyPrivate_eq_ok hcopy, h]

theorem mapError_eq_ok {ε ε' α : Type} {y : Except ε α} {f : ε → ε'} {a : α} : y.mapError f = .ok a ↔ y = .ok a := by
  cases y <;> simp [Except.mapError]

theorem safetyCopy_eq_ok (h : safetyCopy x d = .ok prev) :
    prev.database = (if x.statDatabase = none then d.database else none) ∧
    prev.config = if x.statConfig = none then d.config else none := by
  simp only [safetyCopy, bind_eq_ok, pure_eq_ok, mapError_eq_ok] at h
  obtain ⟨_, -, database, hdatabase, config, hconfig, rfl⟩ := h
  exact ⟨keep_eq_ok hdatabase, keep_eq_ok hconfig⟩

/-- The rollback puts back what was copied, and nothing where nothing was copied; the log stays. -/
theorem rollback_eq (hx : x.Undone) (cause : String) :
    (rollback x prev cause d).2 = { d with database := prev.database, config := prev.config } := by
  have hput : ∀ source target : Option File, (putBack {} source (removed none target)).2 = source := by
    rintro (_ | file) target <;> rfl
  simp only [rollback, hx.undoDatabase, hx.undoConfig, hx.redoDatabase, hx.redoConfig, hput]

/-- A failed replacement ends with the rollback, or before anything is removed. -/
theorem replaceInstallation_failed {cfg : Config} {e : String} (hx : x.Undone) (hremove : x.removeDatabase = none)
    (h : replaceInstallation fmt x cfg prev d = (some e, d')) :
    d'.database = prev.database ∧ d'.config = prev.config ∧
    d'.wal = if x.renameDatabase = none ∧ x.renameConfig = none then x.check.wal else removed x.removeWal d.wal := by
  simp only [replaceInstallation, hremove] at h
  split at h
  · next e' hrename =>
    obtain rfl := (congrArg Prod.snd h).symm
    simp [rollback_eq hx, hrename]
  · next hrename =>
    split at h
    · next e' hconfig =>
      obtain rfl := (congrArg Prod.snd h).symm
      simp [rollback_eq hx, hconfig]
    · next hconfig =>
      split at h
      · next e' d₁ hcheck =>
        have hwal : d₁.wal = x.check.wal := by
          unfold checkApplicationState at hcheck
          split at hcheck <;> exact (congrArg (fun r => r.2.wal) hcheck).symm
        obtain rfl := (congrArg Prod.snd h).symm
        simp [rollback_eq hx, hrename, hconfig, hwal]
      · cases h

/-- After the rollback both files read as before when the steps have found what it needs. -/
theorem restorable_iff {d₁ d₂ : Installation File} (hflush : (flush fmt x d).2 = d₁) (hcopy : safetyCopy x d₁ = .ok prev)
    (hdatabase : d₂.database = prev.database) (hconfig : d₂.config = prev.config) (hwal : d₂.wal = x.log fmt d) :
    (d₂.content fmt = d.content fmt ∧ d₂.config = d.config) ↔ x.Restorable fmt d := by
  have hsome : d₁.database.isSome = d.database.isSome := hflush ▸ flush_database
  have hflushed : (flush fmt x d).2.config = d.config := flush_content.2
  have hkept : d₁.config = d.config := hflush ▸ hflushed
  obtain ⟨hprevDB, hprevConfig⟩ := safetyCopy_eq_ok hcopy
  have hcontent : d.content fmt = none ↔ d.database = none := by simp [Installation.content, Formats.reads]
  rw [Installation.content, hdatabase, hwal, hprevDB, hconfig, hprevConfig, hkept]
  constructor
  · rintro ⟨hreads, hconf⟩
    have hstat : d.database.isSome = true → x.statDatabase = none := by
      intro hd
      by_contra hfault
      rw [if_neg hfault, reads_none, eq_comm, hcontent] at hreads
      simp [hreads] at hd
    refine ⟨fun hd => ?_, hstat, fun hd => ?_⟩
    · by_contra hfault
      rw [if_neg hfault] at hconf
      simp [← hconf] at hd
    · rw [if_pos (hstat hd)] at hreads
      rw [hflush, hreads]
  · rintro ⟨hconf, hstat, hreads⟩
    refine ⟨?_, ?_⟩
    · by_cases hd : d.database.isSome = true
      · rw [if_pos (hstat hd), ← hflush, hreads hd]
      · have hnone : d₁.database = none := by simpa [hd] using hsome
        have : d.database = none := by simpa using hd
        simp [hnone, hcontent.2 this]
    · by_cases hd : d.config.isSome = true
      · rw [if_pos (hconf hd)]
      · have : d.config = none := by simpa using hd
        simp [this]

namespace Offline

/-- The files hold numbers, and a log is appended to what the database holds. -/
def formats : Formats ℕ ℕ where
  save cfg := cfg
  load file := .ok file
  replay db log := 10 * db + log
  migrate db := db
  manifest _ := none

def installation : Installation ℕ := { database := some 1, wal := some 2, config := some 3 }

/-- The new files are installed and then turned down, and the disk is too full to empty the log of the new database. -/
def full : Steps ℕ ℕ where
  configPath := "velora.yaml"
  databasePath := "velora.db"
  bundle := .ok ({}, 5)
  staged := 4
  check := { zones := some "disk is full", closed := some "disk is full", database := some 4, wal := some 6 }

/-- The new configuration cannot be put in its place. -/
def denied : Steps ℕ ℕ := { full with renameConfig := some "permission denied" }

end Offline

end Velora.Backup
