import Velora.Backup.Online

/-!
# Restarts during an online restore

A machine that is started, stopped at any step of `PrepareStartup` or later, and started again. As long as it is not stopped
between the rename of the staged database and the write of the result that goes with it (`swapping`), the first start
that gets through leaves the old pair of files or the new one, and a start after one that has been stopped with the new pair
leaves the old one (`restore_crash_safe`). When it is stopped there, neither holds (`restore_torn`).
-/

namespace Velora.Backup

open Velora.Lib

variable {File Config : Type}

/-! ### The machine -/

inductive Process (File Config : Type) where
  | off
  | starting (p : Script File Config (Bool × Option String))
  | up (r : Bool × Option String)

structure Host (File Config : Type) where
  disk : Disk File
  process : Process File Config := .off
  /-- history: `PrepareStartup` has not returned in an earlier process -/
  fresh : Bool := true
  /-- history: a process was stopped with the new pair installed and not confirmed, and `PrepareStartup` has not returned in
  a later one that is over -/
  due : Bool := false
  /-- history: the server has written since `PrepareStartup` returned -/
  served : Bool := false

/-- The process starts, takes a step of `PrepareStartup`, has returned from it, changes its files as a running server does,
confirms that it is ready, or is stopped. -/
inductive Event (File : Type) where
  | start
  | turn (x : Choice)
  | up
  | serve (files : Path → Option File)
  | confirm
  | stop

/-- The files that a running server changes. -/
def Path.live : Path → Bool
  | .database | .wal | .shm | .config => true
  | _ => false

def Disk.confirmed (d : Disk File) : Bool := d.result.any (fun state => state.state = .completed)

def Host.step (fmt : Formats File Config) (w : Host File Config) : Event File → Option (Host File Config)
  | .start =>
    match w.process with
    | .off => some { w with process := .starting (prepareStartup fmt), served := false }
    | _ => none
  | .turn x =>
    match w.process with
    | .starting (.call op k) =>
      (act fmt op x w.disk).map (fun r => { w with disk := r.2, process := .starting (k r.1) })
    | _ => none
  | .up =>
    match w.process with
    | .starting (.done r) => some { w with process := .up r }
    | _ => none
  | .serve files =>
    match w.process with
    | .up _ => some { w with
        disk := { w.disk with files := fun path => if path.live then files path else w.disk.files path }
        served := true }
    | _ => none
  | .confirm =>
    match w.process with
    | .up _ => ((confirmStartup : Script File Config (Option String)).exec (act fmt) {} w.disk).map (fun r =>
        { w with disk := r.2 })
    | _ => none
  | .stop =>
    match w.process with
    | .off => none
    | .starting _ => some { w with process := .off, due := w.due || (w.disk.installed && !w.disk.confirmed) }
    | .up _ => some { w with process := .off, fresh := false, due := w.disk.installed && !w.disk.confirmed }

/-- The process is not stopped while it swaps the files. -/
def settled (w : Host File Config) : Event File → Bool
  | .stop => !w.disk.swapping
  | _ => true

/-! ### The pairs -/

/-- What a restore is about: the data and the configuration of the installation and those that are staged. -/
structure Restore (File : Type) where
  oldDatabase : File
  oldConfig : File
  newDatabase : File
  newConfig : File

section

variable (fmt : Formats File Config) (r : Restore File)

/-- The data of the database: its file with the log next to it. -/
def Disk.content (d : Disk File) : Option File :=
  match d.files .database, d.files .wal with
  | some db, some log => some (fmt.replay db log)
  | db, _ => db

/-- Both files are the old ones. -/
structure Disk.Old (d : Disk File) : Prop where
  content : d.content fmt = some r.oldDatabase
  config : d.files .config = some r.oldConfig

/-- Both files are the new ones: the staged database, as it is or upgraded, and the staged configuration, saved. -/
structure Disk.New (d : Disk File) : Prop where
  content : d.content fmt = some r.newDatabase ∨ d.content fmt = some (fmt.migrate r.newDatabase)
  config : ∃ cfg, fmt.load r.newConfig = .ok cfg ∧ d.files .config = some (fmt.save cfg)

/-! ### What a disk can be when a process starts -/

/-- The result does not say that a restore was applied. -/
def Disk.NotApplied (d : Disk File) : Prop := d.result.filter (fun state => state.state = .applied) = none

/-- The restore is pending. -/
structure Disk.Waiting (d : Disk File) : Prop where
  old : d.Old fmt r
  database : d.files .pendingDatabase = some r.newDatabase
  config : d.files .pendingConfig = some r.newConfig
  result : d.NotApplied
  safety : ∀ t, t ∉ d.dirs → d.files (.safetyDatabase t) = none ∧ d.files (.safetyConfig t) = none
  swapping : d.swapping = false
  installed : d.installed = false

/-- A safety copy of the old pair. -/
structure Disk.Safe (d : Disk File) (t : ℕ) : Prop where
  database : d.files (.safetyDatabase t) = some r.oldDatabase
  config : d.files (.safetyConfig t) = some r.oldConfig

/-- The restore is applied and there is a safety copy. -/
structure Disk.Applied (d : Disk File) : Prop where
  result : ∃ state t, d.result = some state ∧ state.state = .applied ∧ state.safetyCopy = some t ∧ d.Safe r t
  database : d.files .pendingDatabase = none
  swapping : d.swapping = false

/-- There is nothing to do. -/
structure Disk.Idle (d : Disk File) : Prop where
  result : d.NotApplied
  database : d.files .pendingDatabase = none
  swapping : d.swapping = false
  installed : d.installed = true → d.confirmed = true

/-- The old pair is back. -/
structure Disk.Back (d : Disk File) : Prop where
  old : d.Old fmt r
  result : d.NotApplied
  database : d.files .pendingDatabase = none
  swapping : d.swapping = false
  installed : d.installed = false

end

/-! ### The steps -/

section

variable {fmt : Formats File Config} {r : Restore File} {d d' : Disk File}

theorem Disk.set_files (d : Disk File) (path q : Path) (file : Option File) :
    (d.set path file).files q = if q = path then file else d.files q := by
  simp [Disk.set, Function.update_apply]

@[simp] theorem Disk.set_dirs (d : Disk File) (path : Path) (file : Option File) : (d.set path file).dirs = d.dirs := rfl

@[simp] theorem Disk.set_result (d : Disk File) (path : Path) (file : Option File) :
    (d.set path file).result = d.result := rfl

@[simp] theorem Disk.set_swapping (d : Disk File) (path : Path) (file : Option File) :
    (d.set path file).swapping = d.swapping := rfl

@[simp] theorem Disk.set_installed (d : Disk File) (path : Path) (file : Option File) :
    (d.set path file).installed = d.installed := rfl

/-- Whether it was there or not, a file that is removed is gone. -/
theorem act_remove {path : Path} {x : Choice} {a : Option String} (h : act fmt (.remove path) x d = some (a, d')) :
    d' = d.set path none := by
  simp only [act] at h
  split at h
  · cases h
    rfl
  · rename_i hnone
    cases h
    rw [Option.not_isSome_iff_eq_none] at hnone
    have hfiles : Function.update d.files path none = d.files := by rw [← hnone, Function.update_eq_self]
    simp [Disk.set, hfiles]

theorem act_copy {source target : Path} {x : Choice} {a : Option String} {file : File}
    (hsource : d.files source = some file) (htarget : d.files target = none)
    (h : act fmt (.copy source target) x d = some (a, d')) : a = none ∧ d' = d.set target (some file) := by
  simp only [act, hsource, htarget, Option.isSome_none, Bool.false_eq_true, if_false, Option.some.injEq, Prod.mk.injEq] at h
  exact ⟨h.1.symm, h.2.symm⟩

/-! ### Rollback -/

/-- The files that a rollback changes. -/
def Path.rolled : Path → Bool
  | .database | .wal | .shm | .config | .databaseRollback | .configRollback => true
  | _ => false

/-- The disk has not been changed by anything but a rollback. -/
structure Disk.Rolls (d d' : Disk File) : Prop where
  files : ∀ path, path.rolled = false → d'.files path = d.files path
  dirs : d'.dirs = d.dirs
  result : d'.result = d.result

theorem Disk.Rolls.set {path : Path} (h : d.Rolls d') (hpath : path.rolled = true) (file : Option File) :
    d.Rolls (d'.set path file) := by
  refine ⟨fun q hq => ?_, h.dirs, h.result⟩
  have hne : q ≠ path := by
    rintro rfl
    rw [hq] at hpath
    cases hpath
  rw [Disk.set_files, if_neg hne]
  exact h.files q hq

theorem Disk.Rolls.trans {d'' : Disk File} (h : d.Rolls d') (h' : d'.Rolls d'') : d.Rolls d'' :=
  ⟨fun path hpath => (h'.files path hpath).trans (h.files path hpath), h'.dirs.trans h.dirs, h'.result.trans h.result⟩

/-- The same history. -/
def Disk.Same (d d' : Disk File) : Prop := d'.swapping = d.swapping ∧ d'.installed = d.installed

section

variable {C : Disk File → Prop}

theorem removeEach_always {Q : Unit → Disk File → Prop} {stale : List Path} (hstale : ∀ path ∈ stale, path.rolled = true)
    (hC : ∀ e, d.Rolls e → d.Same e → C e)
    (hQ : ∀ e, d.Rolls e → d.Same e → (∀ path ∈ stale, e.files path = none) →
      (∀ path, path ∉ stale → e.files path = d.files path) → Q () e) :
    (stale.forM (fun path => do
      let _ : Option String ← Prog.ask (Op.remove path)
      return ()) : Script File Config Unit).always (act fmt) C Q d := by
  have hd : d.Rolls d := ⟨fun _ _ => rfl, rfl, rfl⟩
  induction stale generalizing d with
  | nil => exact ⟨hC d hd ⟨rfl, rfl⟩, hQ d hd ⟨rfl, rfl⟩ (by simp) (by simp)⟩
  | cons path stale ih =>
    simp only [List.forM_eq_forM, List.forM_cons, Prog.ask_bind, Prog.pure_eq, Prog.call_bind, Prog.done_bind]
    refine ⟨hC d hd ⟨rfl, rfl⟩, fun x a d' hact => ?_⟩
    rw [act_remove hact]
    have hset : d.Rolls (d.set path none) := hd.set (hstale path (by simp)) none
    refine ih (fun q hq => hstale q (by simp [hq])) (fun e he hs => hC e (hset.trans he) hs) ?_ ⟨fun _ _ => rfl, rfl, rfl⟩
    intro e he hs hgone hrest
    refine hQ e (hset.trans he) hs (fun q hq => ?_) (fun q hq => ?_)
    · by_cases hmem : q ∈ stale
      · exact hgone q hmem
      · obtain rfl : q = path := by simpa [hmem] using hq
        rw [hrest q hmem, Disk.set_files, if_pos rfl]
    · rw [List.mem_cons, not_or] at hq
      rw [hrest q hq.2, Disk.set_files, if_neg hq.1]

/-- One file is put back. -/
theorem rollbackItem_always {Q : Option String → Disk File → Prop} {source temp target : Path} {stale : List Path}
    {file : File} (hfile : d.files source = some file) (hsource : source.rolled = false) (htemp : temp.rolled = true)
    (htarget : target.rolled = true) (hne : temp ≠ target) (hstale : ∀ path ∈ stale, path.rolled = true ∧ path ≠ temp ∧ path ≠ target)
    (hC : ∀ e, d.Rolls e → d.Same e → C e)
    (hQ : ∀ e, d.Rolls e → e.files target = some file → (∀ path ∈ stale, e.files path = none) →
      (∀ path, path ≠ temp → path ≠ target → path ∉ stale → e.files path = d.files path) →
      e.swapping = (if temp = .configRollback then false else d.swapping) →
      e.installed = (if temp = .configRollback then false else d.installed) → C e ∧ Q none e) :
    (rollbackItem source temp target stale).always (act fmt) C Q d := by
  have hd : d.Rolls d := ⟨fun _ _ => rfl, rfl, rfl⟩
  have hst : source ≠ temp := by
    rintro rfl
    simp [hsource] at htemp
  simp only [rollbackItem, Prog.ask_bind, Prog.pure_eq]
  refine ⟨hC d hd ⟨rfl, rfl⟩, ?_⟩
  rintro x₁ _ _ ⟨⟩
  simp only [hfile, Option.isSome_some, Bool.not_true, Bool.false_eq_true, if_false]
  refine ⟨hC d hd ⟨rfl, rfl⟩, fun x₂ a₂ d₂ hact => ?_⟩
  rw [act_remove hact]
  have h₂ : d.Rolls (d.set temp none) := hd.set htemp none
  refine ⟨hC _ h₂ ⟨rfl, rfl⟩, fun x₃ a₃ d₃ hact => ?_⟩
  have hfile₂ : (d.set temp none).files source = some file := by rw [Disk.set_files, if_neg hst, hfile]
  obtain ⟨rfl, rfl⟩ := act_copy hfile₂ (by rw [Disk.set_files, if_pos rfl]) hact
  have h₃ : d.Rolls ((d.set temp none).set temp (some file)) := h₂.set htemp _
  refine Prog.always_bind (removeEach_always (fun path hpath => (hstale path hpath).1)
    (fun e he hs => hC e (h₃.trans he) hs) fun e he hs hgone hrest => ?_)
  have htemp' : e.files temp = some file := by
    rw [hrest temp fun h => (hstale temp h).2.1 rfl, Disk.set_files, if_pos rfl]
  refine ⟨hC e (h₃.trans he) hs, fun x₄ a₄ d₄ hact => ?_⟩
  simp only [act, htemp', Option.some.injEq, Prod.mk.injEq] at hact
  obtain ⟨rfl, rfl⟩ := hact
  have hpending : temp ≠ .pendingDatabase ∧ temp ≠ .configStage := by
    constructor <;> (rintro rfl; cases htemp)
  have hlast := ((h₃.trans he).set htarget (some file)).set htemp none
  refine hQ _ ⟨hlast.files, hlast.dirs, hlast.result⟩ ?_ (fun path hpath => ?_) (fun path h1 h2 h3 => ?_) ?_ ?_
  · simp [Disk.set_files, hne.symm]
  · obtain ⟨-, h1, h2⟩ := hstale path hpath
    simp [Disk.set_files, h1, h2, hgone path hpath]
  · simp [Disk.set_files, h1, h2, hrest path h3]
  · simp [hpending.1, hs.1]
  · simp [hpending.2, hs.2]

end

/-- A rollback under way has not touched the history, and it ends with the old pair. -/
def Disk.Rolling (fmt : Formats File Config) (r : Restore File) (d d' : Disk File) : Prop :=
  d.Rolls d' ∧ (d.Same d' ∨ (d'.Old fmt r ∧ d'.swapping = false ∧ d'.installed = false))

theorem rollbackTo_always {t : ℕ} (hsafe : d.Safe r t) :
    (rollbackTo (some t)).always (act fmt) (d.Rolling fmt r)
      (fun err d' => err = none ∧ d.Rolls d' ∧ d'.Old fmt r ∧ d'.swapping = false ∧ d'.installed = false) d := by
  rw [rollbackTo]
  refine Prog.always_bind (rollbackItem_always hsafe.database rfl rfl rfl (by decide) (by decide)
    (fun e he hs => ⟨he, Or.inl hs⟩) fun e he hdb hgone hrest hs hi => ?_)
  have hsame : d.Same e := ⟨by simpa using hs, by simpa using hi⟩
  refine ⟨⟨he, Or.inl hsame⟩, ?_⟩
  have hconfig : e.files (.safetyConfig t) = some r.oldConfig := by
    rw [he.files _ rfl, hsafe.config]
  refine Prog.always_bind (rollbackItem_always hconfig rfl rfl rfl (by decide) (by simp)
    (fun e' he' hs' => ⟨he.trans he', Or.inl ⟨hs'.1.trans hsame.1, hs'.2.trans hsame.2⟩⟩)
    fun e' he' hcfg _ hrest' hs' hi' => ?_)
  have hold : e'.Old fmt r := by
    refine ⟨?_, hcfg⟩
    rw [Disk.content, hrest' .database (by decide) (by decide) (by simp), hrest' .wal (by decide) (by decide) (by simp), hdb,
      hgone .wal (by simp)]
  have hend : e'.Old fmt r ∧ e'.swapping = false ∧ e'.installed = false :=
    ⟨hold, by simpa using hs', by simpa using hi'⟩
  exact ⟨⟨he.trans he', Or.inr hend⟩, ⟨he.trans he', Or.inr hend⟩, rfl, he.trans he', hend⟩

/-! ### The starts -/

theorem Disk.Applied.rolling (h : d.Applied r) (hd : d.Rolling fmt r d') : d'.Applied r := by
  obtain ⟨hrolls, hhistory⟩ := hd
  obtain ⟨state, t, hstate, happlied, ht, hsafe⟩ := h.result
  refine ⟨⟨state, t, hrolls.result.trans hstate, happlied, ht, ?_⟩, ?_, ?_⟩
  · exact ⟨(hrolls.files _ rfl).trans hsafe.database, (hrolls.files _ rfl).trans hsafe.config⟩
  · exact (hrolls.files _ rfl).trans h.database
  · rcases hhistory with hsame | ⟨-, hs, -⟩
    · exact hsame.1.trans h.swapping
    · exact hs

/-- A start after the restore was applied puts the old pair back. -/
theorem prepareStartup_applied (h : d.Applied r) :
    (prepareStartup fmt).always (act fmt) (fun d' => d'.Applied r ∨ d'.Back fmt r) (fun _ d' => d'.Back fmt r) d := by
  obtain ⟨state, t, hstate, happlied, ht, hsafe⟩ := h.result
  simp only [prepareStartup, Prog.ask_bind, Prog.pure_eq]
  refine ⟨Or.inl h, ?_⟩
  rintro x _ _ ⟨⟩
  simp only [hstate, Option.filter_some, happlied, decide_true, if_true, ht]
  refine Prog.always_bind (Prog.always_mono (rollbackTo_always hsafe) (fun e he => Or.inl (h.rolling he)) ?_)
  rintro err e ⟨rfl, hrolls, hold, hs, hi⟩
  refine ⟨Or.inl (h.rolling ⟨hrolls, Or.inr ⟨hold, hs, hi⟩⟩), ?_⟩
  rintro x _ _ ⟨⟩
  have hback : Disk.Back fmt r { e with
      result := some { state with
        state := .rolledBack
        error := "Velora did not become ready with the restored backup; the previous data was restored." }
      swapping := false } :=
    ⟨⟨hold.content, hold.config⟩, by simp [Disk.NotApplied], (hrolls.files _ rfl).trans h.database, rfl, hi⟩
  exact ⟨Or.inr hback, hback⟩

/-- A start with nothing to do changes nothing. -/
theorem prepareStartup_idle (hresult : d.NotApplied) (hdatabase : d.files .pendingDatabase = none) :
    (prepareStartup fmt).always (act fmt) (fun d' => d' = d) (fun _ d' => d' = d) d := by
  simp only [prepareStartup, Prog.ask_bind, Prog.pure_eq]
  refine ⟨rfl, ?_⟩
  rintro x _ _ ⟨⟩
  rw [Disk.NotApplied] at hresult
  simp only [hresult]
  refine ⟨rfl, ?_⟩
  rintro x _ _ ⟨⟩
  simp only [hdatabase]
  exact ⟨rfl, rfl⟩

/-! A start with the restore pending. -/

/-- The files that a start changes before it takes the old ones away. -/
def Path.scratch : Path → Bool
  | .shm | .configStage | .databaseRollback | .configRollback => true
  | _ => false

theorem Disk.Waiting.set_scratch {path : Path} (h : d.Waiting fmt r) (hpath : path.scratch = true) (file : Option File) :
    (d.set path file).Waiting fmt r := by
  have hkeep : ∀ q : Path, q.scratch = false → (d.set path file).files q = d.files q := by
    intro q hq
    have hne : q ≠ path := by
      rintro rfl
      simp [hq] at hpath
    rw [Disk.set_files, if_neg hne]
  refine ⟨⟨?_, (hkeep _ rfl).trans h.old.config⟩, (hkeep _ rfl).trans h.database, (hkeep _ rfl).trans h.config, h.result,
    fun t ht => ?_, h.swapping, h.installed⟩
  · rw [Disk.content, hkeep _ rfl, hkeep _ rfl]
    exact h.old.content
  · rw [hkeep _ rfl, hkeep _ rfl]
    exact h.safety t ht

/-- A file of a safety copy is written. -/
theorem Disk.Waiting.set_safety {path : Path} {t : ℕ} (h : d.Waiting fmt r) (ht : t ∈ d.dirs)
    (hpath : path = .safetyDatabase t ∨ path = .safetyConfig t) (file : Option File) : (d.set path file).Waiting fmt r := by
  have hkeep : ∀ q : Path, q ≠ .safetyDatabase t → q ≠ .safetyConfig t → (d.set path file).files q = d.files q := by
    intro q hq hq'
    have hne : q ≠ path := by
      rintro rfl
      exact hpath.elim hq hq'
    rw [Disk.set_files, if_neg hne]
  refine ⟨⟨?_, (hkeep _ (by simp) (by simp)).trans h.old.config⟩, (hkeep _ (by simp) (by simp)).trans h.database,
    (hkeep _ (by simp) (by simp)).trans h.config, h.result, fun t' ht' => ?_, h.swapping, h.installed⟩
  · rw [Disk.content, hkeep _ (by simp) (by simp), hkeep _ (by simp) (by simp)]
    exact h.old.content
  · have hne : t' ≠ t := by
      rintro rfl
      exact ht' ht
    rw [hkeep _ (by simpa using hne) (by simp), hkeep _ (by simp) (by simpa using hne)]
    exact h.safety t' ht'

/-- The log is empty after a checkpoint. -/
theorem Disk.Waiting.checkpoint {x : Choice} {a : Option String} (h : d.Waiting fmt r)
    (hact : act fmt .checkpoint x d = some (a, d')) : d'.Waiting fmt r ∧ d'.dirs = d.dirs ∧
      (a = none → d'.files .database = some r.oldDatabase ∧ d'.files .wal = none) ∧
      (∀ path, path ≠ .database → path ≠ .wal → d'.files path = d.files path) := by
  have hcontent := h.old.content
  simp only [Disk.content] at hcontent
  simp only [act] at hact
  split at hact
  · cases hact
    exact ⟨h, rfl, by simp, fun _ _ _ => rfl⟩
  · rename_i db log _ hdb hlog
    cases hact
    simp only [hdb, hlog, Option.some.injEq] at hcontent
    rw [hcontent]
    refine ⟨⟨⟨?_, ?_⟩, ?_, ?_, h.result, fun t ht => ?_, h.swapping, h.installed⟩, rfl, fun _ => ?_, fun path h1 h2 => ?_⟩
    · simp [Disk.content, Disk.set_files]
    · simpa [Disk.set_files] using h.old.config
    · simpa [Disk.set_files] using h.database
    · simpa [Disk.set_files] using h.config
    · simpa [Disk.set_files] using h.safety t ht
    · simp [Disk.set_files]
    · simp [Disk.set_files, h1, h2]
  · rename_i hnone hno
    cases hact
    refine ⟨h, rfl, fun _ => ?_, fun _ _ _ => rfl⟩
    cases hdb : d.files .database with
    | none => simp [hdb] at hcontent
    | some db =>
      cases hlog : d.files .wal with
      | none =>
        simp only [hdb, hlog] at hcontent
        exact ⟨hcontent, rfl⟩
      | some log => exact (hno db log hdb hlog).elim

/-- The files are being swapped and there is a safety copy. -/
structure Disk.Swapped (r : Restore File) (d : Disk File) (t : ℕ) : Prop where
  safe : d.Safe r t
  database : d.files .pendingDatabase = none
  result : d.NotApplied
  swapping : d.swapping = true

/-- What a disk can be when a start with a pending restore is stopped. -/
def Disk.Stopped (fmt : Formats File Config) (r : Restore File) (d : Disk File) : Prop :=
  d.swapping = true ∨ d.Waiting fmt r ∨ d.Applied r ∨ d.Back fmt r

/-- What `swapIn` leaves: without an error the new pair, with an error the old one. -/
def Swaps (fmt : Formats File Config) (r : Restore File) (res : Option ℕ × Option String) (d : Disk File) : Prop :=
  (res.2 ≠ none ∧ (d.Waiting fmt r ∨ d.Back fmt r)) ∨
    ∃ t, res = (some t, none) ∧ d.Swapped r t ∧ d.New fmt r

/-- A swap that fails is rolled back. -/
theorem fail_always {t : ℕ} {cause : String} (h : d.Swapped r t) :
    (replaceFiles.fail t cause).always (act fmt) (Disk.Stopped fmt r) (Swaps fmt r) d := by
  have hback : ∀ e : Disk File, d.Rolls e → e.Old fmt r → e.swapping = false → e.installed = false → e.Back fmt r := by
    intro e hrolls hold hs hi
    have hresult : e.NotApplied := by
      rw [Disk.NotApplied, hrolls.result]
      exact h.result
    exact ⟨hold, hresult, (hrolls.files _ rfl).trans h.database, hs, hi⟩
  refine Prog.always_bind (Prog.always_mono (rollbackTo_always h.safe) ?_ ?_)
  · rintro e ⟨hrolls, hsame | ⟨hold, hs, hi⟩⟩
    · exact Or.inl (hsame.1.trans h.swapping)
    · exact Or.inr (Or.inr (Or.inr (hback e hrolls hold hs hi)))
  · rintro err e ⟨rfl, hrolls, hold, hs, hi⟩
    have he := hback e hrolls hold hs hi
    exact ⟨Or.inr (Or.inr (Or.inr he)), Or.inl ⟨by simp [joinErrors], Or.inr he⟩⟩

/-- The swap proper: the safety copy is there and the log is gone. -/
theorem renames_always {t : ℕ} {cfg : Config} (hcfg : fmt.load r.newConfig = .ok cfg) (h : d.Waiting fmt r)
    (hsafe : d.Safe r t) (hwal : d.files .wal = none) (hstage : d.files .configStage = some (fmt.save cfg)) :
    (Prog.call (.rename .pendingDatabase .database) (fun renamed : Option String => match renamed with
      | some e => replaceFiles.fail t e
      | none => Prog.call (.rename .configStage .config) (fun renamed : Option String => match renamed with
        | some e => replaceFiles.fail t e
        | none => Prog.call (.check cfg) (fun checked : Option String => match checked with
          | some e => replaceFiles.fail t e
          | none => Prog.done (some t, none)))) : Script File Config (Option ℕ × Option String)).always
      (act fmt) (Disk.Stopped fmt r) (Swaps fmt r) d := by
  refine ⟨Or.inr (Or.inl h), ?_⟩
  intro x₁ a₁ d₁ hact
  simp only [act, h.database, Option.some.injEq, Prod.mk.injEq] at hact
  obtain ⟨rfl, rfl⟩ := hact
  refine ⟨Or.inl rfl, ?_⟩
  intro x₂ a₂ d₂ hact
  simp only [act, Disk.set_files, reduceCtorEq, if_false, hstage, Option.some.injEq, Prod.mk.injEq] at hact
  obtain ⟨rfl, rfl⟩ := hact
  refine ⟨Or.inl rfl, ?_⟩
  intro x₃ a₃ d₃ hact
  simp only [act, Disk.set_files, reduceCtorEq, if_false, if_true, Option.some.injEq, Prod.mk.injEq] at hact
  obtain ⟨rfl, rfl⟩ := hact
  have hswapped : ∀ {e : Disk File}, (∀ path, path ≠ .database → e.files path =
        if path = .config then some (fmt.save cfg) else
        if path = .configStage ∨ path = .pendingDatabase then none else d.files path) →
      e.result = d.result → e.swapping = true →
      (e.files .database = some r.newDatabase ∨ e.files .database = some (fmt.migrate r.newDatabase)) →
      e.Swapped r t ∧ e.New fmt r := by
    intro e hfiles hresult hs hdb
    refine ⟨⟨⟨?_, ?_⟩, ?_, ?_, hs⟩, ?_, cfg, hcfg, ?_⟩
    · simpa [hfiles] using hsafe.database
    · simpa [hfiles] using hsafe.config
    · simp [hfiles]
    · rw [Disk.NotApplied, hresult]
      exact h.result
    · have hlog : e.files .wal = none := by simpa [hfiles] using hwal
      rcases hdb with hdb | hdb
      · exact Or.inl (by rw [Disk.content, hdb, hlog])
      · exact Or.inr (by rw [Disk.content, hdb, hlog])
    · simp [hfiles]
  have hafter : ∀ {e : Disk File}, e.Swapped r t ∧ e.New fmt r → (match x₃.check with
      | some err => replaceFiles.fail t err
      | none => (Prog.done (some t, none) : Script File Config (Option ℕ × Option String))).always
        (act fmt) (Disk.Stopped fmt r) (Swaps fmt r) e := by
    rintro e ⟨hs, hnew⟩
    split
    · exact fail_always hs
    · exact ⟨Or.inl hs.swapping, Or.inr ⟨t, rfl, hs, hnew⟩⟩
  refine hafter (hswapped (fun path hpath => ?_) ?_ ?_ ?_)
  · by_cases hlast : path = .configStage
    · subst hlast
      split <;> simp [Disk.set_files]
    · split <;> simp [Disk.set_files, hpath, hlast]
  · split <;> rfl
  · split <;> rfl
  · split <;> simp [Disk.set_files]

/-- A file that is there is copied. -/
theorem copyFound_always {C : Disk File → Prop} {Q : Option String → Disk File → Prop} {source target : Path} {file : File}
    (hsource : d.files source = some file) (htarget : d.files target = none) (hC : C d)
    (hQ : C (d.set target (some file)) ∧ Q none (d.set target (some file))) :
    (copyFound source target).always (act fmt) C Q d := by
  simp only [copyFound, Prog.ask_bind]
  refine ⟨hC, ?_⟩
  rintro x₁ _ _ ⟨⟩
  simp only [hsource, Option.isSome_some, if_true]
  refine ⟨hC, fun x₂ copied d₂ hact => ?_⟩
  obtain ⟨rfl, rfl⟩ := act_copy hsource htarget hact
  exact hQ

theorem replaceFiles_always {cfg : Config} (hcfg : fmt.load r.newConfig = .ok cfg) (h : d.Waiting fmt r) :
    (replaceFiles cfg).always (act fmt) (Disk.Stopped fmt r) (Swaps fmt r) d := by
  have hwait : ∀ {e : Disk File}, e.Waiting fmt r → Disk.Stopped fmt r e := fun he => Or.inr (Or.inl he)
  simp only [replaceFiles, Prog.ask_bind, Prog.pure_eq]
  -- the configuration is staged
  refine ⟨hwait h, ?_⟩
  rintro x₁ _ _ ⟨⟩
  have h₁ := @Disk.Waiting.set_scratch _ _ _ _ _ .configStage h rfl (some (fmt.save cfg))
  refine ⟨hwait h₁, ?_⟩
  rintro x₂ _ _ ⟨⟩
  have hfound : ((d.set .configStage (some (fmt.save cfg))).files .database).isSome = true := by
    have hcontent := h₁.old.content
    rw [Disk.content] at hcontent
    split at hcontent
    · rename_i db log hdb _
      rw [hdb, Option.isSome_some]
    · rw [hcontent, Option.isSome_some]
  dsimp only
  rw [if_pos hfound]
  refine ⟨hwait h₁, fun x₃ flushed d₃ hact => ?_⟩
  obtain ⟨h₃, hdirs, hflushed, hkeep⟩ := h₁.checkpoint hact
  cases flushed with
  | some e => exact ⟨hwait h₃, Or.inl ⟨by simp, Or.inl h₃⟩⟩
  | none =>
  obtain ⟨hdb, hwal⟩ := hflushed rfl
  have hstage : d₃.files .configStage = some (fmt.save cfg) := by
    rw [hkeep _ (by decide) (by decide), Disk.set_files, if_pos rfl]
  -- the safety copy
  refine ⟨hwait h₃, ?_⟩
  rintro x₄ _ _ ⟨⟩
  refine ⟨hwait h₃, fun x₅ made d₅ hact => ?_⟩
  simp only [act] at hact
  split at hact
  · cases hact
    exact ⟨hwait h₃, Or.inl ⟨by simp, Or.inl h₃⟩⟩
  rename_i hnew
  cases hact
  obtain ⟨hnodb, hnocfg⟩ := h₃.safety _ hnew
  have h₅ : Disk.Waiting fmt r { d₃ with dirs := x₄.now :: d₃.dirs } :=
    ⟨⟨h₃.old.content, h₃.old.config⟩, h₃.database, h₃.config, h₃.result, fun t ht => h₃.safety t fun hmem => ht (by simp [hmem]), h₃.swapping,
      h₃.installed⟩
  have h₇ := h₅.set_safety (t := x₄.now) (by simp) (Or.inl rfl) (some r.oldDatabase)
  have h₉ := h₇.set_safety (t := x₄.now) (by simp) (Or.inr rfl) (some r.oldConfig)
  refine Prog.always_bind (copyFound_always hdb hnodb (hwait h₅) ⟨hwait h₇, ?_⟩)
  refine Prog.always_bind (copyFound_always h₇.old.config (by simpa [Disk.set_files] using hnocfg) (hwait h₇)
    ⟨hwait h₉, ?_⟩)
  -- the log is empty
  refine ⟨hwait h₉, fun x₁₀ a₁₀ d₁₀ hact => ?_⟩
  rw [act_remove hact]
  have h₁₀ : (((Disk.set { d₃ with dirs := x₄.now :: d₃.dirs } (.safetyDatabase x₄.now) (some r.oldDatabase)).set
      (.safetyConfig x₄.now) (some r.oldConfig)).set .wal none).Waiting fmt r := by
    have hnolog : ((Disk.set { d₃ with dirs := x₄.now :: d₃.dirs } (.safetyDatabase x₄.now) (some r.oldDatabase)).set
        (.safetyConfig x₄.now) (some r.oldConfig)).files .wal = none := by simpa [Disk.set_files] using hwal
    rw [Disk.set, ← hnolog, Function.update_eq_self]
    exact h₉
  refine ⟨hwait h₁₀, fun x₁₁ a₁₁ d₁₁ hact => ?_⟩
  rw [act_remove hact]
  have h₁₁ := @Disk.Waiting.set_scratch _ _ _ _ _ .shm h₁₀ rfl none
  refine renames_always hcfg h₁₁ ⟨?_, ?_⟩ ?_ ?_
  · simp [Disk.set_files]
  · simp [Disk.set_files]
  · simp [Disk.set_files]
  · simpa [Disk.set_files] using hstage

theorem checkTargets_always {paths : List Path} (h : d.Waiting fmt r) :
    (checkTargets paths : Script File Config (Option String)).always (act fmt) (Disk.Waiting fmt r)
      (fun _ d' => d'.Waiting fmt r) d := by
  induction paths with
  | nil => exact ⟨h, h⟩
  | cons path paths ih =>
    simp only [checkTargets, Prog.ask_bind, Prog.pure_eq]
    refine ⟨h, ?_⟩
    rintro x _ _ ⟨⟩
    dsimp only
    split
    · exact ⟨h, h⟩
    · exact ⟨h, h⟩
    · exact ih

theorem swapIn_always {cfg : Config} (hcfg : fmt.load r.newConfig = .ok cfg) (h : d.Waiting fmt r) :
    (swapIn cfg).always (act fmt) (Disk.Stopped fmt r) (Swaps fmt r) d := by
  have hwait : ∀ {e : Disk File}, e.Waiting fmt r → Disk.Stopped fmt r e := fun he => Or.inr (Or.inl he)
  refine Prog.always_bind (Prog.always_mono (checkTargets_always h) (fun e he => hwait he) fun err d₁ h₁ => ?_)
  cases err with
  | some e => exact ⟨hwait h₁, Or.inl ⟨by simp, Or.inl h₁⟩⟩
  | none =>
  simp only [Prog.ask_bind, Prog.pure_eq]
  refine ⟨hwait h₁, ?_⟩
  rintro x₂ _ _ ⟨⟩
  dsimp only
  split
  · exact ⟨hwait h₁, Or.inl ⟨by simp, Or.inl h₁⟩⟩
  refine ⟨hwait h₁, fun x₃ a₃ d₃ hact => ?_⟩
  rw [act_remove hact]
  refine Prog.always_bind (Prog.always_mono (replaceFiles_always hcfg (h₁.set_scratch rfl none)) (fun e he => he) ?_)
  -- the staged configuration is removed in either case
  intro res e hres
  have hgone : Swaps fmt r res (e.set .configStage none) := by
    rcases hres with ⟨herr, he | he⟩ | ⟨t, rfl, he, hnew⟩
    · exact Or.inl ⟨herr, Or.inl (he.set_scratch rfl none)⟩
    · refine Or.inl ⟨herr, Or.inr ⟨⟨?_, ?_⟩, he.result, ?_, he.swapping, he.installed⟩⟩
      · simpa [Disk.content, Disk.set_files] using he.old.content
      · simpa [Disk.set_files] using he.old.config
      · simpa [Disk.set_files] using he.database
    · refine Or.inr ⟨t, rfl, ⟨⟨?_, ?_⟩, ?_, he.result, he.swapping⟩, ?_, ?_⟩
      · simpa [Disk.set_files] using he.safe.database
      · simpa [Disk.set_files] using he.safe.config
      · simpa [Disk.set_files] using he.database
      · simpa [Disk.content, Disk.set_files] using hnew.content
      · simpa [Disk.set_files] using hnew.config
  have hstopped : ∀ {e : Disk File}, Swaps fmt r res e → Disk.Stopped fmt r e := by
    rintro e (⟨-, he | he⟩ | ⟨t, rfl, he, hnew⟩)
    · exact hwait he
    · exact Or.inr (Or.inr (Or.inr he))
    · exact Or.inl he.swapping
  refine ⟨hstopped hres, fun x₄ a₄ d₄ hact => ?_⟩
  rw [act_remove hact]
  exact ⟨hstopped hgone, hgone⟩

/-- A start with the restore pending leaves the old pair, or the new one with a safety copy. -/
def Disk.Settled (fmt : Formats File Config) (r : Restore File) (d : Disk File) : Prop :=
  d.Back fmt r ∨ (d.Applied r ∧ d.New fmt r)

theorem applyPending_always (h : d.Waiting fmt r) :
    (applyPending fmt).always (act fmt) (Disk.Stopped fmt r)
      (fun _ d' => d'.Waiting fmt r ∨ d'.Settled fmt r) d := by
  have hwait : ∀ {e : Disk File}, e.Waiting fmt r → Disk.Stopped fmt r e := fun he => Or.inr (Or.inl he)
  have hresult : ∀ {e : Disk File} {res : RestoreState}, res.state = .rolledBack → e.Waiting fmt r ∨ e.Back fmt r →
      Disk.Waiting fmt r { e with result := some res, swapping := false } ∨
        Disk.Back fmt r { e with result := some res, swapping := false } := by
    rintro e res hres (he | he)
    · exact Or.inl ⟨⟨he.old.content, he.old.config⟩, he.database, he.config, by simp [Disk.NotApplied, hres], he.safety, rfl,
        he.installed⟩
    · exact Or.inr ⟨⟨he.old.content, he.old.config⟩, by simp [Disk.NotApplied, hres], he.database, rfl, he.installed⟩
  simp only [applyPending, Prog.ask_bind, Prog.pure_eq]
  refine ⟨hwait h, fun x₁ manifest d₁ hact => ?_⟩
  obtain rfl : d₁ = d := by
    simp only [act] at hact
    split at hact <;> (cases hact; rfl)
  refine ⟨hwait h, fun x₂ bytes d₂ hact => ?_⟩
  simp only [act, h.config, Option.some.injEq, Prod.mk.injEq] at hact
  obtain ⟨rfl, rfl⟩ := hact
  dsimp only
  split
  · exact ⟨hwait h, Or.inl h⟩
  rename_i cfg hcfg
  refine Prog.always_bind (Prog.always_mono (swapIn_always hcfg h) (fun e he => he) ?_)
  rintro ⟨safety, err⟩ e (⟨herr, he⟩ | ⟨t, hpair, he, hnew⟩)
  · obtain ⟨text, rfl⟩ := Option.ne_none_iff_exists'.1 herr
    refine ⟨he.elim hwait fun he => Or.inr (Or.inr (Or.inr he)), ?_⟩
    rintro x _ _ ⟨⟩
    have hend := @hresult e ⟨.rolledBack, (manifest.toOption.bind fmt.manifest).getD {}, safety,
      "The restore could not be applied: " ++ text⟩ rfl he
    exact ⟨hend.elim hwait fun he => Or.inr (Or.inr (Or.inr he)), hend.imp_right Or.inl⟩
  · cases hpair
    refine ⟨Or.inl he.swapping, ?_⟩
    rintro x _ _ ⟨⟩
    have happlied : Disk.Applied r { e with
        result := some { state := .applied, metadata := (manifest.toOption.bind fmt.manifest).getD {}, safetyCopy := some t }
        swapping := false } :=
      ⟨⟨_, t, rfl, rfl, rfl, he.safe.database, he.safe.config⟩, he.database, rfl⟩
    exact ⟨Or.inr (Or.inr (Or.inl happlied)), Or.inr (Or.inr ⟨happlied, hnew.content, hnew.config⟩)⟩

theorem prepareStartup_waiting (h : d.Waiting fmt r) :
    (prepareStartup fmt).always (act fmt) (Disk.Stopped fmt r) (fun _ d' => d'.Settled fmt r) d := by
  have hwait : ∀ {e : Disk File}, e.Waiting fmt r → Disk.Stopped fmt r e := fun he => Or.inr (Or.inl he)
  have hsettled : ∀ {e : Disk File}, e.Settled fmt r → Disk.Stopped fmt r e := by
    rintro e (he | he)
    · exact Or.inr (Or.inr (Or.inr he))
    · exact Or.inr (Or.inr (Or.inl he.1))
  simp only [prepareStartup, Prog.ask_bind, Prog.pure_eq]
  refine ⟨hwait h, ?_⟩
  rintro x₁ _ _ ⟨⟩
  have hresult := h.result
  rw [Disk.NotApplied] at hresult
  simp only [hresult]
  refine ⟨hwait h, ?_⟩
  rintro x₂ _ _ ⟨⟩
  simp only [h.database, Option.isSome_some, Bool.not_true, Bool.false_eq_true, if_false]
  refine Prog.always_bind (Prog.always_mono (applyPending_always h) (fun e he => he) ?_)
  -- the pending restore is removed in any case
  intro res e he
  refine ⟨he.elim hwait hsettled, ?_⟩
  rintro x₃ _ _ ⟨⟩
  have hend : Disk.Settled fmt r { e with files := fun path => if path.pending then none else e.files path } := by
    rcases he with he | he | ⟨he, hnew⟩
    · exact Or.inl ⟨⟨he.old.content, he.old.config⟩, he.result, rfl, he.swapping, he.installed⟩
    · exact Or.inl ⟨⟨he.old.content, he.old.config⟩, he.result, rfl, he.swapping, he.installed⟩
    · obtain ⟨state, t, hstate, happlied, ht, hsafe⟩ := he.result
      exact Or.inr ⟨⟨⟨state, t, hstate, happlied, ht, hsafe.database, hsafe.config⟩, rfl, he.swapping⟩,
        hnew.content, hnew.config⟩
  exact ⟨hsettled hend, hend⟩

/-! ### Every run -/

/-- A disk when no process runs. -/
def Disk.Off (fmt : Formats File Config) (r : Restore File) (fresh due : Bool) (d : Disk File) : Prop :=
  (d.Waiting fmt r ∧ due = false) ∨ d.Applied r ∨ d.Back fmt r ∨ (d.Idle ∧ fresh = false ∧ due = false)

/-- A disk when `PrepareStartup` has returned. -/
def Disk.Up (fmt : Formats File Config) (r : Restore File) (fresh due served : Bool) (d : Disk File) : Prop :=
  (d.Applied r ∨ d.Idle) ∧ (d.Applied r → due = false) ∧
    (served = false → (fresh = true → d.Old fmt r ∨ d.New fmt r) ∧ (due = true → d.Old fmt r))

theorem Disk.Back.idle (h : d.Back fmt r) : d.Idle :=
  ⟨h.result, h.database, h.swapping, fun hi => by rw [h.installed] at hi; cases hi⟩

theorem Disk.Idle.not_applied (h : d.Idle) : ¬ d.Applied r := by
  intro ha
  obtain ⟨state, t, hstate, happlied, -⟩ := ha.result
  have hresult := h.result
  simp [Disk.NotApplied, hstate, happlied] at hresult

/-- A start, from any disk. -/
theorem prepareStartup_always {fresh due : Bool} (h : d.Off fmt r fresh due) :
    (prepareStartup fmt).always (act fmt) (fun d' => d'.swapping = true ∨ d'.Off fmt r fresh due)
      (fun _ d' => d'.Up fmt r fresh due false) d := by
  have hback : ∀ {e : Disk File}, e.Back fmt r → e.Up fmt r fresh due false := fun he =>
    ⟨Or.inr he.idle, fun ha => absurd ha he.idle.not_applied, fun _ => ⟨fun _ => Or.inl he.old, fun _ => he.old⟩⟩
  rcases h with ⟨h, hdue⟩ | h | h | ⟨h, hfresh, hdue⟩
  · refine Prog.always_mono (prepareStartup_waiting h) ?_ ?_
    · rintro e (he | he | he | he)
      · exact Or.inl he
      · exact Or.inr (Or.inl ⟨he, hdue⟩)
      · exact Or.inr (Or.inr (Or.inl he))
      · exact Or.inr (Or.inr (Or.inr (Or.inl he)))
    · rintro _ e (he | ⟨he, hnew⟩)
      · exact hback he
      · exact ⟨Or.inl he, fun _ => hdue, fun _ => ⟨fun _ => Or.inr hnew, fun h => by rw [hdue] at h; cases h⟩⟩
  · refine Prog.always_mono (prepareStartup_applied h) ?_ fun _ e he => hback he
    rintro e (he | he)
    · exact Or.inr (Or.inr (Or.inl he))
    · exact Or.inr (Or.inr (Or.inr (Or.inl he)))
  · refine Prog.always_mono (prepareStartup_idle h.result h.database) ?_ ?_
    · rintro e rfl
      exact Or.inr (Or.inr (Or.inr (Or.inl h)))
    · rintro _ e rfl
      exact hback h
  · refine Prog.always_mono (prepareStartup_idle h.result h.database) ?_ ?_
    · rintro e rfl
      exact Or.inr (Or.inr (Or.inr (Or.inr ⟨h, hfresh, hdue⟩)))
    · rintro _ e rfl
      refine ⟨Or.inr h, fun _ => hdue, fun _ => ⟨fun hf => ?_, fun hd => ?_⟩⟩
      · rw [hfresh] at hf
        cases hf
      · rw [hdue] at hd
        cases hd

/-- What holds in every run. -/
def Host.Inv (fmt : Formats File Config) (r : Restore File) (w : Host File Config) : Prop :=
  match w.process with
  | .off => w.disk.Off fmt r w.fresh w.due
  | .starting p => w.served = false ∧ p.always (act fmt) (fun d => d.swapping = true ∨ d.Off fmt r w.fresh w.due)
      (fun _ d => d.Up fmt r w.fresh w.due false) w.disk
  | .up _ => w.disk.Up fmt r w.fresh w.due w.served

/-- A server changes the files in use only. -/
theorem Disk.Up.serve {fresh due served : Bool} (h : d.Up fmt r fresh due served) (files : Path → Option File) :
    Disk.Up fmt r fresh due true { d with files := fun path => if path.live then files path else d.files path } := by
  obtain ⟨hphase, hdue, -⟩ := h
  have happlied : Disk.Applied r { d with files := fun path => if path.live then files path else d.files path } →
      d.Applied r := by
    intro ha
    obtain ⟨state, t, hstate, happlied, ht, hsafe⟩ := ha.result
    exact ⟨⟨state, t, hstate, happlied, ht, hsafe.database, hsafe.config⟩, ha.database, ha.swapping⟩
  refine ⟨?_, fun ha => hdue (happlied ha), by simp⟩
  rcases hphase with ha | hi
  · obtain ⟨state, t, hstate, hphase, ht, hsafe⟩ := ha.result
    exact Or.inl ⟨⟨state, t, hstate, hphase, ht, hsafe.database, hsafe.config⟩, ha.database, ha.swapping⟩
  · exact Or.inr ⟨hi.result, hi.database, hi.swapping, hi.installed⟩

/-- A restore that is confirmed is over. -/
theorem Disk.Up.confirm {fresh due served : Bool} {a : Option String} (h : d.Up fmt r fresh due served)
    (hd' : (confirmStartup : Script File Config (Option String)).exec (act fmt) {} d = some (a, d')) :
    d'.Up fmt r fresh due served := by
  obtain ⟨hphase, hdue, hpair⟩ := h
  simp only [confirmStartup, Prog.ask_bind, Prog.pure_eq, Prog.exec_call, act, Option.bind_some] at hd'
  rcases hphase with ha | hi
  · obtain ⟨state, t, hstate, happlied, -⟩ := ha.result
    simp only [hstate, Option.filter_some, happlied, decide_true, if_true, Prog.ask, Prog.exec_call, act, Option.bind_some,
      Prog.exec_done, Option.some.injEq, Prod.mk.injEq] at hd'
    obtain ⟨-, rfl⟩ := hd'
    have hidle : Disk.Idle { d with result := some { state with state := .completed }, swapping := false } :=
      ⟨by simp [Disk.NotApplied], ha.database, rfl, fun _ => by simp [Disk.confirmed]⟩
    refine ⟨Or.inr hidle, fun ha => absurd ha hidle.not_applied, fun hs => ⟨fun hf => ?_, fun hd => ?_⟩⟩
    · rcases (hpair hs).1 hf with hold | hnew
      · exact Or.inl ⟨hold.content, hold.config⟩
      · exact Or.inr ⟨hnew.content, hnew.config⟩
    · rw [hdue ha] at hd
      cases hd
  · have hresult := hi.result
    rw [Disk.NotApplied] at hresult
    simp only [hresult, Prog.exec_done, Option.some.injEq, Prod.mk.injEq] at hd'
    obtain ⟨-, rfl⟩ := hd'
    exact ⟨Or.inr hi, hdue, hpair⟩

/-- What a step that meets the condition keeps. -/
theorem step_inv {w w' : Host File Config} {e : Event File} (hok : settled w e = true) (h : w.Inv fmt r)
    (hstep : w.step fmt e = some w') : w'.Inv fmt r := by
  cases e with
  | start =>
    simp only [Host.step] at hstep
    split at hstep
    · rename_i hp
      cases hstep
      simp only [Host.Inv, hp] at h
      exact ⟨rfl, prepareStartup_always h⟩
    · cases hstep
  | turn x =>
    simp only [Host.step] at hstep
    split at hstep
    · rename_i op k hp
      obtain ⟨⟨a, d⟩, hact, rfl⟩ := Option.map_eq_some_iff.1 hstep
      simp only [Host.Inv, hp] at h
      exact ⟨h.1, h.2.2 x a d hact⟩
    · cases hstep
  | up =>
    simp only [Host.step] at hstep
    split at hstep
    · rename_i res hp
      cases hstep
      simp only [Host.Inv, hp] at h
      obtain ⟨hserved, -, hup⟩ := h
      simp only [Host.Inv, hserved]
      exact hup
    · cases hstep
  | serve files =>
    simp only [Host.step] at hstep
    split at hstep
    · rename_i res hp
      cases hstep
      simp only [Host.Inv, hp] at h ⊢
      exact h.serve files
    · cases hstep
  | confirm =>
    simp only [Host.step] at hstep
    split at hstep
    · rename_i res hp
      obtain ⟨⟨a, d⟩, hexec, rfl⟩ := Option.map_eq_some_iff.1 hstep
      simp only [Host.Inv, hp] at h ⊢
      exact h.confirm hexec
    · cases hstep
  | stop =>
    have hidle : ∀ {d : Disk File}, d.Idle → (d.installed && !d.confirmed) = false := by
      intro d hi
      cases hin : d.installed with
      | false => rfl
      | true => simp [hi.installed hin]
    simp only [Host.step] at hstep
    split at hstep
    · cases hstep
    · rename_i p hp
      cases hstep
      simp only [Host.Inv, hp] at h ⊢
      have hsettled : w.disk.swapping = false := by simpa [settled] using hok
      rcases Prog.always_now h.2 with hs | ⟨hw, hdue⟩ | ha | hb | ⟨hi, hfresh, hdue⟩
      · rw [hsettled] at hs
        cases hs
      · exact Or.inl ⟨hw, by simp [hdue, hw.installed]⟩
      · exact Or.inr (Or.inl ha)
      · exact Or.inr (Or.inr (Or.inl hb))
      · exact Or.inr (Or.inr (Or.inr ⟨hi, hfresh, by simp [hdue, hidle hi]⟩))
    · rename_i res hp
      cases hstep
      simp only [Host.Inv, hp] at h ⊢
      rcases h.1 with ha | hi
      · exact Or.inr (Or.inl ha)
      · exact Or.inr (Or.inr (Or.inr ⟨hi, rfl, hidle hi⟩))

end

/-- **Online restore is crash-safe** when no process is stopped while it swaps the files. From every disk with an old pair and
a pending restore of a new one, in every run of starts that are stopped at any other step: where `PrepareStartup` has returned
and the server has not written yet, the files are both old or both new if it is the first to return, and both old if
an earlier process was stopped with the new pair and before it was confirmed. -/
theorem restore_crash_safe (fmt : Formats File Config) (r : Restore File) (d : Disk File) (hd : d.Waiting fmt r)
    (es : List (Event File)) (w : Host File Config)
    (hok : Meets (Host.step fmt) (fun w e => settled w e = true) { disk := d } es)
    (hrun : run (Host.step fmt) { disk := d } es = some w) :
    ∀ res, w.process = .up res → w.served = false →
      (w.fresh = true → w.disk.Old fmt r ∨ w.disk.New fmt r) ∧ (w.due = true → w.disk.Old fmt r) := by
  have hstart : Host.Inv fmt r { disk := d } := Or.inl ⟨hd, rfl⟩
  have hinv := run_invariant (P := Host.Inv fmt r) (fun w e w' hok h hs => step_inv hok h hs) hok hrun hstart
  intro res hp hserved
  simp only [Host.Inv, hp] at hinv
  exact hinv.2.2 hserved

/-! ### Swaps that are stopped -/

namespace Sample

/-- Files are numbers: the old pair is 1 and 2, the new one 3 and 4. -/
def fmt : Formats ℕ ℕ where
  save := id
  load := .ok
  replay := fun db log => db + log
  migrate := id
  manifest := fun _ => none

def files : Path → Option ℕ
  | .database => some 1
  | .config => some 2
  | .pendingDatabase => some 3
  | .pendingConfig => some 4
  | _ => none

def restore : Restore ℕ := ⟨1, 2, 3, 4⟩

def disk : Disk ℕ := { files := files, result := some { state := .pending } }

theorem waiting : disk.Waiting fmt restore :=
  ⟨⟨rfl, rfl⟩, rfl, rfl, rfl, fun _ _ => ⟨rfl, rfl⟩, rfl, rfl⟩

/-- A process that takes `n` steps of `PrepareStartup`. -/
def starts (n : ℕ) : List (Event ℕ) := .start :: List.replicate n (.turn {})

def after (es : List (Event ℕ)) : Option (Host ℕ ℕ) := run (Host.step fmt) { disk := disk } es

/-- What is compared. -/
structure Outcome where
  up : Bool
  fresh : Bool
  due : Bool
  served : Bool
  database : Option ℕ
  wal : Option ℕ
  config : Option ℕ
  deriving DecidableEq

def outcome (w : Host ℕ ℕ) : Outcome where
  up := match w.process with
    | .up _ => true
    | _ => false
  fresh := w.fresh
  due := w.due
  served := w.served
  database := w.disk.files .database
  wal := w.disk.files .wal
  config := w.disk.files .config

theorem outcome_up {w : Host ℕ ℕ} (h : (outcome w).up = true) : ∃ res, w.process = .up res := by
  cases hp : w.process with
  | up res => exact ⟨res, rfl⟩
  | _ => simp [outcome, hp] at h

end Sample

open Sample in
/-- The new pair is applied, the process is stopped before it is confirmed, and the next start leaves the old pair. -/
theorem restore_crash_safe_unconfirmed :
    ∃ w, after (starts 25 ++ .up :: .stop :: starts 12 ++ [.up]) = some w ∧ w.due = true ∧ w.disk.Old fmt restore := by
  have hok : checks (Host.step fmt) settled { disk := disk } (starts 25 ++ .up :: .stop :: starts 12 ++ [.up]) = true := by
    decide +kernel
  have hend : (after (starts 25 ++ .up :: .stop :: starts 12 ++ [.up])).map outcome =
      some ⟨true, false, true, false, some 1, none, some 2⟩ := by decide +kernel
  obtain ⟨w, hw, hout⟩ := Option.map_eq_some_iff.1 hend
  obtain ⟨res, hp⟩ := outcome_up (by rw [hout])
  simp only [outcome, Outcome.mk.injEq] at hout
  obtain ⟨-, -, hdue, hserved, -⟩ := hout
  exact ⟨w, hw, hdue, (restore_crash_safe fmt restore disk waiting _ w (meets_of_checks hok) hw res hp hserved).2 hdue⟩

open Sample in
/-- A process that is stopped after the staged database was renamed leaves the new database with the old configuration, and
the next start, which is the first to get through, keeps them; one that is stopped before the restore is recorded leaves the new
pair and the next start does not take it back. -/
theorem restore_torn :
    (∃ w res, after (starts 20 ++ .stop :: starts 2 ++ [.up]) = some w ∧ w.process = .up res ∧ w.served = false ∧
      w.fresh = true ∧ w.disk.files .database = some 3 ∧ w.disk.files .config = some 2 ∧
      ¬ (w.disk.Old fmt restore ∨ w.disk.New fmt restore)) ∧
    ∃ w res, after (starts 21 ++ .stop :: starts 2 ++ [.up]) = some w ∧ w.process = .up res ∧ w.served = false ∧
      w.due = true ∧ ¬ w.disk.Old fmt restore := by
  have hfirst : (after (starts 20 ++ .stop :: starts 2 ++ [.up])).map outcome =
      some ⟨true, true, false, false, some 3, none, some 2⟩ := by decide +kernel
  have hsecond : (after (starts 21 ++ .stop :: starts 2 ++ [.up])).map outcome =
      some ⟨true, true, true, false, some 3, none, some 4⟩ := by decide +kernel
  refine ⟨?_, ?_⟩
  · obtain ⟨w, hw, hout⟩ := Option.map_eq_some_iff.1 hfirst
    obtain ⟨res, hp⟩ := outcome_up (by rw [hout])
    simp only [outcome, Outcome.mk.injEq] at hout
    obtain ⟨-, hfresh, -, hserved, hdb, hwal, hcfg⟩ := hout
    refine ⟨w, res, hw, hp, hserved, hfresh, hdb, hcfg, ?_⟩
    rintro (hold | hnew)
    · have hcontent := hold.content
      simp [Disk.content, hdb, hwal, restore] at hcontent
    · obtain ⟨cfg, hload, hsaved⟩ := hnew.config
      simp only [fmt, restore, Except.ok.injEq] at hload
      simp [hcfg, ← hload, fmt] at hsaved
  · obtain ⟨w, hw, hout⟩ := Option.map_eq_some_iff.1 hsecond
    obtain ⟨res, hp⟩ := outcome_up (by rw [hout])
    simp only [outcome, Outcome.mk.injEq] at hout
    obtain ⟨-, -, hdue, hserved, hdb, hwal, -⟩ := hout
    refine ⟨w, res, hw, hp, hserved, hdue, fun hold => ?_⟩
    have hcontent := hold.content
    simp [Disk.content, hdb, hwal, restore] at hcontent

end Velora.Backup
