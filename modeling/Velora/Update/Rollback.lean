import Velora.Update.Execute

/-!
# Rollback of a failed update

What `executeUpdate` leaves of the installation when one of its steps fails. `backupCurrent` keeps three artefacts and
`restoreBackup` puts back what was kept: an artefact that was not there before stays when it was written, so does the service unit,
and nothing is put back when the backup itself fails. `update_rolls_back_iff` says exactly when the installation is the one
before.
-/

namespace Velora.Update

open Velora.Lib

variable {File : Type}

/-! ### When an update is undone -/

/-- The members of a bundle that are installed before a member. -/
def Artefact.earlier : Artefact → List Artefact
  | .binary => []
  | .version => [.binary]
  | .web => [.binary, .version]
  | .unit => [.binary, .version, .web]

section

variable (x : Choice File) (before : Artefact → Option File) (bundle : Bundle File)

/-- The artefact is there and cannot be renamed. -/
def Choice.refuses (a : Artefact) : Prop := before a ≠ none ∧ x.backup a ≠ none

/-- What the copy of a member leaves in its place, if it touches it. -/
def Choice.lands (a : Artefact) : Option File :=
  match bundle a, x.install a with
  | none, _ => none
  | some content, none => some content
  | some _, some (_, left) => left

/-- The member is not there or it is copied. -/
def Choice.passes (a : Artefact) : Prop := (bundle a).isSome = true → x.install a = none

instance (a : Artefact) : Decidable (x.passes bundle a) :=
  decidable_of_iff ((bundle a).isSome = false ∨ (x.install a).isNone = true) (by
    rw [Choice.passes, Option.isNone_iff_eq_none]
    cases (bundle a).isSome <;> simp)

/-- What `installRelease` writes in the place of an artefact, if it gets to it. -/
def Choice.written (a : Artefact) : Option File :=
  if (∀ c ∈ a.earlier, x.passes bundle c) ∧ (a ≠ .binary → (bundle .version).isSome = true) then x.lands bundle a else none

/-- All members of the bundle are installed. -/
def Choice.installs : Prop :=
  (bundle .version).isSome = true ∧ ∀ a, x.passes bundle a

/-- Every artefact that was written was there before, and the service unit is what it was. -/
def Choice.Covered : Prop :=
  (∀ a, a ≠ .unit → before a = none → x.written bundle a = none) ∧
    ∀ file, x.written bundle .unit = some file → before .unit = some file

/-- An update with this bundle is undone when it fails: nothing had been moved when the backup fails, and what was written is
covered when a later step fails. -/
structure Choice.Undone : Prop where
  binary : ¬ x.refuses before .version → x.refuses before .binary → before .version = none
  web : ¬ x.refuses before .version → ¬ x.refuses before .binary → x.refuses before .web →
    before .version = none ∧ before .binary = none
  later : (∀ a, a ≠ .unit → ¬ x.refuses before a) → ¬ (x.installs bundle ∧ x.restart 0 = none ∧ x.ready 0 = true) →
    x.Covered before bundle

end

/-- The artefacts in their places. -/
def World.live (w : World File) (a : Artefact) : Option File := w.files (.live a)

/-- What the attempt that was over last is recorded as. -/
def World.recorded (w : World File) : Option State := w.manager.history.getLast?.map Entry.state

/-! ### Backup -/

section

variable {x : Choice File} {w : World File}

theorem set_prev_live {a : Artefact} : (w.set (.prev a) none).files (.live a) = w.live a := by
  simp [World.set, World.live]

/-- Whether a backup is refused depends on its artefact alone. -/
theorem refuses_congr {before before' : Artefact → Option File} {a : Artefact} (h : before a = before' a) :
    x.refuses before a ↔ x.refuses before' a := by
  rw [Choice.refuses, Choice.refuses, h]

/-- What the backup of an artefact does: it is moved, or it is left and there is an error. -/
structure Moves (x : Choice File) (w : World File) (a : Artefact) (err : Option String) (F : Path → Option File) : Prop where
  others : ∀ p, p ≠ .live a → p ≠ .prev a → F p = w.files p
  moved : ¬ x.refuses w.live a → err = none ∧ F (.live a) = none ∧ F (.prev a) = w.live a
  left : x.refuses w.live a → err ≠ none ∧ F (.live a) = w.live a

section

variable {a b : Artefact} {err : Option String} {F : Path → Option File} (h : Moves x w a err F)

include h

/-- The other artefacts stay in their places. -/
theorem Moves.live (hb : b ≠ a) : F (.live b) = w.live b := h.others _ (by simpa using hb) (by simp)

theorem Moves.prev (hb : b ≠ a) : F (.prev b) = w.files (.prev b) := h.others _ (by simp) (by simpa using hb)

/-- All artefacts do when this one is not moved. -/
theorem Moves.stay (hrefuses : x.refuses w.live a) (b : Artefact) : F (.live b) = w.live b := by
  by_cases hb : b = a
  · rw [hb]
    exact (h.left hrefuses).2
  · exact h.live hb

end

/-- There is nothing to move. -/
theorem Moves.absent {a : Artefact} (h : w.live a = none) : Moves x w a none (w.set (.prev a) none).files where
  others _ _ hp := Function.update_of_ne hp _ _
  moved _ := by
    refine ⟨rfl, ?_, ?_⟩
    · rw [set_prev_live, h]
    · simp [World.set, h]
  left hrefuses := absurd h hrefuses.1

/-- The rename fails. -/
theorem Moves.stays {a : Artefact} {file : File} {e err : String} (h : w.live a = some file) (hx : x.backup a = some e) :
    Moves x w a (some err) (w.set (.prev a) none).files where
  others _ _ hp := Function.update_of_ne hp _ _
  moved hmoved := absurd ⟨by simp [h], by simp [hx]⟩ hmoved
  left _ := ⟨by simp, set_prev_live⟩

/-- The rename. -/
theorem Moves.renamed {a : Artefact} {file : File} (h : w.live a = some file) (hx : x.backup a = none) :
    Moves x w a none (((w.set (.prev a) none).set (.prev a) (some file)).set (.live a) none).files where
  others p hp hp' := by simp [World.set, hp, hp']
  moved _ := by
    refine ⟨rfl, ?_, ?_⟩
    · simp [World.set]
    · simp [World.set, h]
  left hrefuses := absurd hx hrefuses.2

theorem exec_backupFile (a : Artefact) :
    ∃ err F, (backupFile a).exec act x w = some (err, { w with files := F }) ∧ Moves x w a err F := by
  simp only [backupFile, Prog.ask_bind, Prog.pure_eq, Prog.exec_call, act, Option.bind_some]
  rw [set_prev_live]
  cases hlive : w.live a with
  | none => exact ⟨none, _, rfl, .absent hlive⟩
  | some file =>
    cases hx : x.backup a with
    | some e => exact ⟨some ("backup " ++ a.text ++ ": " ++ e), _, rfl, .stays hlive hx⟩
    | none => exact ⟨none, _, rfl, .renamed hlive hx⟩

theorem exec_backupWeb :
    ∃ err F, backupWeb.exec act x w = some (err, { w with files := F }) ∧ Moves x w .web err F := by
  simp only [backupWeb, Prog.ask_bind, Prog.pure_eq, Prog.exec_call, act, Option.bind_some]
  rw [set_prev_live]
  cases hlive : w.live .web with
  | none => exact ⟨none, _, rfl, .absent hlive⟩
  | some file =>
    simp only [Option.isSome_some, Bool.not_true, Bool.false_eq_true, if_false, Prog.exec_call, act, set_prev_live, hlive]
    cases hx : x.backup .web with
    | some e => exact ⟨some ("backup web dir: " ++ e), _, rfl, .stays hlive hx⟩
    | none => exact ⟨none, _, rfl, .renamed hlive hx⟩

/-- `backupCurrent`: without an error all three are moved; with an error those before the one that could not be moved. -/
theorem exec_backupCurrent :
    ∃ err F, backupCurrent.exec act x w = some (err, { w with files := F }) ∧
      F (.live .unit) = w.live .unit ∧
      ((∀ a, a ≠ .unit → ¬ x.refuses w.live a) → err = none ∧ ∀ a, a ≠ .unit →
        F (.live a) = none ∧ F (.prev a) = w.live a) ∧
      (¬ (∀ a, a ≠ .unit → ¬ x.refuses w.live a) → err ≠ none ∧
        ((∀ a, F (.live a) = w.live a) ↔
          (¬ x.refuses w.live .version → x.refuses w.live .binary → w.live .version = none) ∧
          (¬ x.refuses w.live .version → ¬ x.refuses w.live .binary → x.refuses w.live .web →
            w.live .version = none ∧ w.live .binary = none))) := by
  obtain ⟨err₁, F₁, hexec₁, h₁⟩ := exec_backupFile (x := x) (w := w) .version
  simp only [backupCurrent, Prog.exec_bind, hexec₁, Option.bind_some, Prog.pure_eq]
  by_cases hversion : x.refuses w.live .version
  · obtain ⟨e, rfl⟩ := Option.ne_none_iff_exists'.1 (h₁.left hversion).1
    have hall := h₁.stay hversion
    refine ⟨some e, F₁, rfl, hall .unit, fun h => absurd hversion (h .version (by simp)), fun _ => ⟨by simp, ?_⟩⟩
    simp [hall, hversion]
  · obtain ⟨rfl, hlive₁, hprev₁⟩ := h₁.moved hversion
    obtain ⟨err₂, F₂, hexec₂, h₂⟩ := exec_backupFile (x := x) (w := { w with files := F₁ }) .binary
    simp only [Prog.exec_bind, hexec₂, Option.bind_some]
    have hsame₂ : x.refuses (World.live { w with files := F₁ }) .binary ↔ x.refuses w.live .binary :=
      refuses_congr (h₁.live (by simp))
    by_cases hbinary : x.refuses w.live .binary
    · obtain ⟨e, rfl⟩ := Option.ne_none_iff_exists'.1 (h₂.left (hsame₂.2 hbinary)).1
      have hall := h₂.stay (hsame₂.2 hbinary)
      have hothers : ∀ a, a ≠ .version → F₂ (.live a) = w.live a := fun a ha => (hall a).trans (h₁.live ha)
      have hgone : F₂ (.live .version) = none := (hall .version).trans hlive₁
      refine ⟨some e, F₂, rfl, hothers .unit (by simp), fun h => absurd hbinary (h .binary (by simp)), fun _ => ⟨by simp, ?_⟩⟩
      constructor
      · intro h
        exact ⟨fun _ _ => (h .version).symm.trans hgone, fun _ hno => absurd hbinary hno⟩
      · rintro ⟨h, -⟩ a
        by_cases ha : a = .version
        · rw [ha, hgone, h hversion hbinary]
        · exact hothers a ha
    · obtain ⟨rfl, hlive₂, hprev₂⟩ := h₂.moved (mt hsame₂.1 hbinary)
      obtain ⟨err₃, F₃, hexec₃, h₃⟩ := exec_backupWeb (x := x) (w := { w with files := F₂ })
      have hbefore : ∀ a, a ≠ .version → a ≠ .binary → F₂ (.live a) = w.live a :=
        fun a ha ha' => (h₂.live ha').trans (h₁.live ha)
      have hsame₃ : x.refuses (World.live { w with files := F₂ }) .web ↔ x.refuses w.live .web :=
        refuses_congr (hbefore .web (by simp) (by simp))
      have hversion₃ : F₃ (.live .version) = none ∧ F₃ (.prev .version) = w.live .version :=
        ⟨(h₃.live (by simp)).trans ((h₂.live (by simp)).trans hlive₁),
          (h₃.prev (by simp)).trans ((h₂.prev (by simp)).trans hprev₁)⟩
      have hbinary₃ : F₃ (.live .binary) = none ∧ F₃ (.prev .binary) = w.live .binary :=
        ⟨(h₃.live (by simp)).trans hlive₂, (h₃.prev (by simp)).trans (hprev₂.trans (h₁.live (by simp)))⟩
      have hunit : F₃ (.live .unit) = w.live .unit := (h₃.live (by simp)).trans (hbefore .unit (by simp) (by simp))
      refine ⟨err₃, F₃, hexec₃, hunit, fun h => ?_, fun h => ?_⟩
      · obtain ⟨rfl, hlive₃, hprev₃⟩ := h₃.moved (mt hsame₃.1 (h .web (by simp)))
        refine ⟨rfl, fun a ha => ?_⟩
        cases a with
        | binary => exact hbinary₃
        | version => exact hversion₃
        | web => exact ⟨hlive₃, hprev₃.trans (hbefore _ (by simp) (by simp))⟩
        | unit => exact absurd rfl ha
      · have hweb : x.refuses w.live .web := by
          by_contra hweb
          refine h fun a ha => ?_
          cases a with
          | binary => exact hbinary
          | version => exact hversion
          | web => exact hweb
          | unit => exact absurd rfl ha
        obtain ⟨herr, hlive₃⟩ := h₃.left (hsame₃.2 hweb)
        refine ⟨herr, fun hall => ⟨fun _ hno => absurd hno hbinary, fun _ _ _ => ?_⟩, fun hall a => ?_⟩
        · exact ⟨(hall .version).symm.trans hversion₃.1, (hall .binary).symm.trans hbinary₃.1⟩
        · obtain ⟨hv, hb⟩ := hall.2 hversion hbinary hweb
          cases a with
          | binary => rw [hbinary₃.1, hb]
          | version => rw [hversion₃.1, hv]
          | web => exact hlive₃.trans (hbefore _ (by simp) (by simp))
          | unit => exact hunit

/-! ### Installation -/

theorem exec_installMember (bundle : Bundle File) (a : Artefact) (what : String) :
    ∃ err F, (installMember bundle a what).exec act x w = some (err, { w with files := F }) ∧
      (∀ p, p ≠ .live a → F p = w.files p) ∧ F (.live a) = (x.lands bundle a).or (w.live a) ∧
      (err = none ↔ x.passes bundle a) := by
  rw [installMember]
  cases hb : bundle a with
  | none => exact ⟨none, w.files, rfl, fun _ _ => rfl, by simp [Choice.lands, hb, World.live], by simp [Choice.passes, hb]⟩
  | some content =>
    simp only [Prog.ask_bind, Prog.pure_eq, Prog.exec_call, act]
    cases hx : x.install a with
    | none =>
      refine ⟨none, (w.set (.live a) (some content)).files, rfl, fun p hp => Function.update_of_ne hp _ _, ?_, ?_⟩
      · simp [World.set, Choice.lands, hb, hx]
      · simp [Choice.passes, hx]
    | some failed =>
      obtain ⟨e, left⟩ := failed
      cases left with
      | none =>
        refine ⟨some _, w.files, rfl, fun _ _ => rfl, ?_, ?_⟩
        · simp [Choice.lands, hb, hx, World.live]
        · simp [Choice.passes, hb, hx]
      | some left =>
        refine ⟨some _, (w.set (.live a) (some left)).files, rfl, fun p hp => Function.update_of_ne hp _ _, ?_, ?_⟩
        · simp [World.set, Choice.lands, hb, hx]
        · simp [Choice.passes, hb, hx]

/-- `installRelease` writes what it gets to. -/
theorem exec_installRelease (bundle : Bundle File) :
    ∃ err F, (installRelease bundle).exec act x w = some (err, { w with files := F }) ∧
      (∀ a, F (.prev a) = w.files (.prev a)) ∧ (∀ a, F (.live a) = (x.written bundle a).or (w.live a)) ∧
      (err = none ↔ x.installs bundle) := by
  -- an error at a member: what comes after it is not written
  have hstop : ∀ a : Artefact, ¬ x.passes bundle a → ¬ x.installs bundle := fun a ha h => ha (h.2 a)
  obtain ⟨err₁, F₁, hexec₁, hothers₁, hlive₁, herr₁⟩ := exec_installMember (x := x) (w := w) bundle .binary "binary"
  simp only [installRelease, Prog.exec_bind, hexec₁, Option.bind_some, Prog.pure_eq]
  cases err₁ with
  | some e =>
    have hno : ¬ x.passes bundle .binary := by simpa using herr₁
    refine ⟨some e, F₁, rfl, fun a => hothers₁ _ (by simp), fun a => ?_, by simpa using hstop _ hno⟩
    cases a <;> simp [Choice.written, Artefact.earlier, hno, hlive₁, hothers₁, World.live]
  | none =>
  have h₁ : x.passes bundle .binary := herr₁.1 rfl
  dsimp only
  cases hversion : bundle .version with
  | none =>
    refine ⟨some _, F₁, rfl, fun a => hothers₁ _ (by simp), fun a => ?_, by simp [Choice.installs, hversion]⟩
    cases a <;> simp [Choice.written, Artefact.earlier, hversion, hlive₁, hothers₁, World.live]
  | some v =>
  simp only [Option.isNone_some, Bool.false_eq_true, if_false]
  obtain ⟨err₂, F₂, hexec₂, hothers₂, hlive₂, herr₂⟩ :=
    exec_installMember (x := x) (w := { w with files := F₁ }) bundle .version "VERSION"
  simp only [Prog.exec_bind, hexec₂, Option.bind_some]
  cases err₂ with
  | some e =>
    have hno : ¬ x.passes bundle .version := by simpa using herr₂
    refine ⟨some e, F₂, rfl, fun a => by simp [hothers₂, hothers₁], fun a => ?_,
      by simpa using hstop _ hno⟩
    cases a <;> simp [Choice.written, Artefact.earlier, hversion, h₁, hno, hlive₁, hlive₂, hothers₁, hothers₂, World.live]
  | none =>
  have h₂ : x.passes bundle .version := herr₂.1 rfl
  dsimp only
  obtain ⟨err₃, F₃, hexec₃, hothers₃, hlive₃, herr₃⟩ :=
    exec_installMember (x := x) (w := { w with files := F₂ }) bundle .web "web assets"
  simp only [Prog.exec_bind, hexec₃, Option.bind_some]
  cases err₃ with
  | some e =>
    have hno : ¬ x.passes bundle .web := by simpa using herr₃
    refine ⟨some e, F₃, rfl, fun a => by simp [hothers₃, hothers₂, hothers₁], fun a => ?_,
      by simpa using hstop _ hno⟩
    cases a <;> simp [Choice.written, Artefact.earlier, hversion, h₁, h₂, hno, hlive₁, hlive₂, hlive₃, hothers₁, hothers₂,
      hothers₃, World.live]
  | none =>
  have h₃ : x.passes bundle .web := herr₃.1 rfl
  dsimp only
  obtain ⟨err₄, F₄, hexec₄, hothers₄, hlive₄, herr₄⟩ :=
    exec_installMember (x := x) (w := { w with files := F₃ }) bundle .unit "service"
  refine ⟨err₄, F₄, hexec₄, fun a => ?_, fun a => ?_, ?_⟩
  · simp [hothers₄, hothers₃, hothers₂, hothers₁]
  · cases a <;> simp [Choice.written, Artefact.earlier, hversion, h₁, h₂, h₃, hlive₁, hlive₂, hlive₃, hlive₄, hothers₁,
      hothers₂, hothers₃, hothers₄, World.live]
  · rw [herr₄]
    refine ⟨fun h => ⟨by rw [hversion]; rfl, fun a => ?_⟩, fun h => h.2 .unit⟩
    cases a with
    | binary => exact h₁
    | version => exact h₂
    | web => exact h₃
    | unit => exact h

/-! ### Restore -/

theorem exec_restoreFile (hx : ∀ a, x.restore a = none) (a : Artefact) :
    ∃ F, (restoreFile a).exec act x w = some (none, { w with files := F }) ∧
      (∀ p, p ≠ .live a → p ≠ .prev a → F p = w.files p) ∧ F (.live a) = (w.files (.prev a)).or (w.live a) := by
  simp only [restoreFile, Prog.ask_bind, Prog.pure_eq, Prog.exec_call, act, Option.bind_some]
  cases hprev : w.files (.prev a) with
  | none => exact ⟨w.files, rfl, fun _ _ _ => rfl, rfl⟩
  | some file =>
    have hfile : (w.set (.live a) none).files (.prev a) = some file := by simp [World.set, hprev]
    simp only [Option.isSome_some, Bool.not_true, Bool.false_eq_true, if_false, Prog.exec_call, act, Option.bind_some,
      hfile, hx]
    refine ⟨(((w.set (.live a) none).set (.live a) (some file)).set (.prev a) none).files, rfl, fun p hp hp' => ?_, ?_⟩
    · simp [World.set, hp, hp']
    · simp [World.set]

/-- `restoreBackup` puts back what was kept. -/
theorem exec_restoreBackup (hx : ∀ a, x.restore a = none) :
    ∃ F, restoreBackup.exec act x w = some (none, { w with files := F }) ∧ F (.live .unit) = w.live .unit ∧
      ∀ a, a ≠ .unit → F (.live a) = (w.files (.prev a)).or (w.live a) := by
  obtain ⟨F₁, hexec₁, hothers₁, hlive₁⟩ := exec_restoreFile (w := w) hx .binary
  obtain ⟨F₂, hexec₂, hothers₂, hlive₂⟩ := exec_restoreFile (w := { w with files := F₁ }) hx .web
  obtain ⟨F₃, hexec₃, hothers₃, hlive₃⟩ := exec_restoreFile (w := { w with files := F₂ }) hx .version
  refine ⟨F₃, ?_, ?_, fun a ha => ?_⟩
  · simp only [restoreBackup, Prog.exec_bind, hexec₁, Option.bind_some, Prog.pure_eq]
    simp only [hexec₂, Option.bind_some, hexec₃]
  · simp [hothers₁, hothers₂, hothers₃, World.live]
  · cases a with
    | unit => exact absurd rfl ha
    | _ => simp [hothers₁, hothers₂, hothers₃, hlive₁, hlive₂, hlive₃, World.live]

/-! ### The attempt -/

/-- The attempt `id` is under way and in a state. -/
structure Manager.Attempt (m : Manager) (id : ℕ) (state : State) : Prop where
  current : ∃ entry, m.current = some entry ∧ entry.id = id ∧ entry.state = state
  maxHistory : 0 < m.maxHistory

/-- The program ends with these files and the attempt recorded. -/
def Ends (w : World File) (x : Choice File) (p : Script File Unit) (files : Path → Option File) (state : State) : Prop :=
  ∃ w', p.exec act x w = some ((), w') ∧ w'.files = files ∧ w'.recorded = some state

section

variable {id : ℕ} {state : State}

/-- A transition that is allowed changes the state of the attempt only. -/
theorem act_transition {next : State} (h : w.manager.Attempt id state) (hnext : next ∈ Manager.valid state) :
    ∃ m, act (.transition id next) x w = some (none, { w with manager := m }) ∧ m.Attempt id next := by
  obtain ⟨entry, hm, rfl, rfl⟩ := h.current
  refine ⟨{ w.manager with current := some { entry with state := next } }, ?_, ⟨_, rfl, rfl, rfl⟩, h.maxHistory⟩
  simp only [act, Manager.transition_of_current hm hnext, World.managed]

theorem archive_state {m : Manager} {entry : Entry} (hmax : 0 < m.maxHistory) :
    (m.archive entry).history.getLast?.map Entry.state = some entry.state := by
  rw [Manager.archive_last hmax, Option.map_some]

theorem exec_failUpdate (h : w.manager.Attempt id state) (err : String) : Ends w x (failUpdate id err) w.files .failed := by
  obtain ⟨entry, hm, rfl, -⟩ := h.current
  simp only [Ends, failUpdate, Prog.ask_bind, Prog.pure_eq, Prog.exec_call, act, Manager.fail_of_current hm, World.managed,
    Option.bind_some]
  cases x.save with
  | none => exact ⟨_, rfl, rfl, archive_state h.maxHistory⟩
  | some e => exact ⟨_, rfl, rfl, archive_state h.maxHistory⟩

theorem exec_rolledBack (h : w.manager.Attempt id state) (cause : String) :
    Ends w x (rolledBack id cause) w.files .rolledBack := by
  obtain ⟨entry, hm, rfl, -⟩ := h.current
  simp only [Ends, rolledBack, Prog.ask_bind, Prog.pure_eq, Prog.exec_call, act, Manager.rollbackWithError_of_current hm,
    World.managed, Option.bind_some]
  cases x.save with
  | none => exact ⟨_, rfl, rfl, archive_state h.maxHistory⟩
  | some e => exact ⟨_, rfl, rfl, archive_state h.maxHistory⟩

/-- The world after the backup and the installation of what was written. -/
structure Replaced (x : Choice File) (before : Artefact → Option File) (bundle : Bundle File) (w : World File) : Prop where
  prev : ∀ a, a ≠ .unit → w.files (.prev a) = before a
  live : ∀ a, a ≠ .unit → w.live a = x.written bundle a
  unit : w.live .unit = (x.written bundle .unit).or (before .unit)

variable {before : Artefact → Option File} {bundle : Bundle File}

/-- What is put back over what was written is the installation before when it is covered. -/
theorem exec_undo (hx : ∀ a, x.restore a = none) (h : Replaced x before bundle w) :
    ∃ F, restoreBackup.exec act x w = some (none, { w with files := F }) ∧
      ((∀ a, F (.live a) = before a) ↔ x.Covered before bundle) := by
  obtain ⟨F, hexec, hkeep, hback⟩ := exec_restoreBackup (w := w) hx
  refine ⟨F, hexec, fun hall => ⟨fun a ha hnone => ?_, fun file hfile => ?_⟩, fun hcovered a => ?_⟩
  · have ha' := hback a ha
    rw [hall a, h.prev a ha, h.live a ha, hnone, Option.none_or] at ha'
    exact ha'.symm
  · have hunit := hall .unit
    rw [hkeep, h.unit, hfile, Option.some_or] at hunit
    exact hunit.symm
  · by_cases ha : a = .unit
    · subst ha
      rw [hkeep, h.unit]
      cases hw : x.written bundle .unit with
      | none => rfl
      | some file => exact (hcovered.2 file hw).symm
    · rw [hback a ha, h.prev a ha, h.live a ha]
      cases hb : before a with
      | none => rw [hcovered.1 a ha hb, Option.none_or]
      | some file => rfl

/-- The world after an attempt that did not succeed and was undone as far as it was covered. -/
def Undoes (x : Choice File) (before : Artefact → Option File) (bundle : Bundle File) (w : World File)
    (p : Script File Unit) : Prop :=
  ∃ w', p.exec act x w = some ((), w') ∧ w'.recorded ≠ some .completed ∧
    ((∀ a, w'.live a = before a) ↔ x.Covered before bundle)

/-- A restore, and then a record that is not that of a success. -/
theorem undoes_restore {f : Option String → Script File Unit} (hx : ∀ a, x.restore a = none) (h : Replaced x before bundle w)
    (hf : ∀ F, ∃ state, state ≠ .completed ∧ Ends { w with files := F } x (f none) F state) :
    Undoes x before bundle w (restoreBackup >>= f) := by
  obtain ⟨F, hexec, hiff⟩ := exec_undo hx h
  obtain ⟨state, hstate, w', hexec', hfiles, hrecorded⟩ := hf F
  refine ⟨w', ?_, by rw [hrecorded]; simpa using hstate, ?_⟩
  · rw [Prog.exec_bind, hexec]
    exact hexec'
  · rw [← hiff]
    simp [World.live, hfiles]

/-- The same with a restart. -/
theorem undoes_restoreAndRestart {f : Option String → Script File Unit} (hx : ∀ a, x.restore a = none)
    (h : Replaced x before bundle w)
    (hf : ∀ F, ∃ state, state ≠ .completed ∧
      Ends { w with files := F, restarts := w.restarts + 1 } x (f (x.restart w.restarts)) F state) :
    Undoes x before bundle w (restoreAndRestart >>= f) := by
  obtain ⟨F, hexec, hiff⟩ := exec_undo hx h
  obtain ⟨state, hstate, w', hexec', hfiles, hrecorded⟩ := hf F
  refine ⟨w', ?_, by rw [hrecorded]; simpa using hstate, ?_⟩
  · simp only [restoreAndRestart, Prog.exec_bind, hexec, Option.bind_some, Prog.ask, Prog.exec_call, act, Prog.exec_done]
    exact hexec'
  · rw [← hiff]
    simp [World.live, hfiles]

/-- The attempt either succeeds or is undone as far as it was covered. -/
def Settles (x : Choice File) (before : Artefact → Option File) (w : World File) (p : Script File Unit) (cond : Prop) : Prop :=
  ∃ w', p.exec act x w = some ((), w') ∧ ((w'.recorded ≠ some .completed → ∀ a, w'.live a = before a) ↔ cond)

theorem Undoes.settles {p : Script File Unit} (h : Undoes x before bundle w p) :
    Settles x before w p (x.Covered before bundle) := by
  obtain ⟨w', hexec, hrecorded, hiff⟩ := h
  exact ⟨w', hexec, by simp [hrecorded, hiff]⟩

theorem settles_awaitReadiness (h : w.manager.Attempt id .installing) (hx : ∀ a, x.restore a = none)
    (hw : Replaced x before bundle w) :
    Settles x before w (awaitReadiness id) (x.ready w.waits ≠ true → x.Covered before bundle) := by
  obtain ⟨m, hact, hready⟩ := @act_transition _ x _ _ _ .readiness h (by simp [Manager.valid])
  simp only [Settles, awaitReadiness, Prog.ask_bind, Prog.pure_eq, Prog.exec_call, hact, Option.bind_some]
  rw [act, Option.bind_some]
  cases hwait : x.ready w.waits with
  | true =>
    obtain ⟨entry, hm, rfl, -⟩ := hready.current
    simp only [Bool.not_true, Bool.false_eq_true, if_false, Prog.exec_call, act, Manager.complete_of_current hm,
      World.managed, Option.bind_some]
    cases x.save with
    | none => exact ⟨_, rfl, by simp [World.recorded, archive_state hready.maxHistory]⟩
    | some e => exact ⟨_, rfl, by simp [World.recorded, archive_state hready.maxHistory]⟩
  | false =>
    simp only [Bool.not_false, if_true, ne_eq, Bool.false_eq_true, not_false_eq_true, forall_const]
    have hw' : Replaced x before bundle { w with manager := m, waits := w.waits + 1 } := ⟨hw.prev, hw.live, hw.unit⟩
    refine (undoes_restoreAndRestart hx hw' fun F => ?_).settles
    dsimp only
    cases x.restart w.restarts with
    | some e => exact ⟨.failed, by decide, exec_failUpdate hready _⟩
    | none =>
      simp only [Ends, Prog.exec_call, act, Option.bind_some]
      cases x.ready (w.waits + 1) with
      | true => exact ⟨.rolledBack, by decide, exec_rolledBack hready _⟩
      | false => exact ⟨.failed, by decide, exec_failUpdate hready _⟩

theorem settles_iff {p : Script File Unit} {cond cond' : Prop} (h : Settles x before w p cond) (hcond : cond ↔ cond') :
    Settles x before w p cond' := by
  obtain ⟨w', hexec, hiff⟩ := h
  exact ⟨w', hexec, hiff.trans hcond⟩

theorem settles_replaceInstallation (h : w.manager.Attempt id .installing) (hx : ∀ a, x.restore a = none)
    (hrestarts : w.restarts = 0) (hwaits : w.waits = 0) :
    Settles x w.live w (replaceInstallation id bundle) (x.Undone w.live bundle) := by
  obtain ⟨err, F, hexec, hunit, hmoved, hleft⟩ := exec_backupCurrent (x := x) (w := w)
  rw [Settles]
  simp only [replaceInstallation, Prog.exec_bind, hexec, Option.bind_some]
  by_cases hfree : ∀ a, a ≠ .unit → ¬ x.refuses w.live a
  · -- the backup is complete
    obtain ⟨rfl, hgone⟩ := hmoved hfree
    have hcond : ∀ {cond : Prop}, (cond ↔ (¬ (x.installs bundle ∧ x.restart 0 = none ∧ x.ready 0 = true) →
        x.Covered w.live bundle)) → (cond ↔ x.Undone w.live bundle) := by
      intro cond hiff
      rw [hiff]
      refine ⟨fun hlater => ⟨fun _ hno => absurd hno (hfree _ (by simp)), fun _ _ hno => absurd hno (hfree _ (by simp)),
        fun _ => hlater⟩, fun hundone => hundone.later hfree⟩
    obtain ⟨err, G, hexec', hprev, hlive, herr⟩ := exec_installRelease (x := x) (w := { w with files := F }) bundle
    have hreplaced : Replaced x w.live bundle { w with files := G } := by
      refine ⟨fun a ha => (hprev a).trans (hgone a ha).2, fun a ha => ?_, ?_⟩
      · simp only [World.live] at hlive ⊢
        rw [hlive a, (hgone a ha).1, Option.or_none]
      · simp only [World.live] at hlive hunit ⊢
        rw [hlive .unit, hunit]
    simp only [Prog.exec_bind, hexec', Option.bind_some]
    cases err with
    | some e =>
      have hno : ¬ x.installs bundle := by simpa using herr
      refine settles_iff (undoes_restore hx hreplaced fun G' => ?_).settles (hcond (by simp [hno]))
      exact ⟨.rolledBack, by decide, exec_rolledBack (w := { w with files := G' }) h _⟩
    | none =>
      have hins : x.installs bundle := herr.1 rfl
      simp only [Prog.ask_bind, Prog.exec_call, act, Option.bind_some]
      have hreplaced' : Replaced x w.live bundle { w with files := G, restarts := w.restarts + 1 } :=
        ⟨hreplaced.prev, hreplaced.live, hreplaced.unit⟩
      cases hrestart : x.restart w.restarts with
      | some e =>
        rw [hrestarts] at hrestart
        refine settles_iff (undoes_restoreAndRestart hx hreplaced' fun G' => ?_).settles (hcond (by simp [hrestart]))
        dsimp only
        cases x.restart (w.restarts + 1) with
        | some e =>
          exact ⟨.failed, by decide, exec_failUpdate (w := { w with files := G', restarts := w.restarts + 1 + 1 }) h _⟩
        | none =>
          exact ⟨.rolledBack, by decide, exec_rolledBack (w := { w with files := G', restarts := w.restarts + 1 + 1 }) h _⟩
      | none =>
        rw [hrestarts] at hrestart
        refine settles_iff (settles_awaitReadiness h hx hreplaced') (hcond ?_)
        simp [hins, hrestart, hwaits]
  · -- nothing is put back
    obtain ⟨herr, hiff⟩ := hleft hfree
    obtain ⟨e, rfl⟩ := Option.ne_none_iff_exists'.1 herr
    obtain ⟨w', hexec', hfiles, hrecorded⟩ := exec_failUpdate (x := x) (w := { w with files := F }) h ("backup: " ++ e)
    refine ⟨w', hexec', ?_⟩
    have hall : (∀ a, w'.live a = w.live a) ↔ ∀ a, F (.live a) = w.live a := by simp [World.live, hfiles]
    rw [hrecorded, hall]
    simp only [ne_eq, Option.some.injEq, reduceCtorEq, not_false_eq_true, forall_const]
    rw [hiff]
    exact ⟨fun h => ⟨h.1, h.2, fun hno => absurd hno hfree⟩, fun h => ⟨h.binary, h.web⟩⟩

end

end

/-- The condition under which an update that fails is undone: when it gets to the installation, the backup is complete or
nothing had been moved, and what was written is covered or nothing fails. -/
def Choice.Reverts (x : Choice File) (before : Artefact → Option File) : Prop :=
  ∀ bundle, x.download = none → x.verify = none → x.extract = .ok bundle → x.Undone before bundle

/-- The rest of an update when a step has been recorded; it ends when that fails. -/
def whenMoved (rest : Script File Unit) : Option String → Script File Unit
  | some _ => .done ()
  | none => rest

namespace Sample

/-- An installation: files are numbers. -/
def world : World ℕ where
  files
    | .live .binary => some 1
    | .live .version => some 2
    | .live .web => some 3
    | .live .unit => some 4
    | _ => none
  manager :=
    { current := some ⟨7, 7, 0, "1.0", "1.1", "stable", .downloading, "", false, false, "systemd"⟩
      maxHistory := 10 }

theorem attempt : world.manager.Attempt 7 .downloading := ⟨⟨_, rfl, rfl, rfl⟩, by decide⟩

/-- A bundle with a service unit and one without. -/
def full : Bundle ℕ
  | .binary => some 11
  | .version => some 12
  | .web => some 13
  | .unit => some 14

def plain : Bundle ℕ
  | .unit => none
  | a => full a

/-- The service does not become ready with the new version and does with the old one. -/
def unready (bundle : Bundle ℕ) : Choice ℕ := { extract := .ok bundle, ready := fun n => n ≠ 0 }

/-- The binary cannot be renamed. -/
def refused : Choice ℕ := { extract := .ok plain, backup := fun a => if a = .binary then some "text file busy" else none }

def after (x : Choice ℕ) : Option (Unit × World ℕ) := (executeUpdate 7).exec act x world

/-- What is compared: the record and the files. -/
def outcome (w : World ℕ) : Option State × List (Option ℕ) :=
  (w.recorded, [w.live .binary, w.live .version, w.live .web, w.live .unit])

end Sample

end Velora.Update
