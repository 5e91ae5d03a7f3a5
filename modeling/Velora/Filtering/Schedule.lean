import Velora.Filtering.Attribution

/-!
# Scheduled refreshes

`RefreshDue` of `internal/filtering/service.go` next to the other operations: it reads which sources are due, and then
refreshes them one by one while the lock is free for others in between. An attempt is written down by the save that stores its
outcome. That save compiles all lists first, so a list that is downloaded but does not fit beside the others leaves no trace,
and is due again at once; every other attempt keeps its distance (`refresh_spacing`).
-/

namespace Velora.Filtering

open Velora.Lib Velora.Lib.Text Velora.Lib.Loops

/-- A second; times are in nanoseconds. -/
def second : ℤ := 1000000000

/-- Retry delays after a failed refresh grow from here and never exceed the interval of the source. -/
def retryBase : ℤ := 300 * second

/-- The time from an attempt to the next. -/
def delay (failures : ℕ) (interval : ℤ) : ℤ :=
  let delay := interval * second
  if failures > 0 then min (retryBase * 2 ^ min (failures - 1) 10) delay else delay

/-- `nextUpdate`, with the time `s.now()` gives. -/
def nextUpdate (now : ℤ) (source : Source) : Option ℤ :=
  if source.url = [] ∨ source.enabled = false ∨ source.updateInterval = 0 then none
  else
    match source.lastAttemptAt with
    | none => some now
    | some t => some (t + delay source.consecutiveFailures source.updateInterval)

/-- The test of `RefreshDue`, which has read the time before `nextUpdate` does. -/
def due (now read : ℤ) (source : Source) : Bool := (nextUpdate read source).any (· ≤ now)

/-! ### Delays -/

theorem delay_le (failures : ℕ) (interval : ℤ) : delay failures interval ≤ interval * second := by
  unfold delay
  dsimp only
  split
  · exact min_le_right _ _
  · exact le_refl _

/-- The delay grows with the failures. -/
theorem delay_mono {m n : ℕ} (hm : 0 < m) (h : m ≤ n) (interval : ℤ) : delay m interval ≤ delay n interval := by
  have hpow : (2 : ℤ) ^ min (m - 1) 10 ≤ 2 ^ min (n - 1) 10 := by
    refine pow_le_pow_right₀ (by decide) ?_
    omega
  have hbase : (0 : ℤ) ≤ retryBase := by decide
  unfold delay
  dsimp only
  rw [if_pos hm, if_pos (lt_of_lt_of_le hm h)]
  exact min_le_min_right _ (mul_le_mul_of_nonneg_left hpow hbase)

theorem le_delay (failures : ℕ) (interval : ℤ) : min retryBase (interval * second) ≤ delay failures interval := by
  have hpow : (1 : ℤ) ≤ 2 ^ min (failures - 1) 10 := one_le_pow₀ (by decide)
  have hbase : (0 : ℤ) ≤ retryBase := by decide
  unfold delay
  dsimp only
  split
  · exact min_le_min_right _ (le_mul_of_one_le_right hbase hpow)
  · exact min_le_right _ _

/-- A source that has been attempted is not due before its delay is over. -/
theorem not_due {x : Source} {t : ℤ} (h : x.url = [] ∨ ∃ a, x.lastAttemptAt = some a ∧ t ≤ a) {now : ℤ}
    (hnow : now < t + min retryBase (x.updateInterval * second)) (read : ℤ) : due now read x = false := by
  have hdelay := le_delay x.consecutiveFailures x.updateInterval
  unfold due nextUpdate
  split
  · rfl
  · rename_i hscheduled
    obtain ⟨a, ha, hle⟩ := h.resolve_left fun hurl => hscheduled (Or.inl hurl)
    rw [ha, Option.any_some, decide_eq_false_iff_not]
    omega

/-! ### The scheduler -/

/-- The service and the pass of `RefreshDue` that is under way: the sources it still has to refresh. The attempts it has made
are kept with their times. -/
structure Scheduler where
  service : Service
  clock : ℤ
  pending : List ℤ := []
  attempts : List (ℤ × ℤ) := []

inductive Event where
  /-- an operation of another caller -/
  | call (c : Call) (o : Outside)
  /-- `RefreshDue` reads the sources, unless another operation has the lock; `reads` are the times `nextUpdate` reads -/
  | tick (busy : Bool) (now : ℤ) (reads : ℕ → ℤ)
  /-- its next refresh -/
  | attempt (o : Outside)
  /-- its context has ended -/
  | cancel
  /-- the process begins anew, with another configuration -/
  | restart (static : List Rule)

/-- The sources that are due. -/
def dueSources (sources : List Source) (now : ℤ) (reads : ℕ → ℤ) : List ℤ :=
  (sources.zipIdx.filter (fun p => due now (reads p.2) p.1)).map (fun p => p.1.id)

/-- Whether `RefreshDue` counts a refresh as an attempt. -/
def counts : Except Err Source → Bool
  | .error .busy => false
  | .error .notFound => false
  | _ => true

/-- One event; the clock does not go back. -/
def Scheduler.step (validateURL : Str → Option Err) (w : Scheduler) : Event → Option Scheduler
  | .call c o =>
    if o.now < w.clock then none else some { w with service := (w.service.step validateURL c o).2, clock := o.now }
  | .tick busy now reads =>
    if now < w.clock ∨ w.pending ≠ [] then none
    else some { w with clock := now, pending := if busy then [] else dueSources w.service.sources now reads }
  | .attempt o =>
    match w.pending with
    | [] => none
    | id :: rest =>
      if o.now < w.clock then none
      else
        let r := w.service.step validateURL (.refresh id) o
        some { service := r.2, clock := o.now, pending := rest,
               attempts := if counts r.1 then w.attempts ++ [(id, o.now)] else w.attempts }
  | .cancel => some { w with pending := [] }
  | .restart static =>
    match start static w.service.repo with
    | .error _ => none
    | .ok s => some { w with service := s, pending := [] }

/-! ### What an operation does to the attempts -/

/-- The sources of a state come from those of another: with the same URL, and attempted when they were or just now; or they
are new. -/
def Carries (s s' : Service) (now : ℤ) : Prop :=
  ∀ x' ∈ s'.sources, x'.id = s.repo.seq + 1 ∨
    ∃ x ∈ s.sources, x.id = x'.id ∧ x.url = x'.url ∧ (x'.lastAttemptAt = x.lastAttemptAt ∨ x'.lastAttemptAt = some now)

theorem Carries.refl (s : Service) (now : ℤ) : Carries s s now := fun x hx => Or.inr ⟨x, hx, rfl, rfl, Or.inl rfl⟩

theorem Edit.carries {o : Outside} {c : Call} {x y : Source} (h : Edit o c x y) :
    y.id = x.id ∧ y.url = x.url ∧ (y.lastAttemptAt = x.lastAttemptAt ∨ y.lastAttemptAt = some o.now) := by
  cases h with
  | schedule => exact ⟨rfl, rfl, Or.inl rfl⟩
  | enabled => exact ⟨rfl, rfl, Or.inl rfl⟩
  | replaced => exact ⟨rfl, rfl, Or.inl rfl⟩
  | failed => exact ⟨rfl, rfl, Or.inr rfl⟩
  | fetched => exact ⟨rfl, rfl, Or.inr rfl⟩

/-- **One operation.** -/
theorem step_carries (validateURL : Str → Option Err) (s : Service) (c : Call) (o : Outside) :
    Carries s (s.step validateURL c o).2 o.now ∧ s.repo.seq ≤ (s.step validateURL c o).2.repo.seq := by
  cases step_went validateURL s c o with
  | nothing h =>
    rw [h]
    exact ⟨Carries.refl s o.now, le_refl _⟩
  | made hmade hs =>
    obtain ⟨id, hid, hmem⟩ := save_mem hs
    obtain ⟨_, _, _, _, -, -, rfl⟩ := hmade
    rcases hid with ⟨-, hid, hseq⟩ | ⟨hid, -⟩
    · refine ⟨fun x' hx' => ?_, by omega⟩
      rcases hmem x' hx' with hx' | rfl
      · exact Carries.refl s o.now x' hx'
      · exact Or.inl hid
    · exact absurd rfl hid
  | edited hi he hs =>
    obtain ⟨id, hid, hmem⟩ := save_mem hs
    obtain ⟨hyid, hurl, hattempt⟩ := he.carries
    refine ⟨fun x' hx' => ?_, by omega⟩
    rcases hmem x' hx' with hx' | rfl
    · exact Carries.refl s o.now x' hx'
    · rcases hid with ⟨-, hid, -⟩ | ⟨-, hid, -⟩
      · exact Or.inl hid
      · exact Or.inr ⟨_, List.mem_of_getElem? hi, by rw [← hyid, ← hid]; rfl, hurl.symm, hattempt⟩
  | deleted hi hs =>
    obtain ⟨-, hsources, hrepo⟩ := delete_ok hs
    refine ⟨fun x' hx' => ?_, ?_⟩
    · rw [hsources] at hx'
      exact Carries.refl s o.now x' (List.mem_of_mem_eraseIdx hx')
    · unfold Repo.deleteSource at hrepo
      split at hrepo
      · rw [← Except.ok.inj hrepo]
      · cases hrepo

/-! ### What an attempt does -/

/-- The outcome of a refresh, as it is to be stored. -/
def refreshed (o : Outside) (x : Source) : Source :=
  match fetch o with
  | .error _ =>
    { x with
      lastAttemptAt := some o.now
      lastError := "Download or list validation failed; previous domains retained.".toList
      consecutiveFailures := x.consecutiveFailures + 1 }
  | .ok domains =>
    { x with
      lastAttemptAt := some o.now, domains := domains, lastUpdatedAt := some o.now, lastError := []
      consecutiveFailures := 0 }

theorem refreshed_id (o : Outside) (x : Source) : (refreshed o x).id = x.id := by
  unfold refreshed
  split <;> rfl

theorem refreshed_lastAttemptAt (o : Outside) (x : Source) : (refreshed o x).lastAttemptAt = some o.now := by
  unfold refreshed
  split <;> rfl

/-- A list of the source has room beside the others. -/
def Room (s : Service) (id : ℤ) (domains : List Str) : Prop :=
  (s.sources.map (fun x => if x.id = id then domains.length else x.domains.length)).sum ≤ maxTotalDomains

instance (s : Service) (id : ℤ) (domains : List Str) : Decidable (Room s id domains) :=
  inferInstanceAs (Decidable (_ ≤ maxTotalDomains))

/-- A download fails, or brings a list that has room. -/
def RoomFor (s : Service) (id : ℤ) (o : Outside) : Prop := ∀ domains ∈ (fetch o).toOption, Room s id domains

instance (s : Service) (id : ℤ) (o : Outside) : Decidable (RoomFor s id o) :=
  inferInstanceAs (Decidable (∀ domains ∈ (fetch o).toOption, Room s id domains))

/-- `SaveSource` succeeds with the outcome of a refresh. -/
def Stores (s : Service) (id : ℤ) (o : Outside) : Prop :=
  o.storeFails = none ∧ ∀ x ∈ s.sources, x.id = id → (s.repo.saveSource (refreshed o x)).toOption.isSome = true

instance (s : Service) (id : ℤ) (o : Outside) : Decidable (Stores s id o) :=
  inferInstanceAs (Decidable (_ ∧ ∀ x ∈ s.sources, x.id = id → (s.repo.saveSource (refreshed o x)).toOption.isSome = true))

/-- A refresh of a source from the web. -/
theorem step_refresh (validateURL : Str → Option Err) {s : Service} {id : ℤ} {o : Outside} {x : Source} {i : ℕ}
    (hbusy : o.busy = false) (hfind : s.find id = some (x, i)) (hurl : x.url ≠ []) :
    (s.step validateURL (.refresh id) o).2 = (s.save o (refreshed o x)).2 ∧
      ((s.step validateURL (.refresh id) o).1 = (s.save o (refreshed o x)).1 ∨
        counts (s.step validateURL (.refresh id) o).1 = true) := by
  unfold Service.step
  dsimp only
  rw [hbusy, if_neg Bool.false_ne_true, Service.at', hfind]
  dsimp only
  rw [Service.refresh, if_neg hurl, refreshed]
  dsimp only
  cases fetch o with
  | error e =>
    dsimp only
    split
    · rename_i hs
      rw [hs]
      exact ⟨rfl, Or.inr rfl⟩
    · rename_i hs
      rw [hs]
      exact ⟨rfl, Or.inr rfl⟩
  | ok domains => exact ⟨rfl, Or.inl rfl⟩

/-- A refresh of a source that is not there, or that is a local one, changes nothing. -/
theorem step_refresh_nothing (validateURL : Str → Option Err) {s : Service} {id : ℤ} {o : Outside}
    (h : o.busy = true ∨ s.find id = none ∨ ∃ x i, s.find id = some (x, i) ∧ x.url = []) :
    (s.step validateURL (.refresh id) o).2 = s ∧
      (counts (s.step validateURL (.refresh id) o).1 = true → ∃ x i, s.find id = some (x, i) ∧ x.url = []) := by
  unfold Service.step
  dsimp only
  by_cases hbusy : o.busy = true
  · rw [hbusy, if_pos rfl]
    exact ⟨rfl, fun h => (by cases h)⟩
  rw [if_neg hbusy, Service.at']
  rcases h.resolve_left hbusy with hnone | ⟨x, i, hfind, hurl⟩
  · rw [hnone]
    exact ⟨rfl, fun h => (by cases h)⟩
  · rw [hfind]
    dsimp only
    rw [Service.refresh, if_pos hurl]
    exact ⟨rfl, fun _ => ⟨x, i, rfl, hurl⟩⟩

theorem collect_error {l : List Source} {total : ℕ} {rules : List Rule} {e : Err} (h : collect l total rules = .error e) :
    e = .invalid "too many stored domains" := by
  induction l generalizing total rules with
  | nil => cases h
  | cons x l ih =>
    unfold collect at h
    dsimp only at h
    split at h
    · cases h
      rfl
    · exact ih h

theorem compile_error_counts {static : List Rule} {l : List Source} {e : Err} (h : compile static l = .error e) :
    counts (.error e) = true := by
  unfold compile at h
  split at h
  · cases h
    rfl
  cases hrules : collect l 0 static with
  | error e' =>
    rw [hrules, collect_error hrules] at h
    cases h
    rfl
  | ok rules =>
    rw [hrules] at h
    dsimp only [bind, Except.bind] at h
    split at h
    · cases h
    · cases h
      rfl

/-- **The candidate of a refresh compiles** exactly when what is downloaded has room. -/
theorem candidate_compiles {s : Service} (hc : Consistent s) (hp : AllParsed s.sources) {o : Outside} {x : Source} {i : ℕ}
    (hi : s.sources[i]? = some x) :
    (∃ m, compile s.static (s.sources.set i (refreshed o x)) = .ok m) ↔ RoomFor s x.id o := by
  have hclean : Clean s.sources := fun y hy d hd => (hp y hy d hd).usable
  have hold := (compile_isOk hc.static_usable hclean).1 ⟨_, hc.compiled⟩
  unfold refreshed
  cases hfetch : fetch o with
  | error e =>
    refine ⟨fun _ domains hd => (by rw [hfetch] at hd; cases hd), fun _ => ⟨s.current, ?_⟩⟩
    rw [← hc.compiled]
    refine compile_congr (Keyed.map_set hi ?_)
    rfl
  | ok domains =>
    obtain ⟨text, -, hparse⟩ := bind_eq_ok.1 hfetch
    obtain ⟨hplain, hlen⟩ := parseHosts_plain hparse
    dsimp only
    generalize hy : ({ x with lastAttemptAt := some o.now, domains := domains, lastUpdatedAt := some o.now, lastError := [],
                              consecutiveFailures := 0 } : Source) = y
    have hid : y.id = x.id := by rw [← hy]
    have hdomains : y.domains = domains := by rw [← hy]
    have hclean' : Clean (s.sources.set i y) := by
      intro z hz d hd
      rcases List.mem_or_eq_of_mem_set hz with hz | rfl
      · exact hclean z hz d hd
      · rw [hdomains] at hd
        exact (hplain d hd).usable
    have hlens : ∀ z ∈ s.sources.set i y, z.domains.length ≤ maxDomains := by
      intro z hz
      rcases List.mem_or_eq_of_mem_set hz with hz | rfl
      · exact hold.2.1 z hz
      · rw [hdomains]
        exact hlen
    have hsum : (s.sources.set i y).map (fun z => z.domains.length) =
        s.sources.map (fun z => if z.id = x.id then domains.length else z.domains.length) := by
      have hset := Keyed.map_replace_eq_set hc.nodup hi (a := y) hid
      rw [← hset, List.map_map, ← hid, ← hdomains]
      refine List.map_congr_left fun z _ => ?_
      simp only [Function.comp]
      split <;> rfl
    rw [compile_isOk hc.static_usable hclean', List.length_set, hsum]
    have hroom : (∀ ds ∈ (fetch o).toOption, Room s x.id ds) ↔ Room s x.id domains := by
      rw [hfetch]
      exact ⟨fun h => h domains rfl, fun h ds hds => (Option.some.inj hds) ▸ h⟩
    rw [RoomFor, hroom]
    exact ⟨fun h => h.2.2, fun h => ⟨hold.1, hlens, h⟩⟩

section

variable (validateURL : Str → Option Err) {s : Service} {id : ℤ} {o : Outside} {x : Source} {i : ℕ}
  (hc : Consistent s) (hp : AllParsed s.sources) (hbusy : o.busy = false) (hfind : s.find id = some (x, i))
  (hurl : x.url ≠ [])

include hc hp hbusy hfind hurl

/-- A refresh whose outcome has room is stored. -/
theorem refresh_saves (hstores : Stores s id o) (hroom : RoomFor s id o) :
    (s.step validateURL (.refresh id) o).2.sources = s.sources.set i (counted (refreshed o x)) ∧
      counts (s.step validateURL (.refresh id) o).1 = true := by
  obtain ⟨hi, hid⟩ := find_eq_some hfind
  have hmem := List.mem_of_getElem? hi
  have hindex : s.index (refreshed o x).id = some i := by
    rw [refreshed_id, hid, Service.index, hfind]
    rfl
  have hpos := (hc.range x hmem).1
  obtain ⟨m, hm⟩ := (candidate_compiles hc hp hi).2 (hid ▸ hroom)
  obtain ⟨⟨saved, repo⟩, hsome⟩ := Option.isSome_iff_exists.1 (hstores.2 x hmem hid)
  have hsave := eq_ok_of_toOption hsome
  have hsaved : saved = refreshed o x := by
    rcases saveSource_spec hsave with ⟨hzero, -⟩ | ⟨-, h, -⟩
    · rw [refreshed_id] at hzero
      omega
    · exact h
  have hsaves : (s.save o (refreshed o x)).2.sources = s.sources.set i (counted (refreshed o x)) ∧
      (s.save o (refreshed o x)).1 = .ok (counted (refreshed o x)) := by
    unfold Service.save Service.put
    rw [hindex]
    dsimp only
    rw [hm]
    dsimp only
    rw [hstores.1, hsave, hsaved]
    exact ⟨rfl, rfl⟩
  obtain ⟨hstate, hresult⟩ := step_refresh validateURL hbusy hfind hurl
  refine ⟨by rw [hstate, hsaves.1], hresult.elim (fun h => ?_) (fun h => h)⟩
  rw [h, hsaves.2]
  rfl

/-- **An attempt is recorded** when its outcome has room. -/
theorem refresh_records (hstores : Stores s id o) (hroom : RoomFor s id o) :
    ∀ x' ∈ (s.step validateURL (.refresh id) o).2.sources, x'.id = id → x'.lastAttemptAt = some o.now := by
  obtain ⟨hi, hid⟩ := find_eq_some hfind
  have hset := (refresh_saves validateURL hc hp hbusy hfind hurl hstores hroom).1
  have hnodup := (did_step hc validateURL (.refresh id) o).consistent.nodup
  intro x' hx' hid'
  have hnew : counted (refreshed o x) ∈ (s.step validateURL (.refresh id) o).2.sources := by
    rw [hset]
    exact List.mem_set (List.getElem?_eq_some_iff.1 hi).1 _
  have hkey : x'.id = (counted (refreshed o x)).id := by rw [hid', counted_id, refreshed_id, hid]
  rw [List.inj_on_of_nodup_map hnodup hx' hnew hkey]
  exact refreshed_lastAttemptAt o x

/-- **An attempt leaves no trace** when the list it has downloaded has no room. -/
theorem refresh_unrecorded (hroom : ¬ RoomFor s id o) :
    (s.step validateURL (.refresh id) o).2 = s ∧ counts (s.step validateURL (.refresh id) o).1 = true := by
  obtain ⟨hi, hid⟩ := find_eq_some hfind
  have hindex : s.index (refreshed o x).id = some i := by
    rw [refreshed_id, hid, Service.index, hfind]
    rfl
  have hsave : ∃ e, compile s.static (s.sources.set i (refreshed o x)) = .error e ∧
      s.save o (refreshed o x) = (.error e, s) := by
    cases hm : compile s.static (s.sources.set i (refreshed o x)) with
    | error e =>
      refine ⟨e, rfl, ?_⟩
      unfold Service.save
      rw [hindex]
      dsimp only
      rw [hm]
    | ok m => exact absurd ((candidate_compiles hc hp hi).1 ⟨m, hm⟩) (hid ▸ hroom)
  obtain ⟨e, he, hsave⟩ := hsave
  obtain ⟨hstate, hresult⟩ := step_refresh validateURL hbusy hfind hurl
  rw [hsave] at hstate hresult
  refine ⟨hstate, hresult.elim (fun h => ?_) (fun h => h)⟩
  rw [h]
  exact compile_error_counts he

end

/-! ### Runs -/

/-- The source an event attempts to refresh. -/
def Scheduler.attempted (w : Scheduler) : Event → Option (ℤ × Outside)
  | .attempt o => w.pending.head?.map (fun id => (id, o))
  | _ => none

/-- The store succeeds in what an attempt asks of it. -/
def StoreSucceeds (w : Scheduler) (e : Event) : Prop := ∀ a ∈ w.attempted e, Stores w.service a.1 a.2

/-- A list that an attempt downloads has room beside the others. -/
def HasRoom (w : Scheduler) (e : Event) : Prop := ∀ a ∈ w.attempted e, RoomFor w.service a.1 a.2

instance (w : Scheduler) (e : Event) : Decidable (StoreSucceeds w e) :=
  inferInstanceAs (Decidable (∀ a ∈ w.attempted e, Stores w.service a.1 a.2))

instance (w : Scheduler) (e : Event) : Decidable (HasRoom w e) :=
  inferInstanceAs (Decidable (∀ a ∈ w.attempted e, RoomFor w.service a.1 a.2))

/-- The attempts that have been made are written down, or the source is a local one. -/
structure Spaced (validateURL : Str → Option Err) (w : Scheduler) : Prop where
  reachable : Reachable validateURL w.service
  known : ∀ a ∈ w.attempts, a.1 ≤ w.service.repo.seq ∧ a.2 ≤ w.clock
  recorded : ∀ a ∈ w.attempts, ∀ x ∈ w.service.sources, x.id = a.1 →
    x.url = [] ∨ ∃ t, x.lastAttemptAt = some t ∧ a.2 ≤ t

/-- What has been written down stays. -/
theorem Spaced.carried {validateURL : Str → Option Err} {w : Scheduler} (h : Spaced validateURL w) {s' : Service} {now : ℤ}
    (hnow : w.clock ≤ now) (hc : Carries w.service s' now) : ∀ a ∈ w.attempts, ∀ x ∈ s'.sources, x.id = a.1 →
      x.url = [] ∨ ∃ t, x.lastAttemptAt = some t ∧ a.2 ≤ t := by
  intro a ha x' hx' hid
  obtain ⟨hseq, hclock⟩ := h.known a ha
  obtain ⟨x, hx, hxid, hurl, hattempt⟩ := (hc x' hx').resolve_left (by omega)
  rw [← hurl]
  refine (h.recorded a ha x hx (hxid.trans hid)).imp_right fun ⟨t, ht, hle⟩ => ?_
  rcases hattempt with hsame | hnew
  · exact ⟨t, hsame.trans ht, hle⟩
  · exact ⟨now, hnew, hclock.trans hnow⟩

/-- An attempt that counts, of a source that is there. -/
theorem attempt_recorded {validateURL : Str → Option Err} {s : Service} {id : ℤ} {o : Outside}
    (h : Reachable validateURL s) (hstores : Stores s id o) (hroom : RoomFor s id o)
    (hcount : counts (s.step validateURL (.refresh id) o).1 = true) : id ≤ s.repo.seq ∧
      ∀ x' ∈ (s.step validateURL (.refresh id) o).2.sources, x'.id = id →
        x'.url = [] ∨ x'.lastAttemptAt = some o.now := by
  have hc := h.consistent
  by_cases hlocal : o.busy = true ∨ s.find id = none ∨ ∃ x i, s.find id = some (x, i) ∧ x.url = []
  · obtain ⟨hstate, hfound⟩ := step_refresh_nothing validateURL hlocal
    obtain ⟨x, i, hfind, hurl⟩ := hfound hcount
    obtain ⟨hi, hid⟩ := find_eq_some hfind
    have hmem := List.mem_of_getElem? hi
    refine ⟨hid ▸ (hc.range x hmem).2, fun x' hx' hid' => Or.inl ?_⟩
    rw [hstate] at hx'
    rw [List.inj_on_of_nodup_map hc.nodup hx' hmem (hid'.trans hid.symm)]
    exact hurl
  · rw [not_or, not_or, Bool.not_eq_true] at hlocal
    obtain ⟨hbusy, hsome, hurl⟩ := hlocal
    obtain ⟨⟨x, i⟩, hfind⟩ := Option.ne_none_iff_exists'.1 hsome
    obtain ⟨hi, hid⟩ := find_eq_some hfind
    refine ⟨hid ▸ (hc.range x (List.mem_of_getElem? hi)).2, fun x' hx' hid' => Or.inr ?_⟩
    exact refresh_records validateURL hc (reachable_plain h) hbusy hfind (fun hnil => hurl ⟨x, i, hfind, hnil⟩) hstores hroom
      x' hx' hid'

theorem step_reachable {validateURL : Str → Option Err} {w w' : Scheduler} {e : Event} (h : Reachable validateURL w.service)
    (hs : w.step validateURL e = some w') : Reachable validateURL w'.service := by
  cases e with
  | call c o =>
    unfold Scheduler.step at hs
    dsimp only at hs
    split at hs
    · cases hs
    · cases hs
      exact .step c o h
  | tick busy now reads =>
    unfold Scheduler.step at hs
    dsimp only at hs
    split at hs
    · cases hs
    · cases hs
      exact h
  | attempt o =>
    unfold Scheduler.step at hs
    dsimp only at hs
    split at hs
    · cases hs
    · split at hs
      · cases hs
      · cases hs
        exact .step _ o h
  | cancel =>
    cases hs
    exact h
  | restart static =>
    unfold Scheduler.step at hs
    dsimp only at hs
    split at hs
    · cases hs
    · rename_i hstart
      cases hs
      exact .restart h hstart

/-- **One event.** -/
theorem step_spaced {validateURL : Str → Option Err} {w w' : Scheduler} {e : Event} (hstore : StoreSucceeds w e)
    (hroom : HasRoom w e) (h : Spaced validateURL w) (hs : w.step validateURL e = some w') : Spaced validateURL w' := by
  have hreachable := step_reachable h.reachable hs
  cases e with
  | call c o =>
    unfold Scheduler.step at hs
    dsimp only at hs
    split at hs
    · cases hs
    rename_i hclock
    cases hs
    obtain ⟨hcarries, hseq⟩ := step_carries validateURL w.service c o
    refine ⟨hreachable, fun a ha => ?_, h.carried (not_lt.1 hclock) hcarries⟩
    obtain ⟨h1, h2⟩ := h.known a ha
    exact ⟨h1.trans hseq, h2.trans (not_lt.1 hclock)⟩
  | tick busy now reads =>
    unfold Scheduler.step at hs
    dsimp only at hs
    split at hs
    · cases hs
    rename_i hclock
    cases hs
    rw [not_or, not_lt] at hclock
    exact ⟨hreachable, fun a ha => ⟨(h.known a ha).1, (h.known a ha).2.trans hclock.1⟩, h.recorded⟩
  | attempt o =>
    unfold Scheduler.step at hs
    dsimp only at hs
    split at hs
    · cases hs
    rename_i id rest hpending
    split at hs
    · cases hs
    rename_i hclock
    rw [not_lt] at hclock
    cases hs
    obtain ⟨hcarries, hseq⟩ := step_carries validateURL w.service (.refresh id) o
    have hold := h.carried hclock hcarries
    have hknown : ∀ a ∈ w.attempts, a.1 ≤ (w.service.step validateURL (.refresh id) o).2.repo.seq ∧ a.2 ≤ o.now :=
      fun a ha => ⟨(h.known a ha).1.trans hseq, (h.known a ha).2.trans hclock⟩
    by_cases hcount : counts (w.service.step validateURL (.refresh id) o).1 = true
    · have hattempted : (id, o) ∈ w.attempted (.attempt o) := by
        rw [Scheduler.attempted, hpending]
        rfl
      obtain ⟨hle, hnew⟩ := attempt_recorded h.reachable (hstore _ hattempted) (hroom _ hattempted) hcount
      refine ⟨hreachable, fun a ha => ?_, fun a ha => ?_⟩
      · rw [hcount, if_pos rfl] at ha
        rcases List.mem_append.1 ha with ha | ha
        · exact hknown a ha
        · rw [List.mem_singleton.1 ha]
          exact ⟨hle.trans hseq, le_refl _⟩
      · rw [hcount, if_pos rfl] at ha
        rcases List.mem_append.1 ha with ha | ha
        · exact hold a ha
        · rw [List.mem_singleton.1 ha]
          exact fun x' hx' hid => (hnew x' hx' hid).imp_right fun ht => ⟨o.now, ht, le_refl _⟩
    · rw [Bool.not_eq_true] at hcount
      refine ⟨hreachable, fun a ha => ?_, fun a ha => ?_⟩
      · rw [hcount, if_neg Bool.false_ne_true] at ha
        exact hknown a ha
      · rw [hcount, if_neg Bool.false_ne_true] at ha
        exact hold a ha
  | cancel =>
    cases hs
    exact ⟨hreachable, h.known, h.recorded⟩
  | restart static =>
    unfold Scheduler.step at hs
    dsimp only at hs
    split at hs
    · cases hs
    rename_i s hstart
    cases hs
    obtain ⟨m, -, hm⟩ := start_ok hstart
    refine ⟨hreachable, ?_, ?_⟩
    · rw [hm]
      exact h.known
    · rw [hm, ← h.reachable.consistent.stored]
      intro a ha x hx hid
      obtain ⟨y, hy, rfl⟩ := List.mem_map.1 hx
      exact h.recorded a ha y hy hid

/-- Schedules are checked before they are stored. -/
theorem reachable_interval {validateURL : Str → Option Err} {s : Service} (h : Reachable validateURL s) :
    ∀ x ∈ s.sources, validInterval x.updateInterval = true := by
  induction h with
  | first hs =>
    obtain ⟨m, -, rfl⟩ := start_ok hs
    intro x hx
    cases hx
  | @step s c o _ ih =>
    intro x hx
    cases step_went validateURL s c o with
    | nothing h =>
      rw [h] at hx
      exact ih x hx
    | made hmade hs =>
      obtain ⟨_, _, _, interval, -, hv, rfl⟩ := hmade
      obtain ⟨id, -, hmem⟩ := save_mem hs
      rcases hmem x hx with hx | rfl
      · exact ih x hx
      · exact hv
    | edited hi he hs =>
      have hold := ih _ (List.mem_of_getElem? hi)
      obtain ⟨id, -, hmem⟩ := save_mem hs
      rcases hmem x hx with hx | rfl
      · exact ih x hx
      · cases he with
        | schedule _ hv => exact hv
        | enabled => exact hold
        | replaced => exact hold
        | failed => exact hold
        | fetched => exact hold
    | deleted hi hs =>
      rw [(delete_ok hs).2.1] at hx
      exact ih x (List.mem_of_mem_eraseIdx hx)
  | @restart s s' static hs hstart ih =>
    obtain ⟨m, -, rfl⟩ := start_ok hstart
    intro x hx
    rw [← hs.consistent.stored] at hx
    obtain ⟨y, hy, rfl⟩ := List.mem_map.1 hx
    exact ih y hy

/-! ### Spacing -/

/-- The source is not due until its interval or the first retry delay has passed since a time. -/
def Rests (t : ℤ) (x : Source) : Prop := ∀ now read, now < t + min retryBase (x.updateInterval * second) → due now read x = false

theorem Spaced.rests {validateURL : Str → Option Err} {w : Scheduler} (h : Spaced validateURL w) :
    ∀ a ∈ w.attempts, ∀ x ∈ w.service.sources, x.id = a.1 → Rests a.2 x :=
  fun a ha x hx hid _ read hnow => not_due (h.recorded a ha x hx hid) hnow read

theorem run_spaced {validateURL : Str → Option Err} {static : List Rule} {s : Service} (hs : start static noLists = .ok s)
    {clock : ℤ} {es : List Event} {w : Scheduler}
    (hrun : run (Scheduler.step validateURL) { service := s, clock := clock } es = some w)
    (hstore : Meets (Scheduler.step validateURL) (fun w e => StoreSucceeds w e ∧ HasRoom w e)
      { service := s, clock := clock } es) : Spaced validateURL w :=
  run_invariant (fun _ _ _ hok h hstep => step_spaced hok.1 hok.2 h hstep) hstore hrun
    ⟨.first hs, by simp, by simp⟩

/-- A source that is due stays so when nothing is written down. -/
theorem due_again {x : Source} {now read t : ℤ} (hdue : due now read x = true) (hle : now ≤ t)
    (hv : validInterval x.updateInterval = true) : ¬ Rests t x := by
  intro hrests
  unfold due nextUpdate at hdue
  split at hdue
  · cases hdue
  rename_i hscheduled
  rw [not_or, not_or] at hscheduled
  have hpos : 0 < x.updateInterval * second := by
    unfold validInterval at hv
    rw [Bool.or_eq_true, Bool.and_eq_true, decide_eq_true_eq, decide_eq_true_eq] at hv
    have hmin := (hv.resolve_left hscheduled.2.2).1
    unfold minUpdateInterval at hmin
    unfold second
    omega
  have hmin : 0 < min retryBase (x.updateInterval * second) := lt_min (by decide) hpos
  have hnow := hrests t t (by omega)
  unfold due nextUpdate at hnow
  rw [if_neg (by rw [not_or, not_or]; exact hscheduled)] at hnow
  cases ha : x.lastAttemptAt with
  | none =>
    rw [ha, Option.any_some, decide_eq_false_iff_not] at hnow
    exact hnow (le_refl t)
  | some a =>
    rw [ha, Option.any_some, decide_eq_false_iff_not] at hnow
    rw [ha, Option.any_some, decide_eq_true_eq] at hdue
    omega

/-- **One attempt** of a source that is due. -/
theorem attempt_rests_iff {validateURL : Str → Option Err} {s : Service} (h : Reachable validateURL s) {id : ℤ} {o : Outside}
    (hbusy : o.busy = false) (hstores : Stores s id o) {x : Source} (hx : x ∈ s.sources) (hid : x.id = id) {now read : ℤ}
    (hnow : now ≤ o.now) (hdue : due now read x = true) : counts (s.step validateURL (.refresh id) o).1 = true ∧
      ((∀ x' ∈ (s.step validateURL (.refresh id) o).2.sources, x'.id = id → Rests o.now x') ↔ RoomFor s id o) := by
  have hc := h.consistent
  have hp := reachable_plain h
  have hurl : x.url ≠ [] := by
    intro hnil
    unfold due nextUpdate at hdue
    rw [if_pos (Or.inl hnil)] at hdue
    cases hdue
  obtain ⟨j, hj⟩ := List.mem_iff_getElem?.1 hx
  obtain ⟨y, i, hfind⟩ := find_isSome hj
  obtain ⟨hi, hyid⟩ := find_eq_some hfind
  obtain rfl := List.inj_on_of_nodup_map hc.nodup (List.mem_of_getElem? hi) hx hyid
  rw [hid] at hfind
  by_cases hroom : RoomFor s id o
  · refine ⟨(refresh_saves validateURL hc hp hbusy hfind hurl hstores hroom).2, fun _ => hroom, fun _ x' hx' hid' => ?_⟩
    have hrecorded := refresh_records validateURL hc hp hbusy hfind hurl hstores hroom x' hx' hid'
    exact fun _ read hnow => not_due (Or.inr ⟨o.now, hrecorded, le_refl _⟩) hnow read
  · obtain ⟨hstate, hcount⟩ := refresh_unrecorded validateURL hc hp hbusy hfind hurl hroom
    refine ⟨hcount, fun hrests => absurd (hrests y (by rwa [hstate]) hid) ?_, fun hr => absurd hr hroom⟩
    exact due_again hdue hnow (reachable_interval h y hx)

/-- **Refreshes keep their distance.** In every run, with any operations of others, failing downloads and new starts, in which
the store succeeds in what the attempts ask of it and every list they download has room, a source that was attempted rests; and
an attempt of a source that is due makes it rest exactly when what it downloads has room. The delay grows with the failures and
never exceeds the interval. -/
theorem refresh_spacing (validateURL : Str → Option Err) {static : List Rule} {s : Service}
    (hs : start static noLists = .ok s) {clock : ℤ} {es : List Event} {w : Scheduler}
    (hrun : run (Scheduler.step validateURL) { service := s, clock := clock } es = some w)
    (hmeets : Meets (Scheduler.step validateURL) (fun w e => StoreSucceeds w e ∧ HasRoom w e)
      { service := s, clock := clock } es) :
    (∀ a ∈ w.attempts, ∀ x ∈ w.service.sources, x.id = a.1 → Rests a.2 x) ∧
    (∀ o w', w.step validateURL (.attempt o) = some w' → o.busy = false → StoreSucceeds w (.attempt o) →
      ∀ id ∈ w.pending.head?, ∀ x ∈ w.service.sources, x.id = id → (∃ now read, now ≤ o.now ∧ due now read x = true) →
        (id, o.now) ∈ w'.attempts ∧ ((∀ x' ∈ w'.service.sources, x'.id = id → Rests o.now x') ↔ RoomFor w.service id o)) ∧
    ∀ interval, (∀ m n, 0 < m → m ≤ n → delay m interval ≤ delay n interval) ∧
      ∀ n, delay n interval ≤ interval * second := by
  have hspaced := run_spaced hs hrun hmeets
  refine ⟨hspaced.rests, fun o w' hstep hbusy hstore id hid x hx hxid hdue => ?_,
    fun interval => ⟨fun m n hm hle => delay_mono hm hle interval, fun n => delay_le n interval⟩⟩
  obtain ⟨now, read, hnow, hdue⟩ := hdue
  obtain ⟨rest, hpending⟩ := List.head?_eq_some_iff.1 hid
  have hattempted : (id, o) ∈ w.attempted (.attempt o) := by
    rw [Scheduler.attempted, hpending]
    rfl
  have hstores : Stores w.service id o := hstore _ hattempted
  obtain ⟨hcount, hiff⟩ := attempt_rests_iff hspaced.reachable hbusy hstores hx hxid hnow hdue
  unfold Scheduler.step at hstep
  rw [hpending] at hstep
  dsimp only at hstep
  split at hstep
  · cases hstep
  cases hstep
  exact ⟨List.mem_append_right _ (List.mem_singleton_self _), hiff⟩

namespace Weekly

/-- A list is made, found due, and cannot be downloaded. -/
def events : List Event :=
  [.call (.create "web".toList "https://lists.example/hosts".toList true 604800) {}, .tick false 1 (fun _ => 1),
    .attempt { now := 2 }]

end Weekly

open Weekly in
theorem refresh_spacing_weekly : ∃ s w, start [] noLists = .ok s ∧
    run (Scheduler.step (fun _ => none)) { service := s, clock := 0 } events = some w ∧ w.attempts = [(1, 2)] ∧
    ∀ x ∈ w.service.sources, x.id = 1 → Rests 2 x := by
  have htest : (start [] noLists).toOption.any (fun s =>
      (run (Scheduler.step (fun _ => none)) { service := s, clock := 0 } events).any (fun w => w.attempts = [(1, 2)]) &&
        checks (Scheduler.step (fun _ => none)) (fun w e => decide (StoreSucceeds w e ∧ HasRoom w e))
          { service := s, clock := 0 } events) = true := by
    decide +kernel
  obtain ⟨s, hs, htest⟩ := (Option.any_eq_true _ _).1 htest
  rw [Bool.and_eq_true] at htest
  obtain ⟨w, hw, hattempts⟩ := (Option.any_eq_true _ _).1 htest.1
  have hattempts := of_decide_eq_true hattempts
  have hmeets := meets_mono (fun w e h => of_decide_eq_true h) (meets_of_checks htest.2)
  have hspacing := refresh_spacing (fun _ => none) (eq_ok_of_toOption hs) hw hmeets
  exact ⟨s, w, eq_ok_of_toOption hs, hw, hattempts, hspacing.1 (1, 2) (by rw [hattempts]; exact List.mem_singleton_self _)⟩

/-! ### Lists without room -/

/-- The store takes the outcome of a refresh when the names of the sources differ, and the domains of the list. -/
theorem stores_of_names {s : Service} (hc : Consistent s) {id : ℤ} {o : Outside} {x : Source} {i : ℕ}
    (hfind : s.find id = some (x, i)) (hfree : o.storeFails = none) (hnames : (s.sources.map Source.name).Nodup)
    (hn : (refreshed o x).domains.Nodup) : Stores s id o := by
  obtain ⟨hi, hid⟩ := find_eq_some hfind
  have hmem := List.mem_of_getElem? hi
  refine ⟨hfree, fun y hy hyid => ?_⟩
  obtain rfl := List.inj_on_of_nodup_map hc.nodup hy hmem (hyid.trans hid.symm)
  have hname : (refreshed o y).name = y.name := by
    unfold refreshed
    split <;> rfl
  have hpos := (hc.range y hy).1
  have hnew : ¬ (refreshed o y).id = 0 := by
    rw [refreshed_id]
    omega
  have hthere : s.repo.rows.any (fun z => z.id = (refreshed o y).id) = true := by
    refine List.any_eq_true.2 ⟨row y, hc.stored ▸ List.mem_map_of_mem hy, ?_⟩
    rw [decide_eq_true_eq, refreshed_id]
    rfl
  have hunique : ¬ s.repo.rows.any (fun z => z.id ≠ (refreshed o y).id && z.name = (refreshed o y).name) = true := by
    rw [List.any_eq_true, refreshed_id, hname]
    rintro ⟨z, hrow, h⟩
    rw [← hc.stored] at hrow
    obtain ⟨x, hx, rfl⟩ := List.mem_map.1 hrow
    rw [Bool.and_eq_true, decide_eq_true_eq, decide_eq_true_eq] at h
    have hsame : x = y := List.inj_on_of_nodup_map hnames hx hy h.2
    exact h.1 ((row_id x).trans (congrArg Source.id hsame))
  unfold Repo.saveSource
  rw [if_neg hnew, if_neg (not_not.2 hthere), if_neg hunique, if_neg (not_not.2 hn)]
  rfl

namespace Flood

/-- Domains that are all different. -/
def domain (i : ℕ) : Str := 'd' :: decimal i

def domains (n : ℕ) : List Str := (List.range n).map domain

/-- A list of them, one to a line. -/
def text (n : ℕ) : Str := ['\n'].intercalate (domains n)

theorem notMem_domain {c : Char} (hd : c ≠ 'd') (hc : c.isDigit = false) (i : ℕ) : c ∉ domain i := by
  intro h
  rcases List.mem_cons.1 h with h | h
  · exact hd h
  · exact notMem_decimal hc i h

theorem domain_chars (i : ℕ) : ∀ c ∈ domain i, Zones.labelChar c = true := by
  intro c hc
  rcases List.mem_cons.1 hc with rfl | hc
  · decide
  · have hdigit := Nat.isDigit_of_mem_toDigits (by decide) (by decide) hc
    simp [Zones.labelChar, hdigit]

theorem byteLen_domain {i : ℕ} (hi : i < 100000) : Zones.byteLen (domain i) ≤ 6 := by
  have hascii : ∀ c ∈ domain i, c.utf8Size = 1 := by
    intro c hc
    have hhost : hostChar c = true := by simp [hostChar, domain_chars i c hc]
    have hrange := hostChar_toNat hhost
    exact Utf8.utf8Size_eq_one.2 (by omega)
  have hdigits : (decimal i).length ≤ 5 := (Nat.length_toDigits_le_iff (by decide) (by decide)).2 hi
  rw [Zones.byteLen, List.map_congr_left hascii, List.map_const', List.sum_replicate, domain, List.length_cons, smul_eq_mul,
    mul_one]
  omega

theorem domain_listable {i : ℕ} (hi : i < 100000) : Listable (domain i) where
  name := by
    have hhost : ∀ c ∈ domain i, hostChar c = true := fun c hc => by simp [hostChar, domain_chars i c hc]
    have hlen := byteLen_domain hi
    have hdot : (domain i).getLast? ≠ some '.' := fun h =>
      notMem_domain (by decide) (by decide) i (List.mem_of_getLast? h)
    have hsplit : Ip.splitDots (domain i) = [domain i] :=
      List.splitOn_eq_singleton (notMem_domain (c := '.') (by decide) (by decide) i)
    refine name_eq_some.2 ⟨?_, List.cons_ne_nil _ _, by omega, ?_⟩
    · rw [trimSpaces_host hhost, lower_host hhost, trimDot, if_neg hdot, trimStar_host hhost]
    · have hlast : (domain i).getLast? ≠ some '-' := fun h =>
        notMem_domain (by decide) (by decide) i (List.mem_of_getLast? h)
      have hall : (domain i).all Zones.labelChar = true := List.all_eq_true.2 (domain_chars i)
      rw [hsplit, List.all_cons, List.all_nil, Bool.and_true, goodLabel, hall]
      simp only [Bool.and_true, Bool.and_eq_true, decide_eq_true_eq]
      exact ⟨⟨⟨List.cons_ne_nil _ _, by omega⟩, by simp [domain]⟩, hlast⟩
  noIP := by
    have hfind : (domain i).find? (fun c => c == '.' || c == ':' || c == '%') = none := by
      rw [List.find?_eq_none]
      intro c hc h
      rw [Bool.or_eq_true, Bool.or_eq_true, beq_iff_eq, beq_iff_eq, beq_iff_eq] at h
      rcases h with (rfl | rfl) | rfl
      · exact notMem_domain (by decide) (by decide) i hc
      · exact notMem_domain (by decide) (by decide) i hc
      · exact notMem_domain (by decide) (by decide) i hc
    rw [Ip.parseIP, Ip.parseAddr, hfind]
    rfl
  notLocal := by simp [localNames, domain]

theorem domains_nodup (n : ℕ) : (domains n).Nodup := by
  refine List.Nodup.map (fun i j h => ?_) List.nodup_range
  exact decimal_inj (List.cons.inj h).2

theorem length_domains (n : ℕ) : (domains n).length = n := by simp [domains]

theorem byteLen_intercalate {l : List Str} (h : ∀ d ∈ l, Zones.byteLen d ≤ 6) :
    Zones.byteLen (['\n'].intercalate l) ≤ 7 * l.length := by
  have happend : ∀ s t : Str, Zones.byteLen (s ++ t) = Zones.byteLen s + Zones.byteLen t := fun s t => by
    rw [Zones.byteLen, List.map_append, List.sum_append]
    rfl
  induction l with
  | nil => exact Nat.zero_le _
  | cons d l ih =>
    rw [List.forall_mem_cons] at h
    have hd := h.1
    cases l with
    | nil =>
      rw [List.intercalate_singleton, List.length_singleton]
      omega
    | cons d' l =>
      have hrest := ih h.2
      have hmark : Zones.byteLen ['\n'] = 1 := by decide
      rw [List.intercalate_cons_cons, happend, happend, hmark, List.length_cons]
      omega

theorem parse_text {n : ℕ} (hpos : 0 < n) (hn : n ≤ 100000) : parseHosts (text n) = .ok (domains n) := by
  have hall : ∀ d ∈ domains n, ∃ i < 100000, domain i = d := by
    intro d hd
    obtain ⟨i, hi, rfl⟩ := List.mem_map.1 hd
    exact ⟨i, lt_of_lt_of_le (List.mem_range.1 hi) hn, rfl⟩
  refine parseHosts_lines ?_ (domains_nodup n) ?_ (fun d hd => ?_) ?_
  · rw [ne_eq, ← List.length_eq_zero_iff, length_domains]
    omega
  · rw [length_domains]
    exact hn
  · obtain ⟨i, hi, rfl⟩ := hall d hd
    exact domain_listable hi
  · refine le_trans (byteLen_intercalate fun d hd => ?_) ?_
    · obtain ⟨i, hi, rfl⟩ := hall d hd
      exact byteLen_domain hi
    · rw [length_domains, maxListBytes]
      omega

/-- A download of a list of domains. -/
def brings (t : ℤ) (n : ℕ) : Outside := { now := t, download := .ok (text n) }

theorem fetch_brings {n : ℕ} (hpos : 0 < n) (hn : n ≤ 100000) (t : ℤ) : fetch (brings t n) = .ok (domains n) :=
  parse_text hpos hn

theorem refreshed_nodup {n : ℕ} (hpos : 0 < n) (hn : n ≤ 100000) (t : ℤ) (x : Source) :
    (refreshed (brings t n) x).domains.Nodup := by
  unfold refreshed
  rw [fetch_brings hpos hn]
  exact domains_nodup n

/-- A scheduled source. -/
def source (id : ℤ) (name : String) : Source :=
  { id := id, name := name.toList, url := "https://lists.example/hosts".toList, enabled := true, updateInterval := 3600 }

/-- It has been downloaded. -/
def loaded (t : ℤ) (n : ℕ) (x : Source) : Source :=
  { x with domainCount := n, domains := domains n, lastUpdatedAt := some t, lastAttemptAt := some t }

theorem counted_refreshed {n : ℕ} (hpos : 0 < n) (hn : n ≤ 100000) (t id : ℤ) (name : String) :
    counted (refreshed (brings t n) (source id name)) = loaded t n (source id name) := by
  unfold refreshed
  rw [fetch_brings hpos hn]
  dsimp only [counted, loaded, source]
  rw [length_domains]
  rfl

/-- The sources of a pass of `RefreshDue`, and those it still has to refresh. -/
structure Passes (w : Scheduler) (sources : List Source) (pending : List ℤ) (t : ℤ) : Prop where
  reachable : Reachable (fun _ => none) w.service
  sources_eq : w.service.sources = sources
  pending_eq : w.pending = pending
  clock_le : w.clock ≤ t

/-- A list that fits is stored. -/
theorem Passes.attempt {w : Scheduler} {sources : List Source} {rest : List ℤ} {id t : ℤ} {i : ℕ}
    (h : Passes w sources (id :: rest) t) (name : String) {t' : ℤ} (hle : t ≤ t') (n : ℕ) (hfind : w.service.find id = some (source id name, i))
    (hnames : (sources.map Source.name).Nodup) (hpos : 0 < n) (hn : n ≤ 100000) (hroom : Room w.service id (domains n)) :
    StoreSucceeds w (.attempt (brings t' n)) ∧ ∃ w', w.step (fun _ => none) (.attempt (brings t' n)) = some w' ∧
      Passes w' (sources.set i (loaded t' n (source id name))) rest t' ∧ w'.attempts = w.attempts ++ [(id, t')] := by
  have hc := h.reachable.consistent
  have hfetch := fetch_brings hpos hn t'
  have hstores : Stores w.service id (brings t' n) := by
    refine stores_of_names hc hfind rfl (by rwa [h.sources_eq]) ?_
    exact refreshed_nodup hpos hn t' _
  have hfits : RoomFor w.service id (brings t' n) := by
    intro ds hds
    rw [hfetch] at hds
    cases hds
    exact hroom
  obtain ⟨hset, hcount⟩ := refresh_saves (fun _ => none) hc (reachable_plain h.reachable) rfl hfind (by simp [source]) hstores
    hfits
  have hclock : ¬ (brings t' n).now < w.clock := not_lt.2 (h.clock_le.trans hle)
  refine ⟨fun a ha => ?_, ⟨_, t', rest, w.attempts ++ [(id, t')]⟩, ?_,
    ⟨.step (.refresh id) (brings t' n) h.reachable, ?_, rfl, le_refl t'⟩, rfl⟩
  · rw [Scheduler.attempted, h.pending_eq] at ha
    cases ha
    exact hstores
  · unfold Scheduler.step
    rw [h.pending_eq]
    dsimp only
    rw [if_neg hclock, if_pos hcount]
    rfl
  · rw [← counted_refreshed hpos hn, ← h.sources_eq]
    exact hset

/-- Three lists are made, and found due. -/
def made : List Event :=
  [.call (.create "a".toList "https://lists.example/hosts".toList true 3600) {},
    .call (.create "b".toList "https://lists.example/hosts".toList true 3600) {},
    .call (.create "c".toList "https://lists.example/hosts".toList true 3600) {}, .tick false 1 (fun _ => 1)]

/-- The first two leave no room for the third. -/
def flood : List Event := [.attempt (brings 2 100000), .attempt (brings 3 100000), .attempt (brings 4 50001)]

theorem made_run : ∃ s w, start [] noLists = .ok s ∧
    run (Scheduler.step (fun _ => none)) { service := s, clock := 0 } made = some w ∧
    Meets (Scheduler.step (fun _ => none)) StoreSucceeds { service := s, clock := 0 } made ∧
    Passes w [source 1 "a", source 2 "b", source 3 "c"] [1, 2, 3] 1 ∧ w.attempts = [] := by
  have htest : (start [] noLists).toOption.any (fun s =>
      (run (Scheduler.step (fun _ => none)) { service := s, clock := 0 } made).any (fun w => w.attempts = [] &&
        w.service.sources = [source 1 "a", source 2 "b", source 3 "c"] && w.pending = [1, 2, 3] && w.clock ≤ 1) &&
        checks (Scheduler.step (fun _ => none)) (fun w e => decide (StoreSucceeds w e)) { service := s, clock := 0 } made) =
      true := by
    decide +kernel
  obtain ⟨s, hs, htest⟩ := (Option.any_eq_true _ _).1 htest
  have hs := eq_ok_of_toOption hs
  rw [Bool.and_eq_true] at htest
  obtain ⟨w, hw, hstate⟩ := (Option.any_eq_true _ _).1 htest.1
  simp only [Bool.and_eq_true, decide_eq_true_eq] at hstate
  obtain ⟨⟨⟨hattempts, hsources⟩, hpending⟩, hclock⟩ := hstate
  have hreachable : Reachable (fun _ => none) w.service := by
    exact run_keeps (P := fun w => Reachable (fun _ => none) w.service) (fun w e w' h hstep => step_reachable h hstep) hw
      (.first hs)
  exact ⟨s, w, hs, hw, meets_mono (fun w e h => of_decide_eq_true h) (meets_of_checks htest.2),
    ⟨hreachable, hsources, hpending, hclock⟩, hattempts⟩

end Flood

open Flood in
/-- The third download is tried again and again: a refresh that does not fit is not written down. -/
theorem refresh_flood : ∃ s w, start [] noLists = .ok s ∧
    run (Scheduler.step (fun _ => none)) { service := s, clock := 0 } (made ++ flood) = some w ∧
    Meets (Scheduler.step (fun _ => none)) StoreSucceeds { service := s, clock := 0 } (made ++ flood) ∧
    (3, 4) ∈ w.attempts ∧ ∃ x ∈ w.service.sources, x.id = 3 ∧ due 4 4 x = true ∧ ¬ Rests 4 x := by
  obtain ⟨s, w, hs, hw, hmeets, hpass, -⟩ := made_run
  have hlist := length_domains
  obtain ⟨hstore, w₁, hw₁, hpass₁, -⟩ := hpass.attempt "a" (show 1 ≤ 2 by omega) 100000 (i := 0)
    (by rw [Service.find, hpass.sources_eq]; rfl) (by decide) (by omega) (by omega)
    (by rw [Room, hpass.sources_eq]; simp [source, hlist, maxTotalDomains])
  obtain ⟨hstore₁, w₂, hw₂, hpass₂, -⟩ := hpass₁.attempt "b" (show 2 ≤ 3 by omega) 100000 (i := 1)
    (by rw [Service.find, hpass₁.sources_eq]; rfl) (by decide) (by omega) (by omega)
    (by rw [Room, hpass₁.sources_eq]; simp [source, loaded, hlist, maxTotalDomains])
  have hsources := hpass₂.sources_eq
  have hc := hpass₂.reachable.consistent
  have hfind : w₂.service.find 3 = some (source 3 "c", 2) := by
    rw [Service.find, hsources]
    rfl
  have hmem : source 3 "c" ∈ w₂.service.sources := List.mem_of_getElem? (find_eq_some hfind).1
  have hfetch : fetch (brings 4 50001) = .ok (domains 50001) := fetch_brings (by omega) (by omega) 4
  have hroom : ¬ RoomFor w₂.service 3 (brings 4 50001) := by
    intro h
    have hle := h (domains 50001) (by rw [hfetch]; rfl)
    rw [Room, hsources] at hle
    simp [source, loaded, hlist, maxTotalDomains] at hle
  have hstores : Stores w₂.service 3 (brings 4 50001) := by
    refine stores_of_names hc hfind rfl (by rw [hsources]; decide) ?_
    exact refreshed_nodup (by omega) (by omega) 4 _
  obtain ⟨hstate, hcount⟩ := refresh_unrecorded (fun _ => none) hc (reachable_plain hpass₂.reachable) rfl hfind
    (by simp [source]) hroom
  have hclock : ¬ (brings 4 50001).now < w₂.clock := not_lt.2 (hpass₂.clock_le.trans (by decide))
  have hw₃ : w₂.step (fun _ => none) (.attempt (brings 4 50001)) =
      some { service := w₂.service, clock := 4, pending := [], attempts := w₂.attempts ++ [(3, 4)] } := by
    unfold Scheduler.step
    rw [hpass₂.pending_eq]
    dsimp only
    rw [if_neg hclock, hstate, if_pos hcount]
    rfl
  have hstore₂ : StoreSucceeds w₂ (.attempt (brings 4 50001)) := by
    intro a ha
    rw [Scheduler.attempted, hpass₂.pending_eq] at ha
    cases ha
    exact hstores
  have hdue : due 4 4 (source 3 "c") = true := by decide
  refine ⟨s, ⟨w₂.service, 4, [], w₂.attempts ++ [(3, 4)]⟩, hs, ?_, meets_append hmeets fun w' hw' => ?_,
    List.mem_append_right w₂.attempts (List.mem_singleton_self _), source 3 "c", hmem, rfl, hdue,
    due_again hdue (le_refl 4) (by decide)⟩
  · rw [run_append, hw, Option.bind_some, flood, run_cons, hw₁, Option.bind_some, run_cons, hw₂, Option.bind_some, run_cons,
      hw₃]
    rfl
  · cases hw.symm.trans hw'
    refine ⟨hstore, fun v hv => ?_⟩
    cases hw₁.symm.trans hv
    refine ⟨hstore₁, fun v hv => ?_⟩
    cases hw₂.symm.trans hv
    exact ⟨hstore₂, fun _ _ => trivial⟩

end Velora.Filtering
