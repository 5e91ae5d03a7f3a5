import Velora.Zones.Consistent

/-!
# The zone service over its runs

In every run of the service, whatever the repository answers and in whatever order the calls get the mutex, each call that
is done leaves the service and its repository in agreement (`service_agrees`). A call that fails has changed nothing. A zone
is updated once from each of its revisions: the one that succeeds leaves it past that revision (`Passed`), where it stays.
-/

namespace Velora.Zones

open Velora.Lib Velora.Lib.Text Velora.Lib.Loops Velora.Wire Velora.Dns

section

variable {lib : Miekg} {st : Store} {db : Repo} {s : Snapshot} {z : Zone}

/-! ### What a call does -/

/-- The zone has been at this revision and is not any more. -/
def Passed (db : Repo) (id : ℤ) (revision : UInt32) : Prop :=
  id ≤ db.zoneSeq ∧ ∀ z, db.zones.find? (fun x => x.id = id) = some z → revision < z.revision

/-- What one call does. -/
structure Did (lib : Miekg) (d : Done Store Call (Except Err Zone)) : Prop where
  consistent : Consistent lib d.after
  failed : ∀ e, d.result = .error e → d.after = d.before
  flushed : ∀ z, d.result = .ok z → d.after.flushes = d.before.flushes + 1
  raised : ∀ id revision z saved, d.call = .update id revision z → d.result = .ok saved →
    saved.revision.toNat = revision.toNat + 1 ∧
      (∃ old, d.before.repo.zones.find? (fun x => x.id = id) = some old ∧ old.revision = revision) ∧
      d.after.repo.zones.find? (fun x => x.id = id) = some (Repo.row saved)
  passed : ∀ id revision, Passed d.before.repo id revision → Passed d.after.repo id revision

/-- A call that fails without having changed anything. -/
theorem did_nothing {c : Call} {e : Err} (h : Consistent lib st) : Did lib ⟨c, st, .error e, st⟩ where
  consistent := h
  failed _ _ := rfl
  flushed z hz := by cases hz
  raised _ _ _ _ _ hz := by cases hz
  passed _ _ hp := hp

/-- A revision that is not the last has a next one. -/
theorem toNat_next {revision : UInt32} (hmax : revision ≠ maxUint32) : (revision + 1).toNat = revision.toNat + 1 := by
  have hlt : revision.toNat ≠ 4294967295 := fun heq => hmax (UInt32.toNat_inj.1 heq)
  have := revision.toNat_lt
  rw [UInt32.toNat_add]
  simp only [UInt32.toNat_one]
  omega

/-- A zone that is stored over an older revision of its own, or new, has passed the revisions that were passed. -/
theorem Effect.passed {c : Call} {st' : Store} (h : Consistent lib st) (he : Effect lib st c z st') (id : ℤ)
    (revision : UInt32) (hp : Passed st.repo id revision) : Passed st'.repo id revision := by
  obtain ⟨hle, hp⟩ := hp
  cases he with
  | create hstored hid hseq =>
    refine ⟨by omega, fun x hx => hp x ?_⟩
    rw [hstored.find, if_neg (by omega)] at hx
    exact hx
  | update hold hrev hmax hstored hid hseq =>
    refine ⟨by omega, fun x hx => ?_⟩
    rw [hstored.find] at hx
    split at hx
    · rename_i hi
      cases hx
      have hlt := hp _ (by rw [← h.holds, hi, hid, hold, Option.map_some])
      have hsaved : (Repo.row z).revision = z.revision := rfl
      have hbefore : (Repo.row _).revision = _ := hrev
      have hnext := hstored.revision
      dsimp only at hnext
      rw [hbefore] at hlt
      rw [hsaved, hnext]
      rw [UInt32.lt_iff_toNat_lt] at hlt ⊢
      rw [toNat_next hmax]
      omega
    · exact hp x hx
  | delete hold hrev hremoved hseq =>
    refine ⟨by omega, fun x hx => ?_⟩
    rw [hremoved.find] at hx
    split at hx
    · cases hx
    · exact hp x hx

theorem did_of_outcome {c : Call} {r : Except Err Zone} {st' : Store} (h : Consistent lib st)
    (hout : Outcome lib st c r st') : Did lib ⟨c, st, r, st'⟩ := by
  rcases hout with ⟨e, rfl, rfl⟩ | ⟨z, rfl, heff⟩
  · exact did_nothing h
  · refine ⟨heff.consistent, by simp, fun _ _ => heff.flushes, ?_, heff.passed h⟩
    rintro id revision z' saved rfl ⟨⟩
    cases heff with
    | update hold hrev hmax hstored hid hseq =>
      have hbefore := h.holds id
      rw [hold, Option.map_some] at hbefore
      refine ⟨?_, ⟨_, hbefore.symm, hrev⟩, by rw [hstored.find, if_pos hid.symm]⟩
      rw [hstored.revision]
      exact toNat_next hmax

theorem call_did (c : Call) (st : Store) (h : Consistent lib st) :
    (c.body lib).wp act (fun r st' => Consistent lib st' ∧ Did lib ⟨c, st, r, st'⟩) st := by
  refine Prog.wp_mono (wp_body h c) fun r st' hout => ?_
  have hdid := did_of_outcome h hout
  exact ⟨hdid.consistent, hdid⟩

/-! ### Every run -/

/-- An update of a zone from a revision that succeeds. -/
def Updates (id : ℤ) (revision : UInt32) (d : Done Store Call (Except Err Zone)) : Prop :=
  (∃ z, d.call = .update id revision z) ∧ ∃ saved, d.result = .ok saved

theorem Did.before_update {d : Done Store Call (Except Err Zone)} {id : ℤ} {revision : UInt32} (h : Did lib d)
    (hu : Updates id revision d) : ¬ Passed d.before.repo id revision := by
  obtain ⟨⟨z, hcall⟩, saved, hresult⟩ := hu
  obtain ⟨-, ⟨old, hold, hrev⟩, -⟩ := h.raised id revision z saved hcall hresult
  intro hp
  have := hp.2 old hold
  rw [hrev] at this
  exact absurd this (by simp)

theorem Did.after_update {d : Done Store Call (Except Err Zone)} {id : ℤ} {revision : UInt32} (h : Did lib d)
    (hu : Updates id revision d) : Passed d.after.repo id revision := by
  obtain ⟨⟨z, hcall⟩, saved, hresult⟩ := hu
  obtain ⟨hnat, -, hafter⟩ := h.raised id revision z saved hcall hresult
  obtain ⟨hmem, hid⟩ := (Keyed.find?_eq_some h.consistent.sound.ids).1 hafter
  refine ⟨hid ▸ (h.consistent.sound.range _ hmem).2, fun x hx => ?_⟩
  rw [hafter, Option.some.injEq] at hx
  rw [← hx, UInt32.lt_iff_toNat_lt]
  have hval : (Repo.row saved).revision = saved.revision := rfl
  rw [hval]
  omega

/-- In a sequence of calls one update at most from a revision succeeds, and then the zone has passed it. -/
theorem serial_updates {log : List (Done Store Call (Except Err Zone))} {id : ℤ} {revision : UInt32}
    (h : Monitor.Serial (Did lib) st log) :
    (∀ d ∈ log, Updates id revision d → Passed (Monitor.left st log).repo id revision) ∧
      log.Pairwise (fun d d' => ¬ (Updates id revision d ∧ Updates id revision d')) := by
  induction log with
  | nil => exact ⟨by simp, List.Pairwise.nil⟩
  | cons d log ih =>
    obtain ⟨hbefore, hdid, hserial⟩ := h
    obtain ⟨ihpassed, ihpair⟩ := ih hserial
    have hleft : Monitor.left st (d :: log) = d.after := rfl
    rw [hleft]
    refine ⟨?_, List.pairwise_cons.2 ⟨?_, ihpair⟩⟩
    · intro x hx hu
      rcases List.mem_cons.1 hx with rfl | hx
      · exact hdid.after_update hu
      · refine hdid.passed id revision ?_
        rw [hbefore]
        exact ihpassed x hx hu
    · rintro x hx ⟨hud, hux⟩
      refine hdid.before_update hud ?_
      rw [hbefore]
      exact ihpassed x hx hux

/-- What has to hold after a call: the tables are sound, the snapshot holds their zones and is what `compile` makes of them,
and a new service would answer in the same way. -/
structure Agrees (lib : Miekg) (st : Store) : Prop where
  tables : st.repo.Sound
  zones : ∀ id, (st.published.byID.lookup id).map Repo.row = st.repo.zones.find? (fun z => z.id = id)
  index : ∃ s, compile lib st.published.list = .ok s ∧ (∀ id, s.byID.lookup id = st.published.byID.lookup id) ∧
    ∀ name, s.byName.lookup name = st.published.byName.lookup name
  reload : ∃ s, start lib st.repo = .ok s ∧ ∀ q, Option.Rel Shuffled (st.published.lookup q) (s.lookup q)

theorem Consistent.agrees (h : Consistent lib st) : Agrees lib st := ⟨h.sound, h.holds, h.index, h.reload⟩

/-- **The zone service agrees with its repository**, in every run of calls under its mutex and whatever the repository
answers. -/
theorem service_agrees (hdb : db.Sound) (hstart : start lib db = .ok s) (es : List (Monitor.Event Call (Option Err)))
    (m : Service) (hrun : run (Service.step lib) { shared := ⟨s, db, 0⟩ } es = some m) :
    (m.busy = none → Agrees lib m.shared) ∧
      (∀ d ∈ m.log, Agrees lib d.after ∧ (∀ e, d.result = .error e → d.after = d.before) ∧
        ∀ id revision z saved, d.call = .update id revision z → d.result = .ok saved →
          saved.revision.toNat = revision.toNat + 1 ∧
            (d.before.repo.zones.find? (fun x => x.id = id)).map Zone.revision = some revision ∧
            (d.after.repo.zones.find? (fun x => x.id = id)).map Zone.revision = some saved.revision) ∧
      ∀ id revision, m.log.Pairwise (fun d d' => ¬ (Updates id revision d ∧ Updates id revision d')) := by
  have hkeeps := Monitor.run_serial (C := Consistent lib) (P := Did lib) call_did (start_consistent hdb hstart) hrun
  refine ⟨fun hfree => ?_, fun d hd => ?_, fun id revision => (serial_updates hkeeps.serial).2⟩
  · rw [hkeeps.free hfree]
    exact hkeeps.left.agrees
  · have hdid := Monitor.serial_mem hkeeps.serial d hd
    refine ⟨hdid.consistent.agrees, hdid.failed, fun id revision z saved hcall hresult => ?_⟩
    obtain ⟨hnat, ⟨old, hold, hrev⟩, hafter⟩ := hdid.raised id revision z saved hcall hresult
    refine ⟨hnat, ?_, ?_⟩
    · rw [hold, Option.map_some, hrev]
    · rw [hafter]
      rfl

end

namespace Sample

def lib : Miekg := .ideal []

/-- The records of a zone `lan` with one host. -/
def zone (address : String) : Zone where
  id := 0
  name := "lan".toList
  primaryNS := []
  contact := []
  revision := 0
  records := [⟨0, "www".toList, "A".toList, 300, address.toList, 0⟩]

/-- The zone is created, and of two updates from its first revision one is refused. -/
def events : List (Monitor.Event Call (Option Err)) :=
  .enter (.create (zone "192.0.2.1")) :: List.replicate 4 (.turn none) ++ .leave ::
    .enter (.update 1 1 (zone "192.0.2.2")) :: List.replicate 5 (.turn none) ++ .leave ::
      .enter (.update 1 1 (zone "192.0.2.3")) :: .turn none :: [.leave]

end Sample

open Velora.Zones.Sample in
theorem service_agrees_sample :
    ∃ m, run (Service.step Sample.lib) { shared := ⟨{}, {}, 0⟩ } events = some m ∧
      m.log.map (fun d => d.result.toOption.map Zone.revision) = [none, some 2, some 1] ∧ Agrees Sample.lib m.shared := by
  have hrun : (run (Service.step Sample.lib) { shared := ⟨{}, {}, 0⟩ } events).map (fun m =>
      (m.busy.isNone, m.log.map (fun d => d.result.toOption.map Zone.revision))) =
      some (true, [none, some 2, some 1]) := by
    decide +kernel
  obtain ⟨m, hm, hparts⟩ := Option.map_eq_some_iff.1 hrun
  rw [Prod.mk.injEq, Option.isNone_iff_eq_none] at hparts
  exact ⟨m, hm, hparts.2, (service_agrees Repo.sound_empty rfl events m hm).1 hparts.1⟩

end Velora.Zones
