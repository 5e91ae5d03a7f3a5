import Velora.Zones.Consistent

/-!
# When a call of the zone service succeeds

A call that runs alone against a repository that does not fail succeeds exactly when `compile` accepts the zones it would
leave (`create_succeeds_iff`, `update_succeeds_iff`, `delete_succeeds_iff`): the checks of the tables never refuse what the
service has accepted.
-/

namespace Velora.Zones

open Velora.Lib Velora.Lib.Text Velora.Lib.Loops Velora.Wire Velora.Dns

/-- `compile` accepts the zones. -/
def Accepts (lib : Miekg) (zs : List Zone) : Prop := ∃ s, compile lib zs = .ok s

section

variable {lib : Miekg} {st : Store} {db : Repo} {zs zs' : List Zone} {z : Zone}

/-- `compile` accepts like zones alike. -/
theorem accepts_similar (h : Similar zs zs') (hn : AllNormal zs) (hids : ∀ z ∈ zs, IdsOk z.records)
    (hids' : ∀ z ∈ zs', IdsOk z.records) : Accepts lib zs ↔ Accepts lib zs' := by
  constructor
  · rintro ⟨s, hs⟩
    obtain ⟨s', hs', -⟩ := compile_alike h hids' hn hs
    exact ⟨s', hs'⟩
  · rintro ⟨s, hs⟩
    obtain ⟨s', hs', -⟩ := compile_alike h.symm hids (h.allNormal hn) hs
    exact ⟨s', hs'⟩

/-! ### The tables -/

theorem Repo.insertRecords_new {taken : List ℤ} {seq : ℤ} {rs : List Record} (htaken : ∀ i ∈ taken, i ≤ seq)
    (hrs : ∀ r ∈ rs, r.id = 0) : ∃ out seq', Repo.insertRecords taken seq rs = .ok (out, seq') := by
  induction rs generalizing taken seq with
  | nil => exact ⟨[], seq, rfl⟩
  | cons r rs ih =>
    have hr : r.id = 0 := hrs r (by simp)
    have hfree : seq + 1 ∉ taken := fun hmem => by
      have := htaken _ hmem
      omega
    obtain ⟨out, seq', hrest⟩ := @ih ((seq + 1) :: taken) (max seq (seq + 1))
      (fun i hi => by
        rcases List.mem_cons.1 hi with rfl | hi
        · omega
        · have := htaken i hi
          omega)
      (fun x hx => hrs x (by simp [hx]))
    refine ⟨{ r with id := seq + 1 } :: out, seq', ?_⟩
    simp only [Repo.insertRecords, hr, ne_eq, not_true_eq_false, if_false, if_neg hfree, hrest]

theorem Repo.Sound.recordIDs_le (h : db.Sound) (except : ℤ) : ∀ i ∈ db.recordIDs except, i ≤ db.recordSeq := by
  intro i hi
  obtain ⟨z, hz, hi⟩ := List.mem_flatMap.1 hi
  obtain ⟨r, hr, rfl⟩ := List.mem_map.1 hi
  exact (h.records z (List.mem_of_mem_filter hz) r hr).2

theorem Repo.saveZone_new_ok (h : db.Sound) (hrev : z.revision ≠ 0) (hname : ∀ x ∈ db.zones, x.name ≠ z.name)
    (hrs : ∀ r ∈ z.records, r.id = 0) : ∃ saved db', db.saveZone z 0 = .ok (saved, db') := by
  obtain ⟨out, seq, hout⟩ := Repo.insertRecords_new (h.recordIDs_le (db.zoneSeq + 1)) hrs
  simp only [Repo.saveZone, if_true, if_neg hrev]
  rw [if_neg (by simpa using hname), hout]
  exact ⟨_, _, rfl⟩

theorem Repo.saveZone_over_ok {old : Zone} {expected : UInt32} (h : db.Sound) (hne : expected ≠ 0) (hrev : z.revision ≠ 0)
    (hold : old ∈ db.zones) (hid : old.id = z.id) (holdrev : old.revision = expected)
    (hname : ∀ x ∈ db.zones, x.id ≠ z.id → x.name ≠ z.name) (hrs : ∀ r ∈ z.records, r.id = 0) :
    ∃ saved db', db.saveZone z expected = .ok (saved, db') := by
  obtain ⟨out, seq, hout⟩ := Repo.insertRecords_new (h.recordIDs_le z.id) hrs
  simp only [Repo.saveZone, if_neg hne]
  rw [if_neg, if_neg hrev, if_neg, hout]
  · exact ⟨_, _, rfl⟩
  · simpa using fun x hx hxid => hname x hx hxid
  · simpa using ⟨old, hold, hid, holdrev⟩

/-! ### Calls -/

/-- A call that runs alone comes to an end. -/
theorem exec_body (p : Script) (x : Option Err) (st : Store) : ∃ r st', p.exec act x st = some (r, st') := by
  induction p generalizing st with
  | done r => exact ⟨r, st, rfl⟩
  | call op k ih =>
    rw [Prog.exec_call]
    have hact : ∃ a st', act op x st = some (a, st') := by
      cases op with
      | load => exact ⟨_, _, rfl⟩
      | saveZone z expected =>
        cases x with
        | some e => exact ⟨_, _, rfl⟩
        | none =>
          simp only [act]
          split
          · exact ⟨_, _, rfl⟩
          · exact ⟨_, _, rfl⟩
      | deleteZone id expected =>
        cases x with
        | some e => exact ⟨_, _, rfl⟩
        | none =>
          simp only [act]
          split
          · exact ⟨_, _, rfl⟩
          · exact ⟨_, _, rfl⟩
      | store next => exact ⟨_, _, rfl⟩
      | invalidate => exact ⟨_, _, rfl⟩
    obtain ⟨a, st', hact⟩ := hact
    rw [hact]
    exact ih a st'

/-- The run of `save` against a repository that does not fail. -/
theorem exec_save {expected : UInt32} : (∃ saved st', (save lib z expected).exec act none st = some (.ok saved, st')) ↔
    ∃ next saved db', compile lib (st.published.list.eraseP (fun old => old.id = z.id) ++ [z]) = .ok next ∧
      st.repo.saveZone ((next.byID.lookup z.id).getD default) expected = .ok (saved, db') := by
  simp only [save, Prog.ask_bind, Prog.pure_eq, Prog.exec_call, act, Option.bind_some]
  cases hc : compile lib (st.published.list.eraseP (fun old => old.id = z.id) ++ [z]) with
  | error e => simp
  | ok next =>
    simp only [Prog.exec_call, act, Except.ok.injEq]
    cases hs : st.repo.saveZone ((next.byID.lookup z.id).getD default) expected with
    | error e => simp [hs]
    | ok r =>
      obtain ⟨saved, db'⟩ := r
      simp [hs, Prog.exec_call, act]

/-- The names of the tables are those of the published zones. -/
theorem Consistent.name_mem (h : Consistent lib st) {x : Zone} (hx : x ∈ st.repo.zones) :
    ∃ y ∈ st.published.list, y.id = x.id ∧ y.name = x.name := by
  obtain ⟨y, hy, rfl⟩ := List.mem_map.1 (h.list_perm.mem_iff.2 hx)
  exact ⟨y, hy, rfl, rfl⟩

/-- What `save` has accepted, the tables take. -/
theorem save_succeeds_iff {expected : UInt32} (h : Consistent lib st) (hz : NormalZone z) (hrev : z.revision ≠ 0)
    (hrs : ∀ r ∈ z.records, r.id = 0)
    (hplace : (expected = 0 ∧ ∀ x ∈ st.published.list, x.id ≠ z.id) ∨
      (expected ≠ 0 ∧ ∃ old, st.published.byID.lookup z.id = some old ∧ old.revision = expected)) :
    (∃ saved st', (save lib z expected).exec act none st = some (.ok saved, st')) ↔
      Accepts lib (st.published.list.filter (fun x => x.id ≠ z.id) ++ [z]) := by
  rw [exec_save]
  constructor
  · rintro ⟨next, -, -, hc, -⟩
    obtain ⟨z', hz', hc', -, -⟩ := compiled_of_save h hc
    rw [show normalize z = .ok z from hz] at hz'
    cases hz'
    exact ⟨next, hc'⟩
  · rintro ⟨next, hc⟩
    have hc' := hc
    rw [← eraseP_id_eq_filter h.list_ids] at hc'
    obtain ⟨z', hz', -, hlookup, -⟩ := compiled_of_save h hc'
    rw [show normalize z = .ok z from hz] at hz'
    cases hz'
    have hnormal : AllNormal (st.published.list.filter (fun x => x.id ≠ z.id) ++ [z]) := by
      intro x hx
      rcases List.mem_append.1 hx with hx | hx
      · exact h.list_normal x (List.mem_of_mem_filter hx)
      · rw [List.mem_singleton.1 hx]
        exact hz
    -- no other zone has the name
    have hname : ∀ x ∈ st.repo.zones, x.id ≠ z.id → x.name ≠ z.name := by
      intro x hx hxid hxn
      obtain ⟨-, total, hindex, -⟩ := compile_eq_ok.1 hc
      have hnodup := ((index_ok_iff hnormal).1.1 ⟨_, hindex⟩).1
      rw [List.map_append, List.nodup_append] at hnodup
      obtain ⟨y, hy, hyid, hyn⟩ := h.name_mem hx
      refine hnodup.2.2 y.name (List.mem_map_of_mem ?_) z.name (by simp) (hyn.trans hxn)
      exact List.mem_filter.2 ⟨hy, by simpa [hyid] using hxid⟩
    rw [exists_comm]
    suffices hsave : ∃ saved db', st.repo.saveZone z expected = .ok (saved, db') by
      obtain ⟨saved, db', hsave⟩ := hsave
      exact ⟨saved, next, db', hc', by rw [hlookup, Option.getD_some]; exact hsave⟩
    rcases hplace with ⟨rfl, hfresh⟩ | ⟨hne, old, hold, holdrev⟩
    · refine Repo.saveZone_new_ok h.sound hrev (fun x hx => hname x hx ?_) hrs
      obtain ⟨y, hy, hyid, -⟩ := h.name_mem hx
      rw [← hyid]
      exact hfresh y hy
    · obtain ⟨hid, hrow⟩ := h.row_mem hold
      exact Repo.saveZone_over_ok h.sound hne hrev hrow hid holdrev hname hrs

theorem normal_with {id : ℤ} {revision : UInt32} (hz : NormalZone z) :
    NormalZone { z with id := id, revision := revision } := by
  have halike : z.Alike { z with id := id, revision := revision } := ⟨rfl, rfl, rfl, .refl _⟩
  exact halike.normal hz

/-- Whether a zone is accepted beside others does not depend on its identity. -/
theorem accepts_snoc_with {id : ℤ} {revision : UInt32} (hzs : AllNormal zs) (hids : ∀ x ∈ zs, IdsOk x.records)
    (hz : NormalZone z) (hzids : IdsOk z.records) :
    Accepts lib (zs ++ [{ z with id := id, revision := revision }]) ↔ Accepts lib (zs ++ [z]) := by
  have halike : z.Alike { z with id := id, revision := revision } := ⟨rfl, rfl, rfl, .refl _⟩
  have hall : ∀ w : Zone, IdsOk w.records → ∀ x ∈ zs ++ [w], IdsOk x.records := by
    intro w hw x hx
    rcases List.mem_append.1 hx with hx | hx
    · exact hids x hx
    · rw [List.mem_singleton.1 hx]
      exact hw
  refine (accepts_similar (similar_snoc zs halike) (fun x hx => ?_) (hall z hzids) (hall _ hzids)).symm
  rcases List.mem_append.1 hx with hx | hx
  · exact hzs x hx
  · rw [List.mem_singleton.1 hx]
    exact hz

theorem idsOk_new {rs : List Record} (h : ∀ r ∈ rs, r.id = 0) : IdsOk rs where
  nonneg r hr := (h r hr).ge
  distinct := by
    rw [List.pairwise_map]
    refine List.Pairwise.imp_of_mem (fun {a b} ha _ _ => ?_) (List.pairwise_of_forall (R := fun _ _ => True) fun _ _ => trivial)
    exact fun _ => (h a ha).le

theorem Consistent.list_idsOk (h : Consistent lib st) : ∀ x ∈ st.published.list, IdsOk x.records :=
  fun _ hx => idsOk_of_row h.sound (h.list_row hx)

/-- **When `Create` succeeds.** -/
theorem create_succeeds_iff (h : Consistent lib st) (hz : NormalZone z) (hid : z.id = 0) (hrev : z.revision = 0)
    (hrs : ∀ r ∈ z.records, r.id = 0) :
    (∃ saved st', (create lib z).exec act none st = some (.ok saved, st')) ↔ Accepts lib (st.published.list ++ [z]) := by
  have hfresh : ∀ x ∈ st.published.list, x.id ≠ 0 := by
    intro x hx h0
    have := (h.sound.range _ (h.list_row hx)).1
    have hrow : (Repo.row x).id = x.id := rfl
    omega
  have hall : st.published.list.filter (fun x => x.id ≠ z.id) = st.published.list :=
    List.filter_eq_self.2 fun x hx => by simpa [hid] using hfresh x hx
  unfold create
  rw [if_neg (by simp [hid, hrev]), if_neg (by simpa using hrs),
    save_succeeds_iff h (z := { z with revision := 1 }) (normal_with hz) (by simp) hrs (Or.inl ⟨rfl, by simpa [hid] using hfresh⟩)]
  dsimp only
  rw [hall]
  exact @accepts_snoc_with _ _ _ z.id _ h.list_normal h.list_idsOk hz (idsOk_new hrs)

/-- **When `Update` succeeds.** -/
theorem update_succeeds_iff {id : ℤ} {revision : UInt32} {old : Zone} (h : Consistent lib st)
    (hold : st.published.byID.lookup id = some old) (hrev : old.revision = revision) (hz : NormalZone z)
    (hrs : ∀ r ∈ z.records, r.id = 0) :
    (∃ saved st', (update lib id revision z).exec act none st = some (.ok saved, st')) ↔
      revision ≠ maxUint32 ∧ Accepts lib (st.published.list.filter (fun x => x.id ≠ id) ++ [z]) := by
  obtain ⟨-, hrow⟩ := h.row_mem hold
  have hne : revision ≠ 0 := fun h0 => h.sound.revisions _ hrow (hrev.trans h0)
  simp only [update, Prog.ask_bind, Prog.pure_eq, Prog.exec_call, act, Option.bind_some, hold]
  by_cases hmax : revision = maxUint32
  · rw [if_pos (Or.inr hmax)]
    simp [hmax]
  · have hnext : revision + 1 ≠ 0 := by
      intro h0
      have hsum := congrArg UInt32.toNat h0
      rw [UInt32.toNat_add] at hsum
      have hlt : revision.toNat ≠ 4294967295 := fun heq => hmax (UInt32.toNat_inj.1 heq)
      have := revision.toNat_lt
      simp only [UInt32.toNat_one, UInt32.toNat_zero] at hsum
      omega
    rw [if_neg (by simp [hrev, hmax]), if_neg (by
      rw [List.any_eq_true]
      rintro ⟨r, hr, hbad⟩
      simp [hrs r hr] at hbad)]
    rw [save_succeeds_iff h (z := { z with id := id, revision := revision + 1 }) (normal_with hz) hnext hrs
      (Or.inr ⟨hne, old, hold, hrev⟩)]
    dsimp only
    rw [accepts_snoc_with (fun x hx => h.list_normal x (List.mem_of_mem_filter hx))
      (fun x hx => h.list_idsOk x (List.mem_of_mem_filter hx)) hz (idsOk_new hrs)]
    simp [hmax]

/-- **When `Delete` succeeds.** -/
theorem delete_succeeds_iff {id : ℤ} {revision : UInt32} {old : Zone} (h : Consistent lib st)
    (hold : st.published.byID.lookup id = some old) (hrev : old.revision = revision) :
    (∃ z st', (delete lib id revision).exec act none st = some (.ok z, st')) ↔
      Accepts lib (st.published.list.filter (fun x => x.id ≠ id)) := by
  obtain ⟨hid, hrow⟩ := h.row_mem hold
  have hfound : st.repo.zones.any (fun x => x.id = id && x.revision = revision) = true := by
    rw [List.any_eq_true]
    refine ⟨_, hrow, ?_⟩
    have hrowid : (Repo.row old).id = id := hid
    have hrowrev : (Repo.row old).revision = revision := hrev
    simp [hrowid, hrowrev]
  simp only [delete, Prog.ask_bind, Prog.pure_eq, Prog.exec_call, act, Option.bind_some, hold]
  rw [if_neg (by simp [hrev]), eraseP_id_eq_filter h.list_ids]
  unfold Accepts
  cases hc : compile lib (st.published.list.filter (fun x => x.id ≠ id)) with
  | error e => simp
  | ok next => simp [Prog.exec_call, act, Repo.deleteZone, hfound]

/-! ### What is published after a call -/

/-- The zones that are published after a save. -/
theorem Stored.list_perm {saved : Zone} {st' : Store} (h : Consistent lib st) (hs : Stored lib st z saved st') :
    st'.published.list.Perm (saved :: st.published.list.filter (fun x => x.id ≠ saved.id)) := by
  refine Snapshot.list_perm ?_ fun i => ?_
  · rw [List.map_cons, List.nodup_cons]
    refine ⟨fun hmem => ?_, (List.filter_sublist.map _).nodup h.list_ids⟩
    obtain ⟨x, hx, hxi⟩ := List.mem_map.1 hmem
    simpa [hxi] using (List.mem_filter.1 hx).2
  · rw [hs.lookup, List.find?_cons, find?_id_filter, ← h.lookup_eq]
    by_cases hi : i = saved.id
    · simp [hi]
    · simp [hi, Ne.symm hi]

theorem Removed.list_perm {id : ℤ} {st' : Store} (h : Consistent lib st) (hr : Removed lib st id st') :
    st'.published.list.Perm (st.published.list.filter (fun x => x.id ≠ id)) := by
  refine Snapshot.list_perm ((List.filter_sublist.map _).nodup h.list_ids) fun i => ?_
  rw [hr.lookup, find?_id_filter, ← h.lookup_eq]

/-- A new zone has an ID that no zone had. -/
theorem Consistent.fresh_id (h : Consistent lib st) : ∀ x ∈ st.published.list, x.id ≠ st.repo.zoneSeq + 1 := by
  intro x hx hid
  have hrow : (Repo.row x).id = x.id := rfl
  have := (h.sound.range _ (h.list_row hx)).2
  omega

end

end Velora.Zones
