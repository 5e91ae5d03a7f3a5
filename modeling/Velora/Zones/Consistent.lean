import Velora.Zones.Alike
import Velora.Zones.Service

/-!
# The zone service and its repository agree

The published snapshot holds the zones of the tables and its index is the one `compile` makes of them (`Consistent`). Each
call keeps this, whatever the repository answers (`wp_body`): it fails and changes nothing, or it has its effect on both
(`Effect`). A service that is built anew from the tables gives the same answers, but for the order of the records within a
section (`Consistent.reload`).
-/

namespace Velora.Zones

open Velora.Lib Velora.Lib.Text Velora.Lib.Loops Velora.Wire Velora.Dns

/-! ### The tables -/

namespace Repo

/-- The tables as the service leaves them: keys and sequences, and zones in normal form. -/
structure Sound (db : Repo) : Prop where
  ids : (db.zones.map Zone.id).Nodup
  range : ∀ z ∈ db.zones, 0 < z.id ∧ z.id ≤ db.zoneSeq
  revisions : ∀ z ∈ db.zones, z.revision ≠ 0
  seqs : 0 ≤ db.zoneSeq ∧ 0 ≤ db.recordSeq
  records : ∀ z ∈ db.zones, ∀ r ∈ z.records, 0 < r.id ∧ r.id ≤ db.recordSeq
  distinct : ∀ z ∈ db.zones, (z.records.map Record.id).Nodup
  rows : ∀ z ∈ db.zones, row z = z
  normal : AllNormal db.zones

theorem sound_empty : ({} : Repo).Sound := by
  refine ⟨by simp, by simp, by simp, by simp, by simp, by simp, by simp, fun z hz => ?_⟩
  cases hz

theorem row_perm (z : Zone) : (row z).records.Perm z.records := List.perm_insertionSort _ _

theorem row_alike (z : Zone) : (row z).Alike z := ⟨rfl, rfl, rfl, (row_perm z).map _⟩

theorem wholeSeconds_comp : wholeSeconds ∘ wholeSeconds = wholeSeconds := by
  funext t
  rw [Function.comp_apply, wholeSeconds, wholeSeconds, Nat.mul_div_cancel _ (by decide)]

theorem row_row (z : Zone) : row (row z) = row z := by
  have : Std.Total (fun a b : Record => a.id ≤ b.id) := ⟨fun a b => le_total a.id b.id⟩
  have : IsTrans Record (fun a b => a.id ≤ b.id) := ⟨fun _ _ _ => le_trans⟩
  unfold row
  rw [(List.pairwise_insertionSort _ z.records).insertionSort_eq, Option.map_map, Option.map_map, wholeSeconds_comp]

/-- What `insertRecords` has inserted. -/
structure Inserted (taken : List ℤ) (seq : ℤ) (rs out : List Record) (seq' : ℤ) : Prop where
  content : out.map Record.content = rs.map Record.content
  distinct : (out.map Record.id).Nodup
  seq_le : seq ≤ seq'
  range : ∀ r ∈ out, 0 < r.id ∧ r.id ≤ seq' ∧ r.id ∉ taken
  kept : (∀ r ∈ rs, r.id ≠ 0) → out = rs

theorem insertRecords_ok {taken : List ℤ} {seq seq' : ℤ} {rs out : List Record} (hseq : 0 ≤ seq)
    (hrs : ∀ r ∈ rs, 0 ≤ r.id) (h : insertRecords taken seq rs = .ok (out, seq')) : Inserted taken seq rs out seq' := by
  induction rs generalizing taken seq out with
  | nil =>
    cases h
    exact ⟨rfl, by simp, le_refl _, by simp, fun _ => rfl⟩
  | cons r rs ih =>
    have hr := hrs r (by simp)
    simp only [insertRecords] at h
    generalize hid : (if r.id ≠ 0 then r.id else seq + 1) = id at h
    have hpos : 0 < id := by
      split at hid <;> omega
    split at h
    · cases h
    rename_i htaken
    split at h
    · cases h
    · rename_i rest seq₁ hrest
      cases h
      obtain ⟨hcontent, hdistinct, hle, hrange, hkept⟩ := ih (by omega) (fun x hx => hrs x (by simp [hx])) hrest
      refine ⟨by simpa [Record.content] using hcontent, ?_, by omega, ?_, fun hall => ?_⟩
      · rw [List.map_cons, List.nodup_cons]
        refine ⟨fun hmem => ?_, hdistinct⟩
        obtain ⟨x, hx, hxid⟩ := List.mem_map.1 hmem
        exact (hrange x hx).2.2 (by rw [hxid]; simp)
      · intro x hx
        rcases List.mem_cons.1 hx with rfl | hx
        · exact ⟨hpos, by dsimp only; omega, htaken⟩
        · obtain ⟨h1, h2, h3⟩ := hrange x hx
          exact ⟨h1, h2, fun hmem => h3 (List.mem_cons_of_mem _ hmem)⟩
      · rw [if_pos (hall r List.mem_cons_self)] at hid
        rw [hkept fun x hx => hall x (List.mem_cons_of_mem r hx), ← hid]

/-- What a save leaves. -/
structure Saved (db : Repo) (z : Zone) (saved : Zone) (db' : Repo) : Prop where
  eq : saved = { z with id := saved.id, records := saved.records }
  content : saved.records.map Record.content = z.records.map Record.content
  ids : IdsOk saved.records
  sound : db'.Sound
  find : ∀ i, db'.zones.find? (fun x => x.id = i) = if i = saved.id then some (row saved) else db.zones.find? (fun x => x.id = i)
  kept : (∀ r ∈ z.records, r.id ≠ 0) → saved.records = z.records

section

variable {db db' : Repo} {z saved : Zone} {expected : UInt32}

theorem Inserted.idsOk {taken : List ℤ} {seq seq' : ℤ} {rs out : List Record} (h : Inserted taken seq rs out seq') :
    IdsOk out where
  nonneg r hr := (h.range r hr).1.le
  distinct := h.distinct.imp (fun hne heq => absurd heq hne)

/-- The tables with one zone more, or another in the place of one. -/
theorem Sound.with_row (h : db.Sound) {zones : List Zone} {taken : List ℤ} {zoneSeq recordSeq : ℤ} {rs : List Record}
    (hids : (zones.map Zone.id).Nodup) (hmem : ∀ x ∈ zones, x = row saved ∨ x ∈ db.zones) (hseq : db.zoneSeq ≤ zoneSeq)
    (hid : 0 < saved.id ∧ saved.id ≤ zoneSeq) (hins : Inserted taken db.recordSeq rs saved.records recordSeq)
    (hnormal : NormalZone saved) (hrev : saved.revision ≠ 0) : Sound ⟨zones, zoneSeq, recordSeq⟩ where
  ids := hids
  range x hx := by
    rcases hmem x hx with rfl | hx
    · exact hid
    · have := h.range x hx
      exact ⟨this.1, this.2.trans hseq⟩
  revisions x hx := by
    rcases hmem x hx with rfl | hx
    · exact hrev
    · exact h.revisions x hx
  seqs := ⟨h.seqs.1.trans hseq, h.seqs.2.trans hins.seq_le⟩
  records x hx r hr := by
    rcases hmem x hx with rfl | hx
    · have := hins.range r ((row_perm saved).mem_iff.1 hr)
      exact ⟨this.1, this.2.1⟩
    · have := h.records x hx r hr
      exact ⟨this.1, this.2.trans hins.seq_le⟩
  distinct x hx := by
    rcases hmem x hx with rfl | hx
    · exact ((row_perm saved).map _).nodup_iff.2 hins.distinct
    · exact h.distinct x hx
  rows x hx := by
    rcases hmem x hx with rfl | hx
    · exact row_row saved
    · exact h.rows x hx
  normal x hx := by
    rcases hmem x hx with rfl | hx
    · exact (row_alike saved).symm.normal hnormal
    · exact h.normal x hx

/-- A zone whose records are inserted is in normal form. -/
theorem Inserted.normal {taken : List ℤ} {seq seq' : ℤ} {out : List Record} {id : ℤ}
    (h : Inserted taken seq z.records out seq') (hz : NormalZone z) : NormalZone { z with id := id, records := out } := by
  have halike : z.Alike { z with id := id, records := out } := ⟨rfl, rfl, rfl, by rw [h.content]⟩
  exact halike.normal hz

/-- A new zone is saved. -/
theorem saveZone_new (h : db.Sound) (hz : NormalZone z) (hrs : ∀ r ∈ z.records, 0 ≤ r.id)
    (hs : db.saveZone z 0 = .ok (saved, db')) : Saved db z saved db' ∧ saved.id = db.zoneSeq + 1 ∧ db'.zoneSeq = saved.id := by
  simp only [saveZone, if_true] at hs
  split_ifs at hs with hrev
  split at hs
  · cases hs
  · rename_i out seq hins
    cases hs
    have hinserted := insertRecords_ok h.seqs.2 hrs hins
    have hseq := h.seqs.1
    have hfresh : ∀ x ∈ db.zones, x.id ≠ db.zoneSeq + 1 := by
      intro x hx heq
      have := (h.range x hx).2
      omega
    refine ⟨⟨rfl, hinserted.content, hinserted.idsOk, ?_, ?_, hinserted.kept⟩, rfl, rfl⟩
    · refine h.with_row ?_ ?_ (by omega) ⟨by dsimp only; omega, le_refl _⟩ hinserted (hinserted.normal hz) hrev
      · rw [List.map_append, List.nodup_append]
        refine ⟨h.ids, by simp, fun a ha b hb hab => ?_⟩
        obtain ⟨x, hx, rfl⟩ := List.mem_map.1 ha
        exact hfresh x hx (by simpa [row, hab] using hb)
      · intro x hx
        rcases List.mem_append.1 hx with hx | hx
        · exact Or.inr hx
        · exact Or.inl (List.mem_singleton.1 hx)
    · intro i
      dsimp only
      rw [List.find?_append, List.find?_singleton]
      by_cases hi : i = db.zoneSeq + 1
      · subst hi
        rw [if_pos rfl, List.find?_eq_none.2 (fun x hx => by simpa using hfresh x hx)]
        simp [row]
      · rw [if_neg hi]
        simp [row, Ne.symm hi]

/-- A zone is saved over its last revision. -/
theorem saveZone_over (h : db.Sound) (hz : NormalZone z) (hrs : ∀ r ∈ z.records, 0 ≤ r.id) (hne : expected ≠ 0)
    (hs : db.saveZone z expected = .ok (saved, db')) : Saved db z saved db' ∧ saved.id = z.id ∧ db'.zoneSeq = db.zoneSeq ∧
      ∃ old ∈ db.zones, old.id = z.id ∧ old.revision = expected := by
  simp only [saveZone, if_neg hne] at hs
  split_ifs at hs with hfound hpos
  split at hs
  · cases hs
  · rename_i out seq hins
    cases hs
    have hinserted := insertRecords_ok h.seqs.2 hrs hins
    obtain ⟨old, hold, hid, hrev⟩ : ∃ old ∈ db.zones, old.id = z.id ∧ old.revision = expected := by
      simpa using hfound
    refine ⟨⟨rfl, hinserted.content, hinserted.idsOk, ?_, ?_, hinserted.kept⟩, rfl, rfl, old, hold, hid, hrev⟩
    · refine h.with_row ?_ ?_ le_rfl (hid ▸ h.range old hold) hinserted (hinserted.normal hz) hpos
      · have hmap : (db.zones.map (fun x => if x.id = z.id then row { z with records := out } else x)).map Zone.id =
            db.zones.map Zone.id := by
          rw [List.map_map]
          refine List.map_congr_left fun x _ => ?_
          simp only [Function.comp_apply]
          split
          · rename_i hx
            exact hx.symm
          · rfl
        rw [hmap]
        exact h.ids
      · intro x hx
        obtain ⟨y, hy, rfl⟩ := List.mem_map.1 hx
        split
        · exact Or.inl rfl
        · exact Or.inr hy
    · intro i
      dsimp only
      rw [List.find?_map]
      have hpred : ((fun x : Zone => decide (x.id = i)) ∘
          fun x : Zone => if x.id = z.id then row { z with records := out } else x) = fun x => decide (x.id = i) := by
        funext x
        simp only [Function.comp_apply]
        split
        · rename_i hx
          rw [hx]
          rfl
        · rfl
      rw [hpred]
      by_cases hi : i = z.id
      · subst hi
        rw [if_pos rfl, (Keyed.find?_eq_some h.ids).2 ⟨hold, hid⟩]
        simp [hid]
      · rw [if_neg hi]
        cases hf : db.zones.find? (fun x => x.id = i) with
        | none => rfl
        | some x =>
          have hx : x.id = i := by simpa using List.find?_some hf
          simp [hx, hi]

/-- A zone is deleted. -/
theorem deleteZone_ok {id : ℤ} (h : db.Sound) (hs : db.deleteZone id expected = .ok db') :
    db'.Sound ∧ db'.zoneSeq = db.zoneSeq ∧ ∀ i, db'.zones.find? (fun x => x.id = i) =
      if i = id then none else db.zones.find? (fun x => x.id = i) := by
  simp only [deleteZone] at hs
  split_ifs at hs
  cases hs
  have hsub : ∀ x ∈ db.zones.filter (fun x => x.id ≠ id), x ∈ db.zones := fun x hx => List.mem_of_mem_filter hx
  refine ⟨⟨?_, fun x hx => h.range x (hsub x hx), fun x hx => h.revisions x (hsub x hx), h.seqs, fun x hx => h.records x (hsub x hx),
    fun x hx => h.distinct x (hsub x hx), fun x hx => h.rows x (hsub x hx), fun x hx => h.normal x (hsub x hx)⟩, rfl, ?_⟩
  · exact (List.filter_sublist.map _).nodup h.ids
  · intro i
    exact find?_id_filter db.zones i id

end

end Repo

/-! ### The published snapshot -/

/-- The zones of the snapshot are those of the tables, and it is what `compile` makes of them. -/
structure Consistent (lib : Miekg) (st : Store) : Prop where
  sound : st.repo.Sound
  holds : ∀ i, (st.published.byID.lookup i).map Repo.row = st.repo.zones.find? (fun z => z.id = i)
  indexed : Indexed lib st.published.list st.published
  accepted : ∃ s, compile lib st.published.list = .ok s

theorem Snapshot.mem_list {s : Snapshot} {z : Zone} : z ∈ s.list ↔ ∃ i, s.byID.lookup i = some z := by
  unfold Snapshot.list
  rw [(List.perm_insertionSort _ _).mem_iff, List.mem_map]
  constructor
  · rintro ⟨⟨i, z⟩, hmem, rfl⟩
    exact ⟨i, AList.mem_lookup_iff.2 hmem⟩
  · rintro ⟨i, hi⟩
    exact ⟨⟨i, z⟩, AList.mem_lookup_iff.1 hi, rfl⟩

/-- The zones of a snapshot are listed once each. -/
theorem Snapshot.list_ids {s : Snapshot} (h : ∀ i z, s.byID.lookup i = some z → z.id = i) : (s.list.map Zone.id).Nodup := by
  have hkeys : (s.byID.entries.map Sigma.snd).map Zone.id = s.byID.keys := by
    rw [List.map_map]
    exact List.map_congr_left fun e he => h e.1 e.2 (AList.mem_lookup_iff.2 he)
  refine (((List.perm_insertionSort _ _).map Zone.id).nodup_iff).2 ?_
  rw [hkeys]
  exact s.byID.keys_nodup

/-- A snapshot lists the zones it was made of. -/
theorem Snapshot.list_perm {s : Snapshot} {zs : List Zone} (hids : (zs.map Zone.id).Nodup)
    (h : ∀ i, s.byID.lookup i = zs.find? (fun z => z.id = i)) : s.list.Perm zs := by
  have hnodup : (s.list.map Zone.id).Nodup := by
    refine Snapshot.list_ids fun i z hi => ?_
    rw [h, Keyed.find?_eq_some hids] at hi
    exact hi.2
  refine (List.perm_ext_iff_of_nodup hnodup.of_map hids.of_map).2 fun z => ?_
  rw [Snapshot.mem_list]
  constructor
  · rintro ⟨i, hi⟩
    rw [h, Keyed.find?_eq_some hids] at hi
    exact hi.1
  · intro hz
    exact ⟨z.id, by rw [h, Keyed.find?_eq_some hids]; exact ⟨hz, rfl⟩⟩

namespace Consistent

variable {lib : Miekg} {st : Store}

/-- A published zone is read back from the tables. -/
theorem row_mem (h : Consistent lib st) {i : ℤ} {z : Zone} (hz : st.published.byID.lookup i = some z) :
    z.id = i ∧ Repo.row z ∈ st.repo.zones := by
  have hi := h.holds i
  rw [hz, Option.map_some] at hi
  obtain ⟨hmem, hid⟩ := (Keyed.find?_eq_some h.sound.ids).1 hi.symm
  exact ⟨hid, hmem⟩

theorem list_row (h : Consistent lib st) {z : Zone} (hz : z ∈ st.published.list) : Repo.row z ∈ st.repo.zones := by
  obtain ⟨i, hi⟩ := Snapshot.mem_list.1 hz
  exact (h.row_mem hi).2

theorem list_normal (h : Consistent lib st) : AllNormal st.published.list :=
  fun z hz => (Repo.row_alike z).normal (h.sound.normal _ (h.list_row hz))

/-- The published zones are in the tables, and these are all. -/
theorem list_perm (h : Consistent lib st) : (st.published.list.map Repo.row).Perm st.repo.zones := by
  have hinj : ((st.published.list.map Repo.row).map Zone.id).Nodup := by
    have hids : (st.published.list.map Repo.row).map Zone.id = st.published.list.map Zone.id := by
      rw [List.map_map]
      rfl
    rw [hids]
    exact Snapshot.list_ids fun i z hi => (h.row_mem hi).1
  refine (List.perm_ext_iff_of_nodup hinj.of_map h.sound.ids.of_map).2 fun x => ?_
  constructor
  · intro hx
    obtain ⟨z, hz, rfl⟩ := List.mem_map.1 hx
    exact h.list_row hz
  · intro hx
    have hfind := (Keyed.find?_eq_some h.sound.ids).2 ⟨hx, rfl⟩
    rw [← h.holds] at hfind
    obtain ⟨z, hz, rfl⟩ := Option.map_eq_some_iff.1 hfind
    exact List.mem_map_of_mem (Snapshot.mem_list.2 ⟨_, hz⟩)

theorem list_ids (h : Consistent lib st) : (st.published.list.map Zone.id).Nodup :=
  Snapshot.list_ids fun _ _ hi => (h.row_mem hi).1

theorem list_names (h : Consistent lib st) : (st.published.list.map Zone.name).Nodup := by
  obtain ⟨s, hc⟩ := h.accepted
  obtain ⟨-, total, hindex, -⟩ := compile_eq_ok.1 hc
  exact ((index_ok_iff h.list_normal).1.1 ⟨_, hindex⟩).1

theorem lookup_eq (h : Consistent lib st) (i : ℤ) :
    st.published.byID.lookup i = st.published.list.find? (fun z => z.id = i) := by
  rw [h.indexed.byID, find?_id_reverse h.list_ids]

end Consistent

section

variable {lib : Miekg} {st : Store} {db : Repo} {s next : Snapshot} {zs zs' rest : List Zone} {z saved : Zone}

theorem idsOk_of_row (hdb : db.Sound) (hz : Repo.row z ∈ db.zones) : IdsOk z.records where
  nonneg r hr := (hdb.records _ hz r ((Repo.row_perm z).mem_iff.2 hr)).1.le
  distinct := by
    have := ((Repo.row_perm z).map Record.id).nodup_iff.1 (hdb.distinct _ hz)
    exact this.imp (fun hne heq => absurd heq hne)

/-- A new snapshot with an index of zones like some that `compile` has accepted. -/
theorem consistent_of {flushes : ℕ} (hdb : db.Sound)
    (hholds : ∀ i, (s.byID.lookup i).map Repo.row = db.zones.find? (fun z => z.id = i)) (hids : (zs.map Zone.id).Nodup)
    (hindexed : Indexed lib zs s) (hsim : Similar zs' zs) (hnormal : AllNormal zs') (hc : compile lib zs' = .ok next) :
    Consistent lib ⟨s, db, flushes⟩ := by
  have hlookup : ∀ i, s.byID.lookup i = zs.find? (fun z => z.id = i) := by
    intro i
    rw [hindexed.byID, find?_id_reverse hids]
  have hperm : s.list.Perm zs := Snapshot.list_perm hids hlookup
  refine ⟨hdb, hholds, hindexed.perm hperm.symm hids, ?_⟩
  have hlist : Similar zs' s.list := by
    unfold Similar
    rw [Multiset.coe_eq_coe.2 hperm]
    exact hsim
  have hidsOk : ∀ z ∈ s.list, IdsOk z.records := by
    intro z hz
    obtain ⟨i, hi⟩ := Snapshot.mem_list.1 hz
    have hrow := hholds i
    rw [hi, Option.map_some] at hrow
    exact idsOk_of_row hdb (List.mem_of_find?_eq_some hrow.symm)
  obtain ⟨s', hs', -⟩ := compile_alike hlist hidsOk hnormal hc
  exact ⟨s', hs'⟩

/-- Where the IDs differ, all zones but the first of an ID are those of the other IDs. -/
theorem eraseP_id_eq_filter (hids : (zs.map Zone.id).Nodup) (i : ℤ) :
    zs.eraseP (fun z => z.id = i) = zs.filter (fun z => z.id ≠ i) := by
  induction zs with
  | nil => rfl
  | cons x xs ih =>
    rw [List.map_cons, List.nodup_cons] at hids
    by_cases hx : x.id = i
    · rw [List.eraseP_cons_of_pos (by simpa using hx), List.filter_cons_of_neg (by simpa using hx)]
      refine (List.filter_eq_self.2 fun y hy => ?_).symm
      have hne : y.id ≠ x.id := fun heq => hids.1 (heq ▸ List.mem_map_of_mem hy)
      simpa [← hx] using hne
    · rw [List.eraseP_cons_of_neg (by simpa using hx), List.filter_cons_of_pos (by simpa using hx), ih hids.2]

/-- The index after a zone was saved under its new IDs. -/
theorem Indexed.replace (h : Indexed lib (rest ++ [z]) next) (hnames : ((rest ++ [z]).map Zone.name).Nodup)
    (halike : z.Alike saved) (hcontent : saved.records.map Record.content = z.records.map Record.content)
    (hidsOk : IdsOk saved.records) (hz : ∀ x ∈ rest, x.id ≠ z.id) :
    Indexed lib (rest ++ [saved]) (next.replace z.id saved) := by
  have hne : ∀ x ∈ rest, x.name ≠ saved.name := by
    intro x hx heq
    rw [List.map_append, List.nodup_append] at hnames
    exact hnames.2.2 x.name (List.mem_map_of_mem hx) z.name (by simp) (by rw [heq, halike.name])
  obtain ⟨b, hb, hlook⟩ := h.views z (by simp)
  rw [halike.name] at hlook
  have hbyName : (next.replace z.id saved).byName = next.byName.insert saved.name { b.view with zone := saved } := by
    simp only [Snapshot.replace, hlook]
  refine ⟨?_, ?_, ?_⟩
  · intro x hx
    rw [hbyName]
    rcases List.mem_append.1 hx with hx | hx
    · obtain ⟨b', hb', hlook'⟩ := h.views x (List.mem_append_left _ hx)
      exact ⟨b', hb', by rw [AList.lookup_insert_ne (hne x hx)]; exact hlook'⟩
    · rw [List.mem_singleton.1 hx]
      obtain ⟨b', hb', hview⟩ := build_reid halike hcontent hidsOk hb
      exact ⟨b', hb', by rw [AList.lookup_insert, hview]⟩
  · intro n v hv
    rw [hbyName] at hv
    by_cases hn : n = saved.name
    · exact ⟨saved, by simp, hn.symm⟩
    · rw [AList.lookup_insert_ne hn] at hv
      obtain ⟨x, hx, hxn⟩ := h.names n v hv
      rcases List.mem_append.1 hx with hx | hx
      · exact ⟨x, List.mem_append_left _ hx, hxn⟩
      · rw [List.mem_singleton.1 hx, halike.name] at hxn
        exact absurd hxn.symm hn
  · intro i
    have hbyID := h.byID i
    rw [List.reverse_append, List.reverse_singleton, List.singleton_append, List.find?_cons] at hbyID ⊢
    simp only [Snapshot.replace]
    by_cases hi : saved.id = i
    · subst hi
      simp
    · rw [AList.lookup_insert_ne (Ne.symm hi), decide_eq_false hi]
      by_cases hzi : i = z.id
      · subst hzi
        rw [AList.lookup_erase]
        refine (List.find?_eq_none.2 fun x hx => ?_).symm
        simpa using hz x (List.mem_reverse.1 hx)
      · rw [AList.lookup_erase_ne hzi, hbyID, decide_eq_false (Ne.symm hzi)]

/-! ### What a call does -/

/-- A save fails and changes nothing, or the zone that `compile` has accepted with the others is stored and published. -/
def SaveOutcome (lib : Miekg) (st : Store) (z : Zone) (expected : UInt32) (r : Except Err Zone) (st' : Store) : Prop :=
  (∃ e, r = .error e ∧ st' = st) ∨
    ∃ next saved db', compile lib (st.published.list.eraseP (fun old => old.id = z.id) ++ [z]) = .ok next ∧
      st.repo.saveZone ((next.byID.lookup z.id).getD default) expected = .ok (saved, db') ∧ r = .ok saved ∧
      st' = ⟨next.replace z.id saved, db', st.flushes + 1⟩

theorem wp_save (lib : Miekg) (st : Store) (z : Zone) (expected : UInt32) :
    (save lib z expected).wp act (SaveOutcome lib st z expected) st := by
  simp only [save, Prog.ask_bind, Prog.pure_eq]
  rw [Prog.wp_call]
  rintro _ _ _ ⟨⟩
  split
  · rename_i e he
    exact Or.inl ⟨e, rfl, rfl⟩
  · rename_i next hnext
    rw [Prog.wp_call]
    intro x r st₁ hact
    cases x with
    | some e =>
      cases hact
      exact Or.inl ⟨e, rfl, rfl⟩
    | none =>
      simp only [act] at hact
      split at hact
      · cases hact
        exact Or.inl ⟨_, rfl, rfl⟩
      · rename_i saved db' hsave
        cases hact
        rw [Prog.wp_call]
        rintro _ _ _ ⟨⟩
        rw [Prog.wp_call]
        rintro _ _ _ ⟨⟩
        exact Or.inr ⟨next, saved, db', hnext, hsave, rfl, rfl⟩

/-- What a save does when it succeeds. -/
structure Stored (lib : Miekg) (st : Store) (z saved : Zone) (st' : Store) : Prop where
  consistent : Consistent lib st'
  normal : ∃ z', normalize z = .ok z' ∧ saved = { z' with id := saved.id, records := saved.records } ∧
    saved.records.map Record.content = z'.records.map Record.content ∧
    ((∀ r ∈ z'.records, r.id ≠ 0) → saved.records = z'.records)
  lookup : ∀ i, st'.published.byID.lookup i = if i = saved.id then some saved else st.published.byID.lookup i
  find : ∀ i, st'.repo.zones.find? (fun x => x.id = i) =
    if i = saved.id then some (Repo.row saved) else st.repo.zones.find? (fun x => x.id = i)
  flushes : st'.flushes = st.flushes + 1

theorem similar_snoc (rest : List Zone) (halike : z.Alike saved) : Similar (rest ++ [z]) (rest ++ [saved]) := by
  unfold Similar
  rw [← Multiset.coe_add, ← Multiset.coe_add]
  refine Multiset.Rel.add (Multiset.rel_refl_of_refl_on fun x _ => Zone.Alike.refl x) ?_
  exact Multiset.Rel.cons halike Multiset.Rel.zero

/-- `compile` with a zone at the end: the zones before it are in normal form already. -/
theorem compile_snoc (hrest : AllNormal rest) (h : compile lib (rest ++ [z]) = .ok next) :
    ∃ z', normalize z = .ok z' ∧ compile lib (rest ++ [z']) = .ok next := by
  obtain ⟨zs', hmap, hc⟩ := compile_normalize h
  rw [List.mapM_append, mapM_ok_of_fixed hrest, List.mapM_cons, List.mapM_nil] at hmap
  simp only [bind_eq_ok, pure_eq_ok, Except.ok.injEq, exists_eq_left'] at hmap
  obtain ⟨_, ⟨z', hz', rfl⟩, rfl⟩ := hmap
  exact ⟨z', hz', hc⟩

theorem stored_of_saved {z' : Zone} {db' : Repo} (h : Consistent lib st) (hz' : normalize z = .ok z')
    (hc : compile lib (st.published.list.filter (fun x => x.id ≠ z.id) ++ [z']) = .ok next)
    (hsaved : Repo.Saved st.repo z' saved db')
    (hplace : saved.id = z.id ∨ ∀ x ∈ st.repo.zones, x.id ≠ z.id ∧ x.id ≠ saved.id) :
    Stored lib st z saved ⟨next.replace z.id saved, db', st.flushes + 1⟩ := by
  have hid : z'.id = z.id := by
    obtain ⟨_, _, _, _, _, _, _, _, _, rfl⟩ := normalize_eq_ok.1 hz'
    rfl
  set rest := st.published.list.filter (fun x => x.id ≠ z.id) with hrest
  have hsub : ∀ x ∈ rest, x ∈ st.published.list ∧ x.id ≠ z.id := by
    intro x hx
    simpa [hrest] using hx
  have hnormal : AllNormal (rest ++ [z']) := by
    intro x hx
    rcases List.mem_append.1 hx with hx | hx
    · exact h.list_normal x (hsub x hx).1
    · rw [List.mem_singleton.1 hx]
      exact normalize_normal hz'
  have halike : z'.Alike saved := by
    rw [hsaved.eq]
    exact ⟨rfl, rfl, rfl, by rw [hsaved.content]⟩
  have hindexed := compile_indexed hnormal hc
  have hnames : ((rest ++ [z']).map Zone.name).Nodup := by
    obtain ⟨-, total, hindex, -⟩ := compile_eq_ok.1 hc
    exact ((index_ok_iff hnormal).1.1 ⟨_, hindex⟩).1
  have hreplace : Indexed lib (rest ++ [saved]) (next.replace z.id saved) := by
    rw [← hid]
    exact hindexed.replace hnames halike hsaved.content hsaved.ids (fun x hx => by rw [hid]; exact (hsub x hx).2)
  have hids : ((rest ++ [saved]).map Zone.id).Nodup := by
    rw [List.map_append, List.nodup_append]
    refine ⟨(List.filter_sublist.map _).nodup h.list_ids, by simp, fun a ha c hc' hac => ?_⟩
    obtain ⟨x, hx, rfl⟩ := List.mem_map.1 ha
    have hcid : c = saved.id := by simpa using hc'
    rcases hplace with heq | hfresh
    · exact (hsub x hx).2 (by rw [hac, hcid, heq])
    · exact (hfresh _ (h.list_row (hsub x hx).1)).2 (hac.trans hcid)
  have hlookup : ∀ i, (next.replace z.id saved).byID.lookup i =
      if i = saved.id then some saved else st.published.byID.lookup i := by
    intro i
    rw [hreplace.byID, List.reverse_append, List.reverse_singleton, List.singleton_append, List.find?_cons]
    by_cases hi : i = saved.id
    · subst hi
      simp
    · rw [decide_eq_false (Ne.symm hi), if_neg hi, find?_id_reverse ((List.filter_sublist.map _).nodup h.list_ids),
        find?_id_filter, ← h.lookup_eq]
      dsimp only
      split
      · -- the ID of a new zone before it is saved, which no zone has
        rename_i hiz
        rcases hplace with heq | hfresh
        · exact absurd (hiz.trans heq.symm) hi
        · cases hl : st.published.byID.lookup i with
          | none => rfl
          | some x =>
            obtain ⟨hxi, hrow⟩ := h.row_mem hl
            exact absurd (hxi.trans hiz) (hfresh _ hrow).1
      · rfl
  refine ⟨consistent_of hsaved.sound (fun i => ?_) hids hreplace (similar_snoc rest halike) hnormal hc,
    ⟨z', hz', hsaved.eq, hsaved.content, hsaved.kept⟩, hlookup, hsaved.find, rfl⟩
  rw [hlookup, hsaved.find]
  split
  · rfl
  · exact h.holds i

/-- A zone is stored under its revision. -/
theorem Stored.revision {st' : Store} (h : Stored lib st z saved st') : saved.revision = z.revision := by
  obtain ⟨z', hz', heq, -⟩ := h.normal
  obtain ⟨_, _, _, _, _, _, _, _, _, rfl⟩ := normalize_eq_ok.1 hz'
  rw [heq]

/-- What `save` has compiled: the zone in normal form beside the other zones. -/
theorem compiled_of_save (h : Consistent lib st)
    (hc : compile lib (st.published.list.eraseP (fun old => old.id = z.id) ++ [z]) = .ok next) :
    ∃ z', normalize z = .ok z' ∧ compile lib (st.published.list.filter (fun x => x.id ≠ z.id) ++ [z']) = .ok next ∧
      next.byID.lookup z.id = some z' ∧ ∀ r ∈ z'.records, 0 ≤ r.id := by
  rw [eraseP_id_eq_filter h.list_ids] at hc
  have hrest : AllNormal (st.published.list.filter (fun x => x.id ≠ z.id)) :=
    fun x hx => h.list_normal x (List.mem_of_mem_filter hx)
  obtain ⟨z', hz', hc'⟩ := compile_snoc hrest hc
  have hnormal : AllNormal (st.published.list.filter (fun x => x.id ≠ z.id) ++ [z']) := by
    intro x hx
    rcases List.mem_append.1 hx with hx | hx
    · exact hrest x hx
    · rw [List.mem_singleton.1 hx]
      exact normalize_normal hz'
  have hid : z'.id = z.id := by
    obtain ⟨_, _, _, _, _, _, _, _, _, rfl⟩ := normalize_eq_ok.1 hz'
    rfl
  refine ⟨z', hz', hc', ?_, ?_⟩
  · rw [(compile_indexed hnormal hc').byID]
    simp [hid]
  · obtain ⟨-, total, hindex, -⟩ := compile_eq_ok.1 hc'
    obtain ⟨b, hb⟩ := ((index_ok_iff hnormal).1.1 ⟨_, hindex⟩).2.2 z' (by simp)
    obtain ⟨rrs, -, hclean⟩ := build_ok_iff.1 ⟨b, hb⟩
    exact hclean.nonneg

/-- A zone that is saved for the first time. -/
theorem stored_new {r : Except Err Zone} {st' : Store} (h : Consistent lib st) (hout : SaveOutcome lib st z 0 r st')
    (hz : z.id = 0) : (∃ e, r = .error e ∧ st' = st) ∨
      ∃ saved, r = .ok saved ∧ Stored lib st z saved st' ∧ saved.id = st.repo.zoneSeq + 1 ∧ st'.repo.zoneSeq = saved.id := by
  rcases hout with hfail | ⟨next, saved, db', hc, hsave, rfl, rfl⟩
  · exact Or.inl hfail
  · obtain ⟨z', hz', hc', hlookup, hnonneg⟩ := compiled_of_save h hc
    rw [hlookup, Option.getD_some] at hsave
    obtain ⟨hsaved, hid, hseq⟩ := Repo.saveZone_new h.sound (normalize_normal hz') hnonneg hsave
    refine Or.inr ⟨saved, rfl, stored_of_saved h hz' hc' hsaved (Or.inr fun x hx => ?_), hid, hseq⟩
    have := h.sound.range x hx
    omega

/-- A zone that is saved over its last revision. -/
theorem stored_over {r : Except Err Zone} {st' : Store} {expected : UInt32} (h : Consistent lib st)
    (hout : SaveOutcome lib st z expected r st') (hne : expected ≠ 0) : (∃ e, r = .error e ∧ st' = st) ∨
      ∃ saved, r = .ok saved ∧ Stored lib st z saved st' ∧ saved.id = z.id ∧ st'.repo.zoneSeq = st.repo.zoneSeq := by
  rcases hout with hfail | ⟨next, saved, db', hc, hsave, rfl, rfl⟩
  · exact Or.inl hfail
  · obtain ⟨z', hz', hc', hlookup, hnonneg⟩ := compiled_of_save h hc
    rw [hlookup, Option.getD_some] at hsave
    obtain ⟨hsaved, hid, hseq, -⟩ := Repo.saveZone_over h.sound (normalize_normal hz') hnonneg hne hsave
    have hz : z'.id = z.id := by
      obtain ⟨_, _, _, _, _, _, _, _, _, rfl⟩ := normalize_eq_ok.1 hz'
      rfl
    rw [hz] at hid
    exact Or.inr ⟨saved, rfl, stored_of_saved h hz' hc' hsaved (Or.inl hid), hid, hseq⟩

/-- What a delete does when it succeeds. -/
structure Removed (lib : Miekg) (st : Store) (id : ℤ) (st' : Store) : Prop where
  consistent : Consistent lib st'
  lookup : ∀ i, st'.published.byID.lookup i = if i = id then none else st.published.byID.lookup i
  find : ∀ i, st'.repo.zones.find? (fun x => x.id = i) = if i = id then none else st.repo.zones.find? (fun x => x.id = i)
  flushes : st'.flushes = st.flushes + 1

/-- What a call has done that returns a zone. -/
inductive Effect (lib : Miekg) (st : Store) : Call → Zone → Store → Prop
  | create {z saved : Zone} {st' : Store} (hstored : Stored lib st { z with revision := 1 } saved st')
      (hid : saved.id = st.repo.zoneSeq + 1) (hseq : st'.repo.zoneSeq = saved.id) : Effect lib st (.create z) saved st'
  | update {id : ℤ} {revision : UInt32} {z old saved : Zone} {st' : Store} (hold : st.published.byID.lookup id = some old)
      (hrev : old.revision = revision) (hmax : revision ≠ maxUint32)
      (hstored : Stored lib st { z with id := id, revision := revision + 1 } saved st') (hid : saved.id = id)
      (hseq : st'.repo.zoneSeq = st.repo.zoneSeq) : Effect lib st (.update id revision z) saved st'
  | delete {id : ℤ} {revision : UInt32} {old : Zone} {st' : Store} (hold : st.published.byID.lookup id = some old)
      (hrev : old.revision = revision) (hremoved : Removed lib st id st')
      (hseq : st'.repo.zoneSeq = st.repo.zoneSeq) : Effect lib st (.delete id revision) old st'

/-- A call fails and changes nothing, or it has its effect. -/
def Outcome (lib : Miekg) (st : Store) (c : Call) (r : Except Err Zone) (st' : Store) : Prop :=
  (∃ e, r = .error e ∧ st' = st) ∨ ∃ z, r = .ok z ∧ Effect lib st c z st'

theorem outcome_error {c : Call} (e : Err) : Outcome lib st c (.error e) st := Or.inl ⟨e, rfl, rfl⟩

theorem wp_create (h : Consistent lib st) (z : Zone) : (create lib z).wp act (Outcome lib st (.create z)) st := by
  unfold create
  split_ifs with hassigned
  · exact outcome_error _
  · exact outcome_error _
  · have hz : z.id = 0 := by
      by_contra hne
      exact hassigned (Or.inl hne)
    refine Prog.wp_mono (wp_save lib st _ 0) fun r st' hout => ?_
    rcases stored_new h hout hz with ⟨e, rfl, rfl⟩ | ⟨saved, rfl, hstored, hid, hseq⟩
    · exact outcome_error _
    · exact Or.inr ⟨saved, rfl, .create hstored hid hseq⟩

theorem wp_update (h : Consistent lib st) (id : ℤ) (revision : UInt32) (z : Zone) :
    (update lib id revision z).wp act (Outcome lib st (.update id revision z)) st := by
  simp only [update, Prog.ask_bind, Prog.pure_eq]
  rw [Prog.wp_call]
  rintro _ _ _ ⟨⟩
  split
  · exact outcome_error _
  · rename_i old hold
    obtain ⟨-, hrow⟩ := h.row_mem hold
    split_ifs with hconflict
    · exact outcome_error _
    · exact outcome_error _
    · obtain ⟨hrev, hmax⟩ := not_or.1 hconflict
      rw [not_not] at hrev
      have hne : revision ≠ 0 := fun h0 => h.sound.revisions _ hrow (hrev.trans h0)
      refine Prog.wp_mono (wp_save lib st _ revision) fun r st' hout => ?_
      rcases stored_over h hout hne with ⟨e, rfl, rfl⟩ | ⟨saved, rfl, hstored, hid, hseq⟩
      · exact outcome_error _
      · exact Or.inr ⟨saved, rfl, .update hold hrev hmax hstored hid hseq⟩

/-- What is left when a zone is deleted. -/
theorem removed_of_deleted {id : ℤ} {revision : UInt32} {db' : Repo} (h : Consistent lib st)
    (hnext : compile lib (st.published.list.eraseP (fun z => z.id = id)) = .ok next)
    (hdelete : st.repo.deleteZone id revision = .ok db') : Removed lib st id ⟨next, db', st.flushes + 1⟩ := by
  obtain ⟨hsound, -, hfind⟩ := Repo.deleteZone_ok h.sound hdelete
  rw [eraseP_id_eq_filter h.list_ids] at hnext
  have hnormal : AllNormal (st.published.list.filter (fun x => x.id ≠ id)) :=
    fun x hx => h.list_normal x (List.mem_of_mem_filter hx)
  have hids : ((st.published.list.filter (fun x => x.id ≠ id)).map Zone.id).Nodup :=
    (List.filter_sublist.map _).nodup h.list_ids
  have hindexed := compile_indexed hnormal hnext
  have hlookup : ∀ i, next.byID.lookup i = if i = id then none else st.published.byID.lookup i := by
    intro i
    rw [hindexed.byID, find?_id_reverse hids, find?_id_filter, ← h.lookup_eq]
  refine ⟨consistent_of hsound (fun i => ?_) hids hindexed (Similar.of_perm (.refl _)) hnormal hnext, hlookup, hfind, rfl⟩
  rw [hlookup, hfind]
  split
  · rfl
  · exact h.holds i

theorem wp_delete (h : Consistent lib st) (id : ℤ) (revision : UInt32) :
    (delete lib id revision).wp act (Outcome lib st (.delete id revision)) st := by
  simp only [delete, Prog.ask_bind, Prog.pure_eq]
  rw [Prog.wp_call]
  rintro _ _ _ ⟨⟩
  split
  · exact outcome_error _
  · rename_i old hold
    split_ifs with hconflict
    · exact outcome_error _
    · split
      · exact outcome_error _
      · rename_i next hnext
        rw [Prog.wp_call]
        intro x r st₁ hact
        cases x with
        | some e =>
          cases hact
          exact outcome_error _
        | none =>
          simp only [act] at hact
          split at hact
          · cases hact
            exact outcome_error _
          · rename_i db' hdelete
            cases hact
            rw [Prog.wp_call]
            rintro _ _ _ ⟨⟩
            rw [Prog.wp_call]
            rintro _ _ _ ⟨⟩
            exact Or.inr ⟨old, rfl, .delete hold (not_not.1 hconflict) (removed_of_deleted h hnext hdelete)
              (Repo.deleteZone_ok h.sound hdelete).2.1⟩

/-- **What a call does**, whatever the repository answers. -/
theorem wp_body (h : Consistent lib st) (c : Call) : (c.body lib).wp act (Outcome lib st c) st := by
  cases c with
  | create z => exact wp_create h z
  | update id revision z => exact wp_update h id revision z
  | delete id revision => exact wp_delete h id revision

theorem Effect.consistent {c : Call} {st' : Store} (h : Effect lib st c z st') : Consistent lib st' := by
  cases h with
  | create hstored => exact hstored.consistent
  | update _ _ _ hstored => exact hstored.consistent
  | delete _ _ hremoved => exact hremoved.consistent

theorem Effect.flushes {c : Call} {st' : Store} (h : Effect lib st c z st') : st'.flushes = st.flushes + 1 := by
  cases h with
  | create hstored => exact hstored.flushes
  | update _ _ _ hstored => exact hstored.flushes
  | delete _ _ hremoved => exact hremoved.flushes

/-! ### Starting from the tables -/

/-- A new service publishes the zones of the tables. -/
theorem start_consistent (hdb : db.Sound) (hs : start lib db = .ok s) : Consistent lib ⟨s, db, 0⟩ := by
  unfold start at hs
  rw [bind_eq_ok] at hs
  obtain ⟨all, hload, hc⟩ := hs
  have hall : all = db.zones := by
    unfold Repo.loadZones at hload
    split_ifs at hload
    exact (Except.ok.inj hload).symm
  subst hall
  have hindexed := compile_indexed hdb.normal hc
  refine consistent_of hdb (fun i => ?_) hdb.ids hindexed (Similar.of_perm (.refl _)) hdb.normal hc
  rw [hindexed.byID, find?_id_reverse hdb.ids]
  cases hf : db.zones.find? (fun z => z.id = i) with
  | none => rfl
  | some z => rw [Option.map_some, hdb.rows z (List.mem_of_find?_eq_some hf)]

/-- The published zones and those of the tables are alike. -/
theorem Consistent.similar (h : Consistent lib st) : Similar st.published.list st.repo.zones := by
  unfold Similar
  rw [← Multiset.coe_eq_coe.2 h.list_perm, ← Multiset.map_coe, Multiset.rel_map_right]
  exact Multiset.rel_refl_of_refl_on fun z _ => (Repo.row_alike z).symm

theorem Consistent.index (h : Consistent lib st) : ∃ c, compile lib st.published.list = .ok c ∧
    (∀ i, c.byID.lookup i = st.published.byID.lookup i) ∧ ∀ n, c.byName.lookup n = st.published.byName.lookup n := by
  obtain ⟨c, hc⟩ := h.accepted
  exact ⟨c, hc, (compile_indexed h.list_normal hc).unique h.indexed⟩

/-- **A service that is built anew** from the tables answers as the one that has written them. -/
theorem Consistent.reload (h : Consistent lib st) : ∃ s, start lib st.repo = .ok s ∧
    ∀ q, Option.Rel Shuffled (st.published.lookup q) (s.lookup q) := by
  obtain ⟨c, hc, -, hbyName⟩ := h.index
  have hids : ∀ z ∈ st.repo.zones, IdsOk z.records := by
    intro z hz
    refine idsOk_of_row h.sound ?_
    rw [h.sound.rows z hz]
    exact hz
  obtain ⟨s, hs, halike⟩ := compile_alike h.similar hids h.list_normal hc
  obtain ⟨hlen, total, hindex, -⟩ := compile_eq_ok.1 hs
  obtain ⟨hnames, htotal, -⟩ := (index_ok_iff h.sound.normal).1.1 ⟨_, hindex⟩
  refine ⟨s, ?_, fun q => lookup_alike (fun name => ?_) ?_ q⟩
  · unfold start Repo.loadZones
    unfold totalRecords at htotal
    rw [if_neg (by omega), if_neg (by omega)]
    exact hs
  · -- the zones of a name are rows of one another, so that their revisions are the same
    have hview := halike name
    rw [hbyName] at hview
    cases hv : st.published.byName.lookup name with
    | none =>
      rw [hv] at hview
      cases hv' : s.byName.lookup name with
      | none => exact Option.Rel.none
      | some v' =>
        rw [hv'] at hview
        cases hview
    | some v =>
      rw [hv] at hview
      cases hv' : s.byName.lookup name with
      | none =>
        rw [hv'] at hview
        cases hview
      | some v' =>
        rw [hv'] at hview
        cases hview with
        | some hvv =>
          obtain ⟨hmem, hname⟩ := h.indexed.zone_mem hv
          obtain ⟨hmem', hname'⟩ := (compile_indexed h.sound.normal hs).zone_mem hv'
          have hrow : Repo.row v.zone = v'.zone :=
            List.inj_on_of_nodup_map hnames (h.list_row hmem) hmem' (hname.trans hname'.symm)
          refine Option.Rel.some ⟨hvv, ?_⟩
          rw [← hrow]
          rfl
  · intro n v hv
    rw [← hbyName] at hv
    exact alone_of_compiled (compile_ok hc) n v hv

end

end Velora.Zones
