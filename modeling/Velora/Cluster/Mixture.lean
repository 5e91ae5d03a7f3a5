import Velora.Cluster.Service
import Velora.Zones.Calls

/-!
# The zones of a replica while a snapshot is applied

`apply` changes the zones of a replica one by one, so that in between they are a mixture of the primary's zones and its own.
`Mixed` says which zones these are: those that came with the snapshot, those that are still to be replaced or deleted, and
the secondary zones. Up to their identities this is one list (`Mixed.similar`), and a call of the zone service takes one
mixture to the next.
-/

namespace Velora.Cluster

open Velora.Lib Velora.Lib.Text Velora.Zones Velora.Dns

/-! ### Items of a snapshot -/

section

variable {env : Env} {z : Zone} {item : SnapshotZone} {all : List Zone}

theorem sort_sort (env : Env) (rs : List SnapshotRecord) :
    env.sorter.sort (env.sorter.sort rs) = env.sorter.sort rs := env.sorter.fixed _ (env.sorter.sorted rs)

@[simp] theorem snapshotRecord_toRecords (rs : List SnapshotRecord) : (toRecords rs).map snapshotRecord = rs := by
  simp [toRecords, snapshotRecord, Function.comp_def]

/-- An item is read back from the zone that is made of it. -/
theorem snapshotZone_toZone (env : Env) (z : Zone) : snapshotZone env (snapshotZone env z).toZone = snapshotZone env z := by
  simp [snapshotZone, SnapshotZone.toZone, sort_sort]

theorem alike_toZone (env : Env) (z : Zone) : z.Alike (snapshotZone env z).toZone where
  name := rfl
  primaryNS := rfl
  contact := rfl
  records := by
    have hcontent : z.records.map Record.content = toRecords (z.records.map snapshotRecord) := by
      simp [toRecords, snapshotRecord, Record.content, Function.comp_def]
    have hback : ∀ rs, (toRecords rs).map Record.content = toRecords rs := by
      intro rs
      simp [toRecords, Record.content, Function.comp_def]
    rw [hcontent]
    simp only [SnapshotZone.toZone, snapshotZone, hback]
    exact ((env.sorter.perm _).symm).map _

/-- An item as `BuildSnapshot` makes it of a zone in normal form. -/
structure Wanted (env : Env) (item : SnapshotZone) : Prop where
  normal : NormalZone item.toZone
  back : snapshotZone env item.toZone = item

theorem Wanted.of_zone (hz : NormalZone z) : Wanted env (snapshotZone env z) :=
  ⟨(alike_toZone env z).normal hz, snapshotZone_toZone env z⟩

theorem mem_snapshotZones : item ∈ snapshotZones env all ↔ ∃ z ∈ all, secondary z = false ∧ snapshotZone env z = item := by
  unfold snapshotZones
  rw [(List.perm_insertionSort _ _).mem_iff, List.mem_map]
  simp [and_assoc]

theorem snapshotZones_names (h : (all.map Zone.name).Nodup) : ((snapshotZones env all).map SnapshotZone.name).Nodup := by
  unfold snapshotZones
  refine ((List.perm_insertionSort _ _).map _).nodup_iff.2 ?_
  rw [List.map_map]
  exact (List.filter_sublist.map _).nodup h

/-- A snapshot is given by its items, in the order of their names. -/
theorem snapshotZones_eq {all' : List Zone} (h : (all.map Zone.name).Nodup)
    (hmem : ∀ item, item ∈ snapshotZones env all ↔ item ∈ snapshotZones env all') (h' : (all'.map Zone.name).Nodup) :
    snapshotZones env all = snapshotZones env all' := by
  have hperm : (snapshotZones env all).Perm (snapshotZones env all') :=
    (List.perm_ext_iff_of_nodup (snapshotZones_names h).of_map (snapshotZones_names h').of_map).2 hmem
  have hsorted : ∀ zs : List Zone, (snapshotZones env zs).Pairwise (fun a b => a.name ≤ b.name) := by
    intro zs
    have : Std.Total (fun a b : SnapshotZone => a.name ≤ b.name) := ⟨fun a b => le_total a.name b.name⟩
    have : IsTrans SnapshotZone (fun a b => a.name ≤ b.name) := ⟨fun _ _ _ => le_trans⟩
    exact List.pairwise_insertionSort _ _
  refine hperm.eq_of_pairwise (fun a b ha hb hab hba => ?_) (hsorted all) (hsorted all')
  exact List.inj_on_of_nodup_map (snapshotZones_names h) ha (hperm.mem_iff.2 hb) (le_antisymm hab hba)

/-- `sameZone` compares the contents. -/
theorem sameZone_iff (hz : secondary z = false) (hitem : snapshotZone env item.toZone = item) :
    sameZone env z item = true ↔ snapshotZone env z = item := by
  have hprimary : secondary item.toZone = false := rfl
  unfold sameZone
  rw [decide_eq_true_iff]
  simp only [buildSnapshot]
  rw [env.hash.injective.eq_iff]
  simp [snapshotZones, hz, hprimary, hitem]

end

/-! ### Mixtures -/

/-- The zones are the items that are done, the zones `rest` that are still to be looked at, and `others`. -/
structure Mixed (env : Env) (zs rest others : List Zone) (done : List SnapshotZone) : Prop where
  names : (zs.map Zone.name).Nodup
  nodup : (done.map SnapshotZone.name ++ (rest ++ others).map Zone.name).Nodup
  kept : ∀ z ∈ rest ++ others, z ∈ zs
  got : ∀ item ∈ done, ∃ z ∈ zs, secondary z = false ∧ snapshotZone env z = item
  only : ∀ z ∈ zs, z ∈ rest ++ others ∨ ∃ item ∈ done, secondary z = false ∧ snapshotZone env z = item

/-- Lists of zones with the same names and like zones under each are similar. -/
theorem similar_of_names {zs zs' : List Zone} (hn : (zs.map Zone.name).Nodup) (hn' : (zs'.map Zone.name).Nodup)
    (h : ∀ z ∈ zs, ∃ z' ∈ zs', z.Alike z') (h' : ∀ z' ∈ zs', ∃ z ∈ zs, z.name = z'.name) : Zones.Similar zs zs' := by
  induction zs generalizing zs' with
  | nil =>
    cases zs' with
    | nil => exact Zones.Similar.of_perm (.refl _)
    | cons z' zs' =>
      obtain ⟨z, hz, -⟩ := h' z' (by simp)
      cases hz
  | cons z zs ih =>
    rw [List.map_cons, List.nodup_cons] at hn
    obtain ⟨z', hz', hza⟩ := h z (by simp)
    have hperm := List.perm_cons_erase hz'
    have hnrest := (hperm.map Zone.name).nodup_iff.1 hn'
    rw [List.map_cons, List.nodup_cons] at hnrest
    have hrest : Zones.Similar zs (zs'.erase z') := by
      refine ih hn.2 hnrest.2 (fun x hx => ?_) (fun x' hx' => ?_)
      · obtain ⟨x', hx', hxa⟩ := h x (by simp [hx])
        refine ⟨x', ?_, hxa⟩
        rcases List.mem_cons.1 (hperm.mem_iff.1 hx') with rfl | hmem
        · refine absurd (List.mem_map.2 ⟨x, hx, ?_⟩) hn.1
          rw [hxa.name, hza.name]
        · exact hmem
      · obtain ⟨x, hx, hxn⟩ := h' x' (List.mem_of_mem_erase hx')
        rcases List.mem_cons.1 hx with rfl | hx
        · refine absurd (List.mem_map.2 ⟨x', hx', ?_⟩) hnrest.1
          rw [← hxn, hza.name]
        · exact ⟨x, hx, hxn⟩
    unfold Zones.Similar at hrest ⊢
    rw [Multiset.coe_eq_coe.2 hperm, ← Multiset.cons_coe, ← Multiset.cons_coe]
    exact Multiset.Rel.cons hza hrest

namespace Mixed

variable {env : Env} {zs zs' rest others : List Zone} {done : List SnapshotZone} {z saved old : Zone} {item : SnapshotZone}

theorem perm (h : Mixed env zs rest others done) (hp : zs.Perm zs') : Mixed env zs' rest others done where
  names := (hp.map _).nodup_iff.1 h.names
  nodup := h.nodup
  kept z hz := hp.mem_iff.1 (h.kept z hz)
  got item hi := by
    obtain ⟨z, hz, hz'⟩ := h.got item hi
    exact ⟨z, hp.mem_iff.1 hz, hz'⟩
  only z hz := h.only z (hp.mem_iff.2 hz)

theorem perm_rest {rest' : List Zone} (h : Mixed env zs rest others done) (hp : rest.Perm rest') :
    Mixed env zs rest' others done where
  names := h.names
  nodup := by
    have hmap := ((hp.append_right others).map Zone.name).append_left (done.map SnapshotZone.name)
    exact hmap.nodup_iff.1 h.nodup
  kept z hz := h.kept z ((hp.append_right others).mem_iff.2 hz)
  got := h.got
  only z hz := by
    rcases h.only z hz with hz | hdone
    · exact Or.inl ((hp.append_right others).mem_iff.1 hz)
    · exact Or.inr hdone

/-- The names of the zones are the names of the mixture. -/
theorem name_iff (h : Mixed env zs rest others done) {name : Str} :
    name ∈ zs.map Zone.name ↔ name ∈ done.map SnapshotZone.name ++ (rest ++ others).map Zone.name := by
  rw [List.mem_append, List.mem_map, List.mem_map, List.mem_map]
  constructor
  · rintro ⟨z, hz, rfl⟩
    rcases h.only z hz with hz | ⟨item, hi, -, rfl⟩
    · exact Or.inr ⟨z, hz, rfl⟩
    · exact Or.inl ⟨_, hi, rfl⟩
  · rintro (⟨item, hi, rfl⟩ | ⟨z, hz, rfl⟩)
    · obtain ⟨z, hz, -, rfl⟩ := h.got item hi
      exact ⟨z, hz, rfl⟩
    · exact ⟨z, h.kept z hz, rfl⟩

/-- **The zones of a replica are a mixture**, up to their identities. -/
theorem similar (h : Mixed env zs rest others done) :
    Zones.Similar zs (done.map SnapshotZone.toZone ++ (rest ++ others)) := by
  have hnames : (done.map SnapshotZone.toZone ++ (rest ++ others)).map Zone.name =
      done.map SnapshotZone.name ++ (rest ++ others).map Zone.name := by
    rw [List.map_append, List.map_map]
    rfl
  refine similar_of_names h.names (by rw [hnames]; exact h.nodup) (fun z hz => ?_) (fun z hz => ?_)
  · rcases h.only z hz with hz | ⟨item, hi, -, rfl⟩
    · exact ⟨z, List.mem_append_right _ hz, Zone.Alike.refl z⟩
    · exact ⟨_, List.mem_append_left _ (List.mem_map_of_mem hi), alike_toZone env z⟩
  · have hmem := h.name_iff.2 (by rw [← hnames]; exact List.mem_map_of_mem hz)
    obtain ⟨x, hx, hxn⟩ := List.mem_map.1 hmem
    exact ⟨x, hx, hxn⟩

/-- A zone that is still there goes. -/
theorem drop (h : Mixed env zs rest others done) (hids : (zs.map Zone.id).Nodup) (hold : old ∈ rest) :
    Mixed env (zs.filter (fun z => z.id ≠ old.id)) (rest.filter (fun z => z.name ≠ old.name)) others done := by
  have hin : old ∈ zs := h.kept old (List.mem_append_left _ hold)
  have hne : ∀ z ∈ zs, z.name ≠ old.name → z.id ≠ old.id := by
    intro z hz hn hi
    exact hn (by rw [List.inj_on_of_nodup_map hids hz hin hi])
  have hname : ∀ n ∈ done.map SnapshotZone.name ++ others.map Zone.name, n ≠ old.name := by
    rintro n hn rfl
    have hnodup := h.nodup
    rw [List.map_append, List.nodup_append, List.nodup_append] at hnodup
    rcases List.mem_append.1 hn with hn | hn
    · exact hnodup.2.2 _ hn _ (List.mem_append_left _ (List.mem_map_of_mem hold)) rfl
    · exact hnodup.2.1.2.2 _ (List.mem_map_of_mem hold) _ hn rfl
  refine ⟨(List.filter_sublist.map _).nodup h.names, ?_, fun z hz => ?_, fun item hi => ?_, fun z hz => ?_⟩
  · refine List.Nodup.sublist ?_ h.nodup
    exact (List.Sublist.refl _).append ((List.filter_sublist.append (List.Sublist.refl _)).map _)
  · rcases List.mem_append.1 hz with hz | hz
    · obtain ⟨hz, hzn⟩ := List.mem_filter.1 hz
      have hzs := h.kept z (List.mem_append_left _ hz)
      exact List.mem_filter.2 ⟨hzs, by simpa using hne z hzs (by simpa using hzn)⟩
    · have hzs := h.kept z (List.mem_append_right _ hz)
      refine List.mem_filter.2 ⟨hzs, by simpa using hne z hzs (hname _ (List.mem_append_right _ (List.mem_map_of_mem hz)))⟩
  · obtain ⟨z, hz, hsec, rfl⟩ := h.got item hi
    refine ⟨z, List.mem_filter.2 ⟨hz, ?_⟩, hsec, rfl⟩
    simpa using hne z hz (hname _ (List.mem_append_left _ (List.mem_map.2 ⟨_, hi, rfl⟩)))
  · obtain ⟨hz, hzi⟩ := List.mem_filter.1 hz
    rcases h.only z hz with hz' | hdone
    · refine Or.inl ?_
      rcases List.mem_append.1 hz' with hz' | hz'
      · refine List.mem_append_left _ (List.mem_filter.2 ⟨hz', ?_⟩)
        have : z ≠ old := by
          rintro rfl
          simp at hzi
        simpa using fun hn => this (List.inj_on_of_nodup_map h.names hz hin hn)
      · exact List.mem_append_right _ hz'
    · exact Or.inr hdone

/-- The zones that are left without the first of them. -/
theorem rest_tail (h : Mixed env zs (z :: rest) others done) : (z :: rest).filter (fun x => x.name ≠ z.name) = rest := by
  have hnodup := h.nodup
  rw [List.map_append, List.nodup_append, List.nodup_append, List.map_cons, List.nodup_cons] at hnodup
  rw [List.filter_cons_of_neg (by simp)]
  refine List.filter_eq_self.2 fun x hx => ?_
  have hne : x.name ≠ z.name := fun heq => hnodup.2.1.1.1 (heq ▸ List.mem_map_of_mem hx)
  simpa using hne

/-- A zone of the snapshot comes. -/
theorem add (h : Mixed env zs rest others done) (hsec : secondary saved = false) (hitem : snapshotZone env saved = item)
    (hname : saved.name ∉ zs.map Zone.name) : Mixed env (saved :: zs) rest others (done ++ [item]) := by
  subst hitem
  have hnew := fun hmem => hname (h.name_iff.2 hmem)
  refine ⟨List.nodup_cons.2 ⟨hname, h.names⟩, ?_, fun z hz => List.mem_cons_of_mem _ (h.kept z hz), fun item hi => ?_,
    fun z hz => ?_⟩
  · rw [List.map_append, List.map_cons, List.map_nil, List.append_assoc, List.singleton_append]
    exact (List.perm_middle.nodup_iff).2 (List.nodup_cons.2 ⟨hnew, h.nodup⟩)
  · rcases List.mem_append.1 hi with hi | hi
    · obtain ⟨z, hz, hz'⟩ := h.got item hi
      exact ⟨z, List.mem_cons_of_mem _ hz, hz'⟩
    · rw [List.mem_singleton.1 hi]
      exact ⟨saved, List.mem_cons_self, hsec, rfl⟩
  · rcases List.mem_cons.1 hz with rfl | hz
    · exact Or.inr ⟨_, by simp, hsec, rfl⟩
    · rcases h.only z hz with hz | ⟨item, hi, hz'⟩
      · exact Or.inl hz
      · exact Or.inr ⟨item, by simp [hi], hz'⟩

/-- A zone that is there is what the snapshot wants. -/
theorem take (h : Mixed env zs rest others done) (hids : (zs.map Zone.id).Nodup) (hold : old ∈ rest)
    (hsec : secondary old = false) (hitem : snapshotZone env old = item) :
    Mixed env zs (rest.filter (fun z => z.name ≠ old.name)) others (done ++ [item]) := by
  have hin : old ∈ zs := h.kept old (List.mem_append_left _ hold)
  have hdrop := h.drop hids hold
  have hname : old.name ∉ (zs.filter (fun z => z.id ≠ old.id)).map Zone.name := by
    rintro hmem
    obtain ⟨z, hz, hzn⟩ := List.mem_map.1 hmem
    obtain ⟨hz, hzi⟩ := List.mem_filter.1 hz
    rw [List.inj_on_of_nodup_map h.names hz hin hzn] at hzi
    simp at hzi
  refine (hdrop.add hsec hitem hname).perm ?_
  have hfilter : zs.filter (fun z => z.id ≠ old.id) = zs.erase old := by
    rw [List.Nodup.erase_eq_filter hids.of_map]
    refine List.filter_congr fun z hz => ?_
    have hiff : z.id = old.id ↔ z = old :=
      ⟨fun hi => List.inj_on_of_nodup_map hids hz hin hi, fun he => by rw [he]⟩
    simp [hiff, bne, BEq.beq]
  rw [hfilter]
  exact (List.perm_cons_erase hin).symm

end Mixed

end Velora.Cluster
