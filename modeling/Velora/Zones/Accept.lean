import Velora.Lib.Keyed
import Velora.Zones.Compile
import Velora.Zones.Normal

/-!
# What `compile` asks of a list of zones

The loops of `compile` said without their order. The record loop of a zone succeeds exactly when its records have wire
forms that differ in their text and fit together in pairs (`build_ok_iff`), and the index it leaves is described by these
forms (`Built`). The zone loop succeeds exactly when the zones build, their names differ and their records are not too
many (`index_ok_iff`). All of this, and the check of the aliases, is the same for zones that differ only in their IDs,
their revisions and the order of their records: that is shown in `Velora.Zones.Alike`.
-/

namespace Velora.Zones

open Velora.Lib Velora.Lib.Text Velora.Lib.Ip Velora.Lib.Loops Velora.Wire Velora.Dns

/-! ### One zone -/

/-- The record loop of `compile`. -/
def build (lib : Miekg) (z : Zone) : Except Err Build :=
  z.records.foldlM (addRecord lib) { view := { zone := z, «exists» := (∅ : Map Str Bool).insert z.name true } }

/-- Two records can be in one zone. -/
def Fits (a b : RR) : Prop := a.name = b.name → View.clash a b b.ttl = none

theorem Fits.symm {a b : RR} (h : Fits a b) : Fits b a := by
  intro hn
  have := h hn.symm
  unfold View.clash at this ⊢
  grind

/-- The records of a zone and their wire forms pass the checks of the loop. -/
structure Clean (lib : Miekg) (rs : List Record) (rrs : List RR) : Prop where
  nonneg : ∀ r ∈ rs, 0 ≤ r.id
  ids : (rs.map Record.id).Pairwise (fun a b => a = b → a ≤ 0)
  texts : (rrs.map lib.rrString).Nodup
  fits : rrs.Pairwise Fits

/-- The names from an owner up to its zone. -/
def above (zone owner : Str) : List Str := (suffixes owner).takeWhile (fun name => isSubDomain zone name)

/-- What the loop has made of the records `rs` with the wire forms `rrs`. -/
structure Built (lib : Miekg) (z : Zone) (rs : List Record) (rrs : List RR) (b : Build) : Prop where
  zone : b.view.zone = z
  wire : rs.mapM recordRR = .ok rrs
  records : ∀ name, b.view.records.lookup name =
    if rrs.filter (fun rr => rr.name = name) = [] then none else some (rrs.filter (fun rr => rr.name = name))
  «exists» : ∀ name, b.view.exists.lookup name =
    if name = z.name ∨ ∃ rr ∈ rrs, name ∈ above z.name rr.name then some true else none
  ids : ∀ i, i ∈ b.ids ↔ i ∈ rs.map Record.id
  unique : ∀ t, t ∈ b.unique ↔ t ∈ rrs.map lib.rrString

section

variable {lib : Miekg} {z : Zone} {rs : List Record} {rrs : List RR} {b b' : Build} {r : Record}

theorem Built.at' (h : Built lib z rs rrs b) (name : Str) :
    b.view.at' name = rrs.filter (fun rr => rr.name = name) := by
  unfold View.at'
  rw [h.records]
  split
  · rename_i hnil
    rw [hnil]
    rfl
  · rfl

theorem built_start (lib : Miekg) (z : Zone) :
    Built lib z [] [] { view := { zone := z, «exists» := (∅ : Map Str Bool).insert z.name true } } where
  zone := rfl
  wire := rfl
  records name := by simp
  «exists» name := by
    dsimp only
    by_cases h : name = z.name
    · rw [h, AList.lookup_insert, if_pos (Or.inl rfl)]
    · rw [AList.lookup_insert_ne h, AList.lookup_empty, if_neg (by simp [h])]
  ids i := by simp
  unique t := by simp

/-- The loop over the names above an owner. -/
theorem lookup_foldl_insert (names : List Str) (m : Map Str Bool) (name : Str) :
    (names.foldl (fun m name => m.insert name true) m).lookup name =
      if name ∈ names then some true else m.lookup name := by
  induction names generalizing m with
  | nil => simp
  | cons n names ih =>
    rw [List.foldl_cons, ih]
    by_cases hn : name = n
    · subst hn
      simp
    · rw [AList.lookup_insert_ne hn]
      simp [hn]

/-- The checks of one turn of the record loop. -/
theorem addRecord_eq_ok : addRecord lib b r = .ok b' ↔
    ¬ (r.id < 0 ∨ (r.id > 0 ∧ r.id ∈ b.ids)) ∧ ∃ rr, recordRR r = .ok rr ∧ ¬ lib.rrString rr ∈ b.unique ∧
      (b.view.at' r.name).findSome? (fun existing => View.clash existing rr r.ttl) = none ∧
      { view := { b.view with
          records := b.view.records.insert r.name (b.view.at' r.name ++ [rr])
          «exists» := (above b.view.zone.name r.name).foldl (fun m name => m.insert name true) b.view.exists }
        ids := r.id :: b.ids
        unique := lib.rrString rr :: b.unique } = b' := by
  unfold addRecord
  simp only [guard_eq_ok, bind_eq_ok]
  refine and_congr_right fun _ => exists_congr fun rr => and_congr_right fun _ => and_congr_right fun _ => ?_
  cases hc : (b.view.at' r.name).findSome? (fun existing => View.clash existing rr r.ttl) with
  | some e => simp [throw, throwThe, MonadExceptOf.throw]
  | none =>
    simp only [true_and]
    exact pure_eq_ok

theorem recordRR_name {rr : RR} (h : recordRR r = .ok rr) : rr.name = r.name ∧ rr.ttl = r.ttl := by
  have := (recordRR_ok h).1
  simp [RR.name, RR.ttl, this]

/-- One turn of the record loop. -/
theorem Built.add (h : Built lib z rs rrs b) : addRecord lib b r = .ok b' →
    ∃ rr, recordRR r = .ok rr ∧ Built lib z (rs ++ [r]) (rrs ++ [rr]) b' := by
  rw [addRecord_eq_ok]
  rintro ⟨-, rr, hrr, -, -, rfl⟩
  obtain ⟨hname, -⟩ := recordRR_name hrr
  refine ⟨rr, hrr, h.zone, ?_, ?_, ?_, ?_, ?_⟩
  · rw [List.mapM_append, h.wire]
    simp [hrr]
    rfl
  · intro name
    dsimp only
    by_cases hn : name = r.name
    · subst hn
      rw [AList.lookup_insert, h.at', List.filter_append]
      simp [hname]
    · rw [AList.lookup_insert_ne hn, h.records, List.filter_append]
      have hne : ¬ rr.name = name := by rw [hname]; exact fun h => hn h.symm
      simp [hne]
  · intro name
    dsimp only
    rw [lookup_foldl_insert, h.exists, h.zone]
    by_cases hmem : name ∈ above z.name r.name
    · rw [if_pos hmem, if_pos]
      exact Or.inr ⟨rr, by simp, by rwa [hname]⟩
    · rw [if_neg hmem]
      refine if_congr ?_ rfl rfl
      refine or_congr_right ⟨fun ⟨x, hx, hin⟩ => ⟨x, List.mem_append_left _ hx, hin⟩, ?_⟩
      rintro ⟨x, hx, hin⟩
      rcases List.mem_append.1 hx with hx | hx
      · exact ⟨x, hx, hin⟩
      · rw [List.mem_singleton.1 hx, hname] at hin
        exact absurd hin hmem
  · intro i
    simp [h.ids, or_comm]
  · intro t
    simp only [List.mem_cons, h.unique, List.map_append, List.map_cons, List.map_nil, List.mem_append,
      List.not_mem_nil, or_false]
    exact or_comm

/-- Whether the loop takes one more record. -/
theorem Built.add_iff (h : Built lib z rs rrs b) (hc : Clean lib rs rrs) :
    (∃ b', addRecord lib b r = .ok b') ↔ ∃ rr, recordRR r = .ok rr ∧ Clean lib (rs ++ [r]) (rrs ++ [rr]) := by
  simp only [addRecord_eq_ok]
  constructor
  · rintro ⟨b', hid, rr, hrr, htext, hclash, -⟩
    obtain ⟨hname, httl⟩ := recordRR_name hrr
    refine ⟨rr, hrr, ?_, ?_, ?_, ?_⟩
    · intro x hx
      rcases List.mem_append.1 hx with hx | hx
      · exact hc.nonneg x hx
      · rw [List.mem_singleton.1 hx]
        omega
    · rw [List.map_append, List.pairwise_append]
      refine ⟨hc.ids, by simp, fun a ha c hcm hac => ?_⟩
      have hca : c = r.id := by simpa using hcm
      by_contra hpos
      refine hid (Or.inr ⟨by omega, ?_⟩)
      rw [h.ids, ← hca, ← hac]
      exact ha
    · rw [List.map_append, List.nodup_append]
      refine ⟨hc.texts, by simp, fun a ha c hcm hac => ?_⟩
      have hca : c = lib.rrString rr := by simpa using hcm
      exact htext ((h.unique _).2 (hca ▸ hac ▸ ha))
    · rw [List.pairwise_append]
      refine ⟨hc.fits, by simp, fun a ha c hcm hac => ?_⟩
      rw [List.mem_singleton] at hcm
      subst hcm
      rw [List.findSome?_eq_none_iff] at hclash
      rw [httl]
      refine hclash a ?_
      rw [h.at', List.mem_filter]
      exact ⟨ha, by simp [hac, hname]⟩
  · rintro ⟨rr, hrr, hclean⟩
    obtain ⟨hname, httl⟩ := recordRR_name hrr
    obtain ⟨hnonneg, hids, htexts, hfits⟩ := hclean
    rw [List.map_append, List.pairwise_append] at hids
    rw [List.map_append, List.nodup_append] at htexts
    rw [List.pairwise_append] at hfits
    refine ⟨_, ?_, rr, hrr, ?_, ?_, rfl⟩
    · rintro (hneg | ⟨hpos, hmem⟩)
      · have := hnonneg r (by simp)
        omega
      · have := hids.2.2 r.id ((h.ids _).1 hmem) r.id (by simp) rfl
        omega
    · intro hmem
      exact htexts.2.2 _ ((h.unique _).1 hmem) _ (by simp) rfl
    · rw [List.findSome?_eq_none_iff]
      intro a ha
      rw [h.at', List.mem_filter] at ha
      have hfit := hfits.2.2 a ha.1 rr (by simp) (by rw [hname]; simpa using ha.2)
      rwa [httl] at hfit

/-- A longer list of records is clean only if a shorter one is. -/
theorem Clean.left {rr : RR} (h : Clean lib (rs ++ [r]) (rrs ++ [rr])) : Clean lib rs rrs where
  nonneg x hx := h.nonneg x (List.mem_append_left _ hx)
  ids := by
    have := h.ids
    rw [List.map_append, List.pairwise_append] at this
    exact this.1
  texts := by
    have := h.texts
    rw [List.map_append, List.nodup_append] at this
    exact this.1
  fits := (List.pairwise_append.1 h.fits).1

theorem mapM_recordRR_snoc : (rs ++ [r]).mapM recordRR = .ok rrs ↔
    ∃ front rr, rs.mapM recordRR = .ok front ∧ recordRR r = .ok rr ∧ front ++ [rr] = rrs := by
  rw [List.mapM_append, bind_eq_ok]
  simp only [List.mapM_cons, List.mapM_nil, bind_eq_ok, pure_eq_ok]
  constructor
  · rintro ⟨front, hfront, _, ⟨rr, hrr, _, rfl, rfl⟩, rfl⟩
    exact ⟨front, rr, hfront, hrr, rfl⟩
  · rintro ⟨front, rr, hfront, hrr, rfl⟩
    exact ⟨front, hfront, [rr], ⟨rr, hrr, [], rfl, rfl⟩, rfl⟩

/-- The record loop over a list of records. -/
theorem foldlM_addRecord (lib : Miekg) (z : Zone) (rs : List Record) :
    let loop := rs.foldlM (addRecord lib) { view := { zone := z, «exists» := (∅ : Map Str Bool).insert z.name true } }
    ((∃ b, loop = .ok b) ↔ ∃ rrs, rs.mapM recordRR = .ok rrs ∧ Clean lib rs rrs) ∧
      ∀ b, loop = .ok b → ∃ rrs, Built lib z rs rrs b := by
  induction rs using List.reverseRecOn with
  | nil =>
    refine ⟨⟨fun _ => ⟨[], rfl, by simp, by simp, by simp, by simp⟩, fun _ => ⟨_, rfl⟩⟩, fun b hb => ⟨[], ?_⟩⟩
    cases hb
    exact built_start lib z
  | append_singleton rs r ih =>
    obtain ⟨ihok, ihbuilt⟩ := ih
    dsimp only
    simp only [List.foldlM_append, List.foldlM_cons, List.foldlM_nil, bind_eq_ok, pure_eq_ok, exists_eq_right]
    -- the loop up to the last record, and what it has built
    have hfront : ∀ b, rs.foldlM (addRecord lib)
        { view := { zone := z, «exists» := (∅ : Map Str Bool).insert z.name true } } = .ok b →
        ∃ rrs, Built lib z rs rrs b ∧ Clean lib rs rrs := by
      intro b hb
      obtain ⟨rrs, hbuilt⟩ := ihbuilt b hb
      obtain ⟨rrs', hwire, hclean⟩ := ihok.1 ⟨b, hb⟩
      rw [hbuilt.wire] at hwire
      cases hwire
      exact ⟨rrs, hbuilt, hclean⟩
    constructor
    · constructor
      · rintro ⟨b', b, hb, hadd⟩
        obtain ⟨rrs, hbuilt, hclean⟩ := hfront b hb
        obtain ⟨rr, hrr, hclean'⟩ := (hbuilt.add_iff hclean).1 ⟨b', hadd⟩
        exact ⟨rrs ++ [rr], mapM_recordRR_snoc.2 ⟨rrs, rr, hbuilt.wire, hrr, rfl⟩, hclean'⟩
      · rintro ⟨rrs', hwire, hclean'⟩
        obtain ⟨rrs, rr, hrrs, hrr, rfl⟩ := mapM_recordRR_snoc.1 hwire
        obtain ⟨b, hb⟩ := ihok.2 ⟨rrs, hrrs, hclean'.left⟩
        obtain ⟨rrs', hbuilt, hclean⟩ := hfront b hb
        have hsame := hbuilt.wire
        rw [hrrs] at hsame
        cases hsame
        obtain ⟨b', hadd⟩ := (hbuilt.add_iff hclean).2 ⟨rr, hrr, hclean'⟩
        exact ⟨b', b, hb, hadd⟩
    · rintro b' ⟨b, hb, hadd⟩
      obtain ⟨rrs, hbuilt, -⟩ := hfront b hb
      obtain ⟨rr, -, hbuilt'⟩ := hbuilt.add hadd
      exact ⟨rrs ++ [rr], hbuilt'⟩

/-- **The record loop of `compile`.** -/
theorem build_ok_iff : (∃ b, build lib z = .ok b) ↔
    ∃ rrs, z.records.mapM recordRR = .ok rrs ∧ Clean lib z.records rrs :=
  (foldlM_addRecord lib z z.records).1

theorem build_built (h : build lib z = .ok b) : ∃ rrs, Built lib z z.records rrs b :=
  (foldlM_addRecord lib z z.records).2 b h

end

/-! ### All zones -/

/-- The zone loop of `compile`. -/
def index (lib : Miekg) (zs : List Zone) : Except Err (Snapshot × ℕ) := zs.foldlM (addZone lib) ({}, 0)

/-- The zones are in normal form. -/
def AllNormal (zs : List Zone) : Prop := ∀ z ∈ zs, NormalZone z

/-- The number of records of the zones. -/
def totalRecords (zs : List Zone) : ℕ := (zs.map (fun z => z.records.length)).sum

/-- What the loop has made of the zones. -/
structure Indexed (lib : Miekg) (zs : List Zone) (s : Snapshot) : Prop where
  views : ∀ z ∈ zs, ∃ b, build lib z = .ok b ∧ s.byName.lookup z.name = some b.view
  names : ∀ n v, s.byName.lookup n = some v → ∃ z ∈ zs, z.name = n
  byID : ∀ i, s.byID.lookup i = zs.reverse.find? (fun z => z.id = i)

section

variable {lib : Miekg} {zs : List Zone} {z : Zone} {s : Snapshot}

theorem addZone_eq_ok {acc acc' : Snapshot × ℕ} (hz : NormalZone z) : addZone lib acc z = .ok acc' ↔
    acc.1.byName.lookup z.name = none ∧ acc.2 + z.records.length ≤ maxTotalRecords ∧ ∃ b, build lib z = .ok b ∧
      ({ byID := acc.1.byID.insert z.id z, byName := acc.1.byName.insert z.name b.view }, acc.2 + z.records.length) =
        acc' := by
  unfold addZone
  rw [hz]
  simp only [guard_eq_ok, bind_eq_ok, pure_eq_ok, Except.ok.injEq, exists_eq_left', not_lt, Bool.not_eq_true,
    Option.isSome_eq_false_iff, Option.isNone_iff_eq_none]
  rfl

theorem Indexed.lookup_none_iff (h : Indexed lib zs s) (n : Str) : s.byName.lookup n = none ↔ n ∉ zs.map Zone.name := by
  constructor
  · intro hnone hmem
    obtain ⟨x, hx, rfl⟩ := List.mem_map.1 hmem
    obtain ⟨b, -, hlook⟩ := h.views x hx
    rw [hnone] at hlook
    cases hlook
  · intro hmem
    cases hv : s.byName.lookup n with
    | none => rfl
    | some v =>
      obtain ⟨x, hx, hxn⟩ := h.names _ v hv
      exact absurd (List.mem_map.2 ⟨x, hx, hxn⟩) hmem

/-- One zone more, under a name that is not there. -/
theorem Indexed.snoc (h : Indexed lib zs s) (hnone : s.byName.lookup z.name = none) {b : Build} (hb : build lib z = .ok b) :
    Indexed lib (zs ++ [z]) { byID := s.byID.insert z.id z, byName := s.byName.insert z.name b.view } := by
  refine ⟨?_, ?_, ?_⟩
  · intro x hx
    rcases List.mem_append.1 hx with hx | hx
    · obtain ⟨b', hb', hlook⟩ := h.views x hx
      have hne : x.name ≠ z.name := by
        rintro heq
        rw [heq, hnone] at hlook
        cases hlook
      exact ⟨b', hb', by rw [AList.lookup_insert_ne hne]; exact hlook⟩
    · rw [List.mem_singleton.1 hx]
      exact ⟨b, hb, AList.lookup_insert _⟩
  · intro n v hv
    by_cases hnz : n = z.name
    · exact ⟨z, by simp, hnz.symm⟩
    · rw [AList.lookup_insert_ne hnz] at hv
      obtain ⟨x, hx, hxn⟩ := h.names n v hv
      exact ⟨x, List.mem_append_left _ hx, hxn⟩
  · intro i
    dsimp only
    rw [List.reverse_append, List.reverse_singleton, List.singleton_append, List.find?_cons]
    by_cases hi : z.id = i
    · subst hi
      simp
    · rw [AList.lookup_insert_ne (Ne.symm hi), h.byID]
      simp [hi]

/-- **The zone loop of `compile`.** -/
theorem index_ok_iff (hn : AllNormal zs) :
    ((∃ acc, index lib zs = .ok acc) ↔ (zs.map Zone.name).Nodup ∧ totalRecords zs ≤ maxTotalRecords ∧
      ∀ z ∈ zs, ∃ b, build lib z = .ok b) ∧
      ∀ acc, index lib zs = .ok acc → Indexed lib zs acc.1 ∧ acc.2 = totalRecords zs := by
  induction zs using List.reverseRecOn with
  | nil =>
    refine ⟨⟨fun _ => ⟨by simp, by simp [totalRecords], by simp⟩, fun _ => ⟨_, rfl⟩⟩, fun acc hacc => ?_⟩
    cases hacc
    exact ⟨⟨by simp, by simp, by simp⟩, rfl⟩
  | append_singleton zs z ih =>
    obtain ⟨ihok, ihindexed⟩ := ih (fun x hx => hn x (List.mem_append_left _ hx))
    have hz : NormalZone z := hn z (by simp)
    have hsum : totalRecords (zs ++ [z]) = totalRecords zs + z.records.length := by simp [totalRecords]
    have hstep : ∀ acc', index lib (zs ++ [z]) = .ok acc' ↔
        ∃ acc, index lib zs = .ok acc ∧ addZone lib acc z = .ok acc' := by
      intro acc'
      simp only [index, List.foldlM_append, List.foldlM_cons, List.foldlM_nil, bind_eq_ok, pure_eq_ok, exists_eq_right]
    have hfree : ∀ acc, index lib zs = .ok acc → (acc.1.byName.lookup z.name = none ↔ z.name ∉ zs.map Zone.name) :=
      fun acc hacc => (ihindexed acc hacc).1.lookup_none_iff z.name
    constructor
    · constructor
      · rintro ⟨acc', hacc'⟩
        obtain ⟨acc, hacc, hadd⟩ := (hstep acc').1 hacc'
        obtain ⟨hnone, htotal, b, hb, -⟩ := (addZone_eq_ok hz).1 hadd
        obtain ⟨hnames, -, hbuild⟩ := ihok.1 ⟨acc, hacc⟩
        refine ⟨?_, ?_, ?_⟩
        · rw [List.map_append, List.nodup_append]
          refine ⟨hnames, by simp, fun a ha c hc hac => ?_⟩
          have hcz : c = z.name := by simpa using hc
          exact (hfree acc hacc).1 hnone (hcz ▸ hac ▸ ha)
        · rw [hsum, ← (ihindexed acc hacc).2]
          exact htotal
        · intro x hx
          rcases List.mem_append.1 hx with hx | hx
          · exact hbuild x hx
          · rw [List.mem_singleton.1 hx]
            exact ⟨b, hb⟩
      · rintro ⟨hnames, htotal, hbuild⟩
        rw [List.map_append, List.nodup_append] at hnames
        rw [hsum] at htotal
        obtain ⟨acc, hacc⟩ := ihok.2 ⟨hnames.1, by omega, fun x hx => hbuild x (List.mem_append_left _ hx)⟩
        obtain ⟨b, hb⟩ := hbuild z (by simp)
        have hfresh : z.name ∉ zs.map Zone.name := fun hmem => hnames.2.2 _ hmem z.name (by simp) rfl
        refine ⟨_, (hstep _).2 ⟨acc, hacc, (addZone_eq_ok hz).2 ⟨(hfree acc hacc).2 hfresh, ?_, b, hb, rfl⟩⟩⟩
        rw [(ihindexed acc hacc).2]
        exact htotal
    · intro acc' hacc'
      obtain ⟨acc, hacc, hadd⟩ := (hstep acc').1 hacc'
      obtain ⟨hnone, -, b, hb, rfl⟩ := (addZone_eq_ok hz).1 hadd
      obtain ⟨hi, htotal⟩ := ihindexed acc hacc
      exact ⟨hi.snoc hnone hb, by rw [hsum, ← htotal]⟩

theorem find?_id_reverse (hids : (zs.map Zone.id).Nodup) (i : ℤ) :
    zs.reverse.find? (fun z => z.id = i) = zs.find? (fun z => z.id = i) := by
  refine Keyed.find?_perm ?_ (List.reverse_perm zs) i
  rw [List.map_reverse, List.nodup_reverse]
  exact hids

theorem find?_id_filter (zs : List Zone) (i j : ℤ) :
    (zs.filter (fun z => z.id ≠ j)).find? (fun z => z.id = i) = if i = j then none else zs.find? (fun z => z.id = i) := by
  rw [List.find?_filter]
  split
  · rename_i hij
    rw [List.find?_eq_none]
    intro z _
    simp [hij]
  · rename_i hij
    congr 1
    funext z
    by_cases hz : z.id = i
    · simp [hz, hij]
    · simp [hz]

/-- The index does not depend on the order of the zones. -/
theorem Indexed.perm {zs' : List Zone} (h : Indexed lib zs s) (hp : zs.Perm zs') (hids : (zs.map Zone.id).Nodup) :
    Indexed lib zs' s where
  views z hz := h.views z (hp.mem_iff.2 hz)
  names n v hv := by
    obtain ⟨z, hz, hn⟩ := h.names n v hv
    exact ⟨z, hp.mem_iff.1 hz, hn⟩
  byID i := by
    rw [h.byID, find?_id_reverse hids, Keyed.find?_perm hids hp, find?_id_reverse ((hp.map _).nodup_iff.1 hids)]

/-- The zone of a view. -/
theorem Indexed.zone_mem {n : Str} {v : View} (h : Indexed lib zs s) (hv : s.byName.lookup n = some v) :
    v.zone ∈ zs ∧ v.zone.name = n := by
  obtain ⟨z, hz, rfl⟩ := h.names n v hv
  obtain ⟨b, hb, hlook⟩ := h.views z hz
  obtain ⟨rrs, hbuilt⟩ := build_built hb
  rw [hlook] at hv
  cases hv
  rw [hbuilt.zone]
  exact ⟨hz, rfl⟩

/-- There is one index of a list of zones. -/
theorem Indexed.unique {s' : Snapshot} (h : Indexed lib zs s) (h' : Indexed lib zs s') :
    (∀ i, s.byID.lookup i = s'.byID.lookup i) ∧ ∀ n, s.byName.lookup n = s'.byName.lookup n := by
  refine ⟨fun i => by rw [h.byID, h'.byID], fun n => ?_⟩
  have hsome : ∀ {t t' : Snapshot} {v : View}, Indexed lib zs t → Indexed lib zs t' → t.byName.lookup n = some v →
      t'.byName.lookup n = some v := by
    intro t t' v ht ht' hv
    obtain ⟨z, hz, rfl⟩ := ht.names n v hv
    obtain ⟨b, hb, hlook⟩ := ht.views z hz
    obtain ⟨b', hb', hlook'⟩ := ht'.views z hz
    rw [hb] at hb'
    cases hb'
    rw [hlook', ← hlook, hv]
  cases hv : s.byName.lookup n with
  | some v => exact (hsome h h' hv).symm
  | none =>
    cases hv' : s'.byName.lookup n with
    | none => rfl
    | some v' => rw [← hv, hsome h' h hv']

theorem compile_eq_ok : compile lib zs = .ok s ↔
    zs.length ≤ maxZones ∧ ∃ total, index lib zs = .ok (s, total) ∧ s.loopFree = true := by
  unfold compile
  simp only [guard_eq_ok, bind_eq_ok, not_lt]
  refine and_congr_right fun _ => ?_
  constructor
  · rintro ⟨⟨s', total⟩, hindex, h⟩
    dsimp only at h
    split at h
    · rename_i hfree
      cases h
      exact ⟨total, hindex, hfree⟩
    · cases h
  · rintro ⟨total, hindex, hfree⟩
    refine ⟨(s, total), hindex, ?_⟩
    dsimp only
    rw [if_pos hfree]
    rfl

/-- `compile` looks at the normal forms of the zones only. -/
theorem index_normalize {zs' : List Zone} (h : zs.mapM normalize = .ok zs') : index lib zs = index lib zs' := by
  have hstep : ∀ (acc : Snapshot × ℕ) (z z' : Zone), normalize z = .ok z' → addZone lib acc z = addZone lib acc z' := by
    intro acc z z' hz
    unfold addZone
    rw [hz, show normalize z' = .ok z' from normalize_normal hz]
  unfold index
  generalize (({}, 0) : Snapshot × ℕ) = acc
  induction zs generalizing zs' acc with
  | nil =>
    cases h
    rfl
  | cons z zs ih =>
    rw [List.mapM_cons, bind_eq_ok] at h
    obtain ⟨z₁, hz₁, h⟩ := h
    rw [bind_eq_ok] at h
    obtain ⟨rest, hrest, h⟩ := h
    cases h
    rw [List.foldlM_cons, List.foldlM_cons, hstep acc z z₁ hz₁]
    congr 1
    funext acc'
    exact ih hrest acc'

theorem compile_normalize (h : compile lib zs = .ok s) : ∃ zs', zs.mapM normalize = .ok zs' ∧ compile lib zs' = .ok s := by
  obtain ⟨hlen, total, hindex, hfree⟩ := compile_eq_ok.1 h
  have hall : ∀ (zs : List Zone) (acc acc' : Snapshot × ℕ), zs.foldlM (addZone lib) acc = .ok acc' →
      ∃ zs', zs.mapM normalize = .ok zs' := by
    intro zs
    induction zs with
    | nil => exact fun _ _ _ => ⟨[], rfl⟩
    | cons z zs ih =>
      intro acc acc' hloop
      rw [List.foldlM_cons, bind_eq_ok] at hloop
      obtain ⟨acc₁, hz, hrest⟩ := hloop
      obtain ⟨zs', hzs'⟩ := ih acc₁ acc' hrest
      unfold addZone at hz
      rw [bind_eq_ok] at hz
      obtain ⟨z', hz', -⟩ := hz
      exact ⟨z' :: zs', by simp only [List.mapM_cons, hz', hzs']; rfl⟩
  obtain ⟨zs', hzs'⟩ := hall zs _ _ hindex
  refine ⟨zs', hzs', compile_eq_ok.2 ⟨?_, total, ?_, hfree⟩⟩
  · rw [length_of_mapM_ok hzs']
    exact hlen
  · rw [← index_normalize hzs']
    exact hindex

theorem allNormal_of_mapM {zs' : List Zone} (h : zs.mapM normalize = .ok zs') : AllNormal zs' := by
  intro z hz
  obtain ⟨z₀, -, hz₀⟩ := mem_of_mapM_ok h z hz
  exact normalize_normal hz₀

end

end Velora.Zones
