import Velora.Zones.Accept

/-!
# Zones that differ in their identities only

Two zones are alike when they differ only in their IDs and revisions, in the IDs of their records and in the order of the
records. `compile` accepts a list of zones exactly when it accepts a list of like zones in any order (`compile_alike`), and
the two snapshots give like answers: the same but for the order of the records within a section (`lookup_alike`).
-/

namespace Velora.Zones

open Velora.Lib Velora.Lib.Text Velora.Lib.Ip Velora.Lib.Loops Velora.Wire Velora.Dns

/-! ### Zones -/

/-- A record without its identity. -/
def Record.content (r : Record) : Record := { r with id := 0 }

structure Zone.Alike (z z' : Zone) : Prop where
  name : z.name = z'.name
  primaryNS : z.primaryNS = z'.primaryNS
  contact : z.contact = z'.contact
  records : (z.records.map Record.content).Perm (z'.records.map Record.content)

/-- The IDs of records pass the check of `compile`. -/
structure IdsOk (rs : List Record) : Prop where
  nonneg : ∀ r ∈ rs, 0 ≤ r.id
  distinct : (rs.map Record.id).Pairwise (fun a b => a = b → a ≤ 0)

namespace Zone.Alike

theorem refl (z : Zone) : z.Alike z := ⟨rfl, rfl, rfl, List.Perm.refl _⟩

theorem symm {z z' : Zone} (h : z.Alike z') : z'.Alike z :=
  ⟨h.name.symm, h.primaryNS.symm, h.contact.symm, h.records.symm⟩

theorem trans {z z' z'' : Zone} (h : z.Alike z') (h' : z'.Alike z'') : z.Alike z'' :=
  ⟨h.name.trans h'.name, h.primaryNS.trans h'.primaryNS, h.contact.trans h'.contact, h.records.trans h'.records⟩

theorem length_eq {z z' : Zone} (h : z.Alike z') : z.records.length = z'.records.length := by
  simpa using h.records.length_eq

end Zone.Alike

theorem recordRR_content (r : Record) : recordRR r.content = recordRR r := rfl

theorem mapM_recordRR_content (rs : List Record) : (rs.map Record.content).mapM recordRR = rs.mapM recordRR := by
  rw [List.mapM_map]
  rfl

/-- A record in normal form, whatever its ID. -/
theorem normalizeRecord_content (zone : Str) (r : Record) :
    normalizeRecord zone r.content = .ok r.content ↔ normalizeRecord zone r = .ok r := by
  obtain ⟨id, name, type, ttl, value, priority⟩ := r
  rw [normalizeRecord_eq_ok, normalizeRecord_eq_ok]
  simp only [Record.content, Record.mk.injEq, true_and]
  exact Iff.rfl

theorem normalZone_iff {z : Zone} : NormalZone z ↔
    domain z.name = .ok z.name ∧ domain (if z.primaryNS = [] then "ns.".toList ++ z.name else z.primaryNS) = .ok z.primaryNS ∧
      domain (if z.contact = [] then "hostmaster.".toList ++ z.name else z.contact) = .ok z.contact ∧
      z.records.length ≤ maxRecords ∧ ∀ r ∈ z.records, normalizeRecord z.name r = .ok r := by
  unfold NormalZone
  rw [normalize_eq_ok]
  constructor
  · rintro ⟨name, hname, ns, hns, contact, hcontact, hlen, records, hrecords, heq⟩
    have hfields : name = z.name ∧ ns = z.primaryNS ∧ contact = z.contact ∧ records = z.records := by
      rw [← heq]
      simp
    obtain ⟨rfl, rfl, rfl, rfl⟩ := hfields
    refine ⟨hname, hns, hcontact, by omega, fun r hr => ?_⟩
    obtain ⟨r₀, -, hr₀⟩ := mem_of_mapM_ok hrecords r hr
    exact normalizeRecord_normal hr₀
  · rintro ⟨hname, hns, hcontact, hlen, hrecords⟩
    exact ⟨_, hname, _, hns, _, hcontact, by omega, _, mapM_ok_of_fixed hrecords, rfl⟩

section

variable {z z' : Zone}

theorem Zone.Alike.normal (h : z.Alike z') (hz : NormalZone z) : NormalZone z' := by
  rw [normalZone_iff] at hz ⊢
  obtain ⟨hname, hns, hcontact, hlen, hrecords⟩ := hz
  rw [← h.name, ← h.primaryNS, ← h.contact, ← h.length_eq]
  refine ⟨hname, hns, hcontact, hlen, fun r hr => ?_⟩
  have hmem : r.content ∈ z.records.map Record.content := h.records.mem_iff.2 (List.mem_map_of_mem hr)
  obtain ⟨r₀, hr₀, heq⟩ := List.mem_map.1 hmem
  rw [← normalizeRecord_content, ← heq, normalizeRecord_content]
  exact hrecords r₀ hr₀

/-- The views of like zones. -/
structure View.Alike (v v' : View) : Prop where
  zone : v.zone.Alike v'.zone
  records : ∀ name, (v.at' name).Perm (v'.at' name)
  «exists» : ∀ name, v.exists.lookup name = v'.exists.lookup name

/-- **Like zones build alike.** -/
theorem build_alike {lib : Miekg} {b : Build} (h : z.Alike z') (hids : IdsOk z'.records) (hb : build lib z = .ok b) :
    ∃ b', build lib z' = .ok b' ∧ b.view.Alike b'.view := by
  obtain ⟨rrs, hbuilt⟩ := build_built hb
  obtain ⟨rrs₁, hwire, hclean⟩ := build_ok_iff.1 ⟨b, hb⟩
  rw [hbuilt.wire] at hwire
  cases hwire
  have hcontent := hbuilt.wire
  rw [← mapM_recordRR_content] at hcontent
  obtain ⟨rrs', hrrs', hperm⟩ := mapM_ok_perm h.records hcontent
  rw [mapM_recordRR_content] at hrrs'
  have hclean' : Clean lib z'.records rrs' :=
    { nonneg := hids.nonneg
      ids := hids.distinct
      texts := (hperm.map _).nodup_iff.1 hclean.texts
      fits := (hperm.pairwise_iff (fun h => h.symm)).1 hclean.fits }
  obtain ⟨b', hb'⟩ := build_ok_iff.2 ⟨rrs', hrrs', hclean'⟩
  obtain ⟨rrs₂, hbuilt'⟩ := build_built hb'
  have hsame := hbuilt'.wire
  rw [hrrs'] at hsame
  cases hsame
  refine ⟨b', hb', ?_, fun name => ?_, fun name => ?_⟩
  · rw [hbuilt.zone, hbuilt'.zone]
    exact h
  · rw [hbuilt.at', hbuilt'.at']
    exact hperm.filter _
  · rw [hbuilt.exists, hbuilt'.exists, h.name]
    refine if_congr (or_congr_right ?_) rfl rfl
    exact exists_congr fun rr => and_congr_left fun _ => hperm.mem_iff

/-- One turn of the record loop under other IDs. -/
theorem addRecord_reid {lib : Miekg} {b b' c c' : Build} {r r' : Record} (hr : r'.content = r.content)
    (hview : b'.view = { b.view with zone := z' }) (hname : b.view.zone.name = z'.name)
    (h : addRecord lib b r = .ok c) (h' : addRecord lib b' r' = .ok c') :
    c'.view = { c.view with zone := z' } ∧ c.view.zone.name = z'.name := by
  obtain ⟨-, rr, hrr, -, -, rfl⟩ := addRecord_eq_ok.1 h
  obtain ⟨-, rr', hrr', -, -, rfl⟩ := addRecord_eq_ok.1 h'
  have hsame : rr' = rr := by
    rw [← recordRR_content, hr, recordRR_content, hrr] at hrr'
    exact (Except.ok.inj hrr').symm
  have hrn : r'.content.name = r.content.name := by rw [hr]
  subst hsame
  simp only [Record.content] at hrn
  dsimp only
  rw [hview, hrn]
  exact ⟨by simp [View.at', hname], hname⟩

theorem foldlM_reid {lib : Miekg} {rs rs' : List Record} (hrs : rs'.map Record.content = rs.map Record.content)
    {b b' c c' : Build} (hview : b'.view = { b.view with zone := z' }) (hname : b.view.zone.name = z'.name)
    (h : rs.foldlM (addRecord lib) b = .ok c) (h' : rs'.foldlM (addRecord lib) b' = .ok c') :
    c'.view = { c.view with zone := z' } := by
  induction rs generalizing rs' b b' with
  | nil =>
    rw [List.map_nil, List.map_eq_nil_iff] at hrs
    subst hrs
    cases h
    cases h'
    exact hview
  | cons r rs ih =>
    cases rs' with
    | nil => cases hrs
    | cons r' rs' =>
      rw [List.map_cons, List.map_cons, List.cons.injEq] at hrs
      rw [List.foldlM_cons, bind_eq_ok] at h h'
      obtain ⟨b₁, hb₁, h⟩ := h
      obtain ⟨b₁', hb₁', h'⟩ := h'
      obtain ⟨hview₁, hname₁⟩ := addRecord_reid hrs.1 hview hname hb₁ hb₁'
      exact ih hrs.2 hview₁ hname₁ h h'

/-- **A zone under other IDs** has the view of the zone. -/
theorem build_reid {lib : Miekg} {b : Build} (h : z.Alike z')
    (hcontent : z'.records.map Record.content = z.records.map Record.content) (hids : IdsOk z'.records)
    (hb : build lib z = .ok b) : ∃ b', build lib z' = .ok b' ∧ b'.view = { b.view with zone := z' } := by
  obtain ⟨b', hb', -⟩ := build_alike h hids hb
  refine ⟨b', hb', foldlM_reid hcontent ?_ h.name hb hb'⟩
  simp [h.name]

end

/-! ### Snapshots -/

/-- The snapshots of like zones. -/
def Snapshot.Alike (s s' : Snapshot) : Prop :=
  ∀ name, Option.Rel View.Alike (s.byName.lookup name) (s'.byName.lookup name)

/-- The alias the zones have for a name. -/
def Snapshot.aliasAt (s : Snapshot) (name : Str) : Option Str := (s.find name).bind (fun owner => owner.alias name)

section

variable {s s' : Snapshot}

/-- What relates the zones of every name relates the closest zones of a name. -/
theorem find_rel {R : View → View → Prop} (h : ∀ n, Option.Rel R (s.byName.lookup n) (s'.byName.lookup n)) (name : Str) :
    Option.Rel R (s.find name) (s'.find name) := by
  unfold Snapshot.find
  induction suffixes name with
  | nil => exact Option.Rel.none
  | cons n ns ih =>
    rw [List.findSome?_cons, List.findSome?_cons]
    have hn := h n
    cases hs : s.byName.lookup n with
    | none =>
      rw [hs] at hn
      cases hs' : s'.byName.lookup n with
      | none => exact ih
      | some v' =>
        rw [hs'] at hn
        cases hn
    | some v =>
      rw [hs] at hn
      cases hs' : s'.byName.lookup n with
      | none =>
        rw [hs'] at hn
        cases hn
      | some v' =>
        rw [hs'] at hn
        exact hn

/-- An alias stands alone under its name, so that the order of the records does not matter for it. -/
theorem alias_of_perm {records records' : List RR} (hp : records.Perm records')
    (halone : ∀ rr ∈ records, rr.rrtype = typeCNAME → records = [rr]) :
    records.findSome? RR.cname? = records'.findSome? RR.cname? := by
  by_cases hany : ∃ rr ∈ records, rr.rrtype = typeCNAME
  · obtain ⟨rr, hrr, hc⟩ := hany
    rw [halone rr hrr hc] at hp ⊢
    rw [List.singleton_perm.1 hp]
  · have hnone : ∀ l : List RR, (∀ rr ∈ l, rr ∈ records) → l.findSome? RR.cname? = none := by
      intro l hl
      rw [List.findSome?_eq_none_iff]
      intro rr hrr
      by_contra hne
      refine hany ⟨rr, hl rr hrr, ?_⟩
      rw [← RR.cname?_isSome_iff]
      exact Option.isSome_iff_ne_none.2 hne
    rw [hnone records (fun _ h => h), hnone records' (fun _ h => hp.mem_iff.2 h)]

/-- The zones of a snapshot keep their aliases apart. -/
def Snapshot.Alone (s : Snapshot) : Prop :=
  ∀ n v, s.byName.lookup n = some v → ∀ name, ∀ rr ∈ v.at' name, rr.rrtype = typeCNAME → v.at' name = [rr]

theorem mem_of_find {name : Str} {v : View} (h : s.find name = some v) : ∃ n, s.byName.lookup n = some v := by
  obtain ⟨n, -, hn⟩ := List.exists_of_findSome?_eq_some h
  exact ⟨n, hn⟩

theorem Snapshot.Alike.aliasAt (h : s.Alike s') (ha : s.Alone) (name : Str) : s.aliasAt name = s'.aliasAt name := by
  unfold Snapshot.aliasAt
  have hfind := find_rel h name
  cases hs : s.find name with
  | none =>
    rw [hs] at hfind
    cases hs' : s'.find name with
    | none => rfl
    | some v' =>
      rw [hs'] at hfind
      cases hfind
  | some v =>
    rw [hs] at hfind
    cases hs' : s'.find name with
    | none =>
      rw [hs'] at hfind
      cases hfind
    | some v' =>
      rw [hs'] at hfind
      cases hfind with
      | some hv =>
        obtain ⟨n, hn⟩ := mem_of_find hs
        simp only [Option.bind_some, View.alias]
        rw [alias_of_perm (hv.records name) (ha n v hn name)]

theorem Snapshot.ends_congr (h : ∀ name, s.aliasAt name = s'.aliasAt name) (n : ℕ) (seen : List Str) (target : Str) :
    s.ends n seen target = s'.ends n seen target := by
  induction n generalizing seen target with
  | zero => rfl
  | succ n ih =>
    have ht := h target
    unfold Snapshot.aliasAt at ht
    simp only [Snapshot.ends]
    rw [ht]
    split
    · rfl
    · split
      · rfl
      · exact ih _ _

theorem Snapshot.loopFree_iff : s.loopFree = true ↔ ∀ n v, s.byName.lookup n = some v → ∀ owner, ∀ rr ∈ v.at' owner,
    rr.cname?.isSome = true → s.ends 16 [] owner = true := by
  have hall : ∀ {α : Type} (m : Map Str α) (p : (Σ _ : Str, α) → Bool), m.entries.all p = true ↔
      ∀ k a, m.lookup k = some a → p ⟨k, a⟩ = true := by
    intro α m p
    rw [List.all_eq_true]
    constructor
    · intro h k a hk
      exact h ⟨k, a⟩ (AList.mem_lookup_iff.1 hk)
    · rintro h ⟨k, a⟩ hmem
      exact h k a (AList.mem_lookup_iff.2 hmem)
  unfold Snapshot.loopFree
  rw [hall]
  refine forall_congr' fun n => forall_congr' fun v => imp_congr_right fun _ => ?_
  rw [hall]
  constructor
  · intro h owner rr hrr hc
    cases hl : v.records.lookup owner with
    | none => simp [View.at', hl] at hrr
    | some rrs =>
      have hmem : rr ∈ rrs := by simpa [View.at', hl] using hrr
      have := List.all_eq_true.1 (h owner rrs hl) rr hmem
      rcases Bool.or_eq_true_iff.1 this with hno | hends
      · rw [Option.isNone_iff_eq_none] at hno
        rw [hno] at hc
        cases hc
      · exact hends
  · intro h owner rrs hl
    rw [List.all_eq_true]
    intro rr hrr
    cases hc : rr.cname? with
    | none => rfl
    | some target =>
      simp only [Option.isNone_some, Bool.false_or]
      exact h owner rr (by simpa [View.at', hl] using hrr) (by simp [hc])

/-- **The check of the aliases is the same for like zones.** -/
theorem Snapshot.Alike.loopFree (h : s.Alike s') (ha : s.Alone) (hfree : s.loopFree = true) : s'.loopFree = true := by
  rw [Snapshot.loopFree_iff] at hfree ⊢
  intro n v' hv' owner rr hrr hc
  have hn := h n
  rw [hv'] at hn
  cases hs : s.byName.lookup n with
  | none =>
    rw [hs] at hn
    cases hn
  | some v =>
    rw [hs] at hn
    cases hn with
    | some hv =>
      rw [← Snapshot.ends_congr (h.aliasAt ha)]
      exact hfree n v hs owner rr ((hv.records owner).mem_iff.2 hrr) hc

end

/-! ### Lists of zones -/

/-- Like zones, in any order. -/
def Similar (zs zs' : List Zone) : Prop := Multiset.Rel Zone.Alike (zs : Multiset Zone) (zs' : Multiset Zone)

section

variable {lib : Miekg} {zs zs' : List Zone} {s s' : Snapshot}

theorem Similar.symm (h : Similar zs zs') : Similar zs' zs :=
  (Multiset.rel_flip.2 h).mono (fun _ _ _ _ h => h.symm)

theorem Similar.of_perm (h : zs.Perm zs') : Similar zs zs' := by
  unfold Similar
  rw [Multiset.coe_eq_coe.2 h]
  exact Multiset.rel_refl_of_refl_on fun z _ => Zone.Alike.refl z

theorem Similar.mem (h : Similar zs zs') {z : Zone} (hz : z ∈ zs) : ∃ z' ∈ zs', z.Alike z' := by
  obtain ⟨z', hz', hza⟩ := Multiset.exists_mem_of_rel_of_mem h (Multiset.mem_coe.2 hz)
  exact ⟨z', Multiset.mem_coe.1 hz', hza⟩

theorem Similar.length_eq (h : Similar zs zs') : zs.length = zs'.length := by
  simpa using Multiset.card_eq_card_of_rel h

/-- What is the same in like zones is the same list in similar lists, but for the order. -/
theorem Similar.map_perm {α : Type} (h : Similar zs zs') (f : Zone → α) (hf : ∀ z z', Zone.Alike z z' → f z = f z') :
    (zs.map f).Perm (zs'.map f) := by
  rw [← Multiset.coe_eq_coe, ← Multiset.map_coe, ← Multiset.map_coe, ← Multiset.rel_eq, Multiset.rel_map]
  exact h.mono (fun z _ z' _ hzz => hf z z' hzz)

theorem Similar.allNormal (h : Similar zs zs') (hn : AllNormal zs) : AllNormal zs' := by
  intro z' hz'
  obtain ⟨z, hz, hza⟩ := h.symm.mem hz'
  exact hza.symm.normal (hn z hz)

theorem Similar.indexed (h : Similar zs zs') (hids : ∀ z ∈ zs', IdsOk z.records) (hi : Indexed lib zs s)
    (hi' : Indexed lib zs' s') : s.Alike s' := by
  intro name
  cases hs : s.byName.lookup name with
  | none =>
    cases hs' : s'.byName.lookup name with
    | none => exact Option.Rel.none
    | some v' =>
      obtain ⟨z', hz', rfl⟩ := hi'.names name v' hs'
      obtain ⟨z, hz, hza⟩ := h.symm.mem hz'
      obtain ⟨b, -, hb⟩ := hi.views z hz
      rw [← hza.name, hs] at hb
      cases hb
  | some v =>
    obtain ⟨z, hz, rfl⟩ := hi.names name v hs
    obtain ⟨z', hz', hza⟩ := h.mem hz
    obtain ⟨b, hbuild, hb⟩ := hi.views z hz
    obtain ⟨b', hbuild', hb'⟩ := hi'.views z' hz'
    obtain ⟨b₁, hb₁, hview⟩ := build_alike hza (hids z' hz') hbuild
    rw [hbuild'] at hb₁
    cases hb₁
    rw [hs] at hb
    cases hb
    rw [← hza.name] at hb'
    rw [hb']
    exact Option.Rel.some hview

theorem alone_of_compiled (h : Compiled s) : s.Alone := fun n v hv => (h.views n v hv).2.alone

theorem compile_indexed (hn : AllNormal zs) (h : compile lib zs = .ok s) : Indexed lib zs s := by
  obtain ⟨-, total, hindex, -⟩ := compile_eq_ok.1 h
  exact ((index_ok_iff hn).2 _ hindex).1

/-- **`compile` accepts like zones in any order, and what it makes of them is alike.** -/
theorem compile_alike (h : Similar zs zs') (hids : ∀ z ∈ zs', IdsOk z.records) (hn : AllNormal zs)
    (hc : compile lib zs = .ok s) : ∃ s', compile lib zs' = .ok s' ∧ s.Alike s' := by
  obtain ⟨hlen, total, hindex, hfree⟩ := compile_eq_ok.1 hc
  have hn' := h.allNormal hn
  obtain ⟨hnames, htotal, hbuilds⟩ := (index_ok_iff hn).1.1 ⟨_, hindex⟩
  have hindex' : ∃ acc, index lib zs' = .ok acc := by
    refine (index_ok_iff hn').1.2 ⟨?_, ?_, fun z' hz' => ?_⟩
    · exact (h.map_perm Zone.name (fun _ _ hza => hza.name)).nodup_iff.1 hnames
    · have := (h.map_perm (fun z => z.records.length) (fun _ _ hza => hza.length_eq)).sum_eq
      unfold totalRecords at htotal ⊢
      omega
    · obtain ⟨z, hz, hza⟩ := h.symm.mem hz'
      obtain ⟨b, hb⟩ := hbuilds z hz
      obtain ⟨b', hb', -⟩ := build_alike hza.symm (hids z' hz') hb
      exact ⟨b', hb'⟩
  obtain ⟨⟨s', total'⟩, hacc'⟩ := hindex'
  have halike : s.Alike s' := h.indexed hids ((index_ok_iff hn).2 _ hindex).1 ((index_ok_iff hn').2 _ hacc').1
  refine ⟨s', compile_eq_ok.2 ⟨by rw [← h.length_eq]; exact hlen, total', hacc', ?_⟩, halike⟩
  exact halike.loopFree (alone_of_compiled (compile_ok hc)) hfree

end

/-! ### Lookups -/

/-- Two messages that differ only in the order of the records of a section. -/
structure Shuffled (m m' : Msg) : Prop where
  answer : m.answer.Perm m'.answer
  ns : m.ns.Perm m'.ns
  extra : m.extra.Perm m'.extra
  rest : { m with answer := [], ns := [], extra := [] } = { m' with answer := [], ns := [], extra := [] }

theorem Shuffled.refl (m : Msg) : Shuffled m m := ⟨.refl _, .refl _, .refl _, rfl⟩

section

variable {s s' : Snapshot} {v v' : View}

/-- Like views of one revision answer alike. -/
theorem View.Alike.lookup (h : v.Alike v') (hrev : v.zone.revision = v'.zone.revision) (name : Str) (kind : UInt16) :
    (v.lookup name kind).Perm (v'.lookup name kind) := by
  have hfilter := (h.records name).filter (fun rr => rr.rrtype = kind)
  have hsoa : v.soa = v'.soa := by
    unfold View.soa
    rw [h.zone.name, h.zone.primaryNS, h.zone.contact, hrev]
  unfold View.lookup
  rw [← h.zone.name, ← h.zone.primaryNS, hsoa]
  dsimp only
  split
  · exact List.Perm.refl _
  · refine iteInduction (fun hc => ?_) (fun hc => ?_)
    · rw [if_pos ⟨hc.1, hc.2.1, by simpa [hc.2.2] using hfilter.symm⟩]
    · rw [if_neg]
      · exact hfilter
      · rintro ⟨h1, h2, h3⟩
        exact hc ⟨h1, h2, by simpa [h3] using hfilter⟩

/-- The aliases of a name are the same list. -/
theorem View.Alike.lookup_cname (h : v.Alike v') (name : Str)
    (halone : ∀ rr ∈ v.at' name, rr.rrtype = typeCNAME → v.at' name = [rr]) :
    v.lookup name typeCNAME = v'.lookup name typeCNAME := by
  have hplain : ∀ w : View, w.lookup name typeCNAME = (w.at' name).filter (fun rr => rr.rrtype = typeCNAME) := by
    intro w
    unfold View.lookup
    rw [if_neg (fun hc => absurd hc.2 (by decide)), if_neg (fun hc => absurd hc.2.1 (by decide))]
  rw [hplain, hplain]
  have hp := (h.records name).filter (fun rr => rr.rrtype = typeCNAME)
  by_cases hany : ∃ rr ∈ v.at' name, rr.rrtype = typeCNAME
  · obtain ⟨rr, hrr, hc⟩ := hany
    rw [halone rr hrr hc] at hp ⊢
    simp only [List.filter_cons, hc, decide_true, if_true, List.filter_nil, List.singleton_perm] at hp ⊢
    exact hp
  · have hnil : (v.at' name).filter (fun rr => rr.rrtype = typeCNAME) = [] := by
      rw [List.filter_eq_nil_iff]
      intro rr hrr hc
      exact hany ⟨rr, hrr, by simpa using hc⟩
    rw [hnil] at hp ⊢
    rw [List.nil_perm.1 hp]

/-- Like snapshots of the same revisions. -/
def Snapshot.Twin (s s' : Snapshot) : Prop :=
  ∀ name, Option.Rel (fun v v' => v.Alike v' ∧ v.zone.revision = v'.zone.revision) (s.byName.lookup name)
    (s'.byName.lookup name)

/-- One walk of `Lookup` along the aliases. -/
theorem chase_alike (h : s.Twin s') (ha : s.Alone) (kind : UInt16) :
    ∀ (n : ℕ) (name : Str) (m m' : Msg), Shuffled m m' → Shuffled (s.chase kind n name m) (s'.chase kind n name m')
  | 0, _, m, m', hm => by
    refine ⟨.refl _, hm.ns, hm.extra, ?_⟩
    have := hm.rest
    simp only [Snapshot.chase, Msg.mk.injEq, and_true, true_and] at this ⊢
    tauto
  | n + 1, name, m, m', hm => by
    have hrest := hm.rest
    simp only [Msg.mk.injEq, and_true] at hrest
    have hfind := find_rel h name
    cases hs : s.find name with
    | none =>
      rw [hs] at hfind
      cases hs' : s'.find name with
      | none =>
        simp only [Snapshot.chase, hs, hs']
        exact hm
      | some v' =>
        rw [hs'] at hfind
        cases hfind
    | some v =>
      obtain ⟨k, hk⟩ := mem_of_find hs
      rw [hs] at hfind
      obtain ⟨v', hs', hv, hvr⟩ : ∃ v', s'.find name = some v' ∧ v.Alike v' ∧ v.zone.revision = v'.zone.revision := by
        cases hs' : s'.find name with
        | none =>
          rw [hs'] at hfind
          cases hfind
        | some v' =>
          rw [hs'] at hfind
          cases hfind with
          | some hv => exact ⟨v', rfl, hv⟩
      have hans := hv.lookup hvr name kind
      have hcname := hv.lookup_cname name (ha k v hk name)
      have hsoa : v.soa = v'.soa := by
        unfold View.soa
        rw [hv.zone.name, hv.zone.primaryNS, hv.zone.contact, hvr]
      simp only [Snapshot.chase, hs, hs']
      by_cases hnil : v.lookup name kind = []
      · have hnil' : v'.lookup name kind = [] := by
          rw [hnil] at hans
          exact List.nil_perm.1 hans
        rw [if_neg (not_not.2 hnil), if_neg (not_not.2 hnil'), ← hcname]
        cases hc : v.lookup name typeCNAME with
        | nil =>
          refine ⟨hm.answer, by rw [hsoa], hm.extra, ?_⟩
          simp only [Msg.mk.injEq, and_true, hv.exists]
          refine ⟨hrest.1, hrest.2.1, hrest.2.2.1, hrest.2.2.2.1, hrest.2.2.2.2.1, hrest.2.2.2.2.2.1,
            hrest.2.2.2.2.2.2.1, hrest.2.2.2.2.2.2.2.1, hrest.2.2.2.2.2.2.2.2.1, ?_, hrest.2.2.2.2.2.2.2.2.2.2⟩
          rw [hrest.2.2.2.2.2.2.2.2.2.1]
        | cons rr rest =>
          exact chase_alike h ha kind n _ _ _ ⟨hm.answer.append (.refl _), hm.ns, hm.extra, hm.rest⟩
      · have hnil' : v'.lookup name kind ≠ [] := by
          intro h0
          rw [h0] at hans
          exact hnil (List.perm_nil.1 hans)
        rw [if_pos hnil, if_pos hnil']
        exact ⟨hm.answer.append hans, hm.ns, hm.extra, hm.rest⟩

/-- **Like snapshots of the same revisions answer alike.** -/
theorem lookup_alike (h : s.Twin s') (ha : s.Alone) (q : Msg) :
    Option.Rel Shuffled (s.lookup q) (s'.lookup q) := by
  unfold Snapshot.lookup
  split
  · exact Option.Rel.none
  · dsimp only
    have hfind := find_rel h (lower q.question0.name)
    cases hs : s.find (lower q.question0.name) <;> cases hs' : s'.find (lower q.question0.name) <;>
      rw [hs, hs'] at hfind
    · exact Option.Rel.none
    · cases hfind
    · cases hfind
    · exact Option.Rel.some (chase_alike h ha _ _ _ _ _ (Shuffled.refl _))

end

end Velora.Zones
