import Velora.Lib.Keyed
import Velora.Wire.Suffix
import Velora.Zones.Alike

/-!
# The zone that encloses a name

What `find` gives for a name of the wire, said without the index: of the zones in normal form, the one whose name is the first of
the cuts of the text (`find_zone`). The order of the zones is of no importance, neither for `compile` nor for `find`.
-/

namespace Velora.Zones

open Velora.Lib Velora.Lib.Text Velora.Wire Velora.Dns

/-! ### The zones of a snapshot -/

/-- The zones in normal form. -/
def zonesOf (zs : List Zone) : List Zone := zs.filterMap (fun z => (normalize z).toOption)

/-- The zone with a name. -/
def zoneAt (zs : List Zone) (t : List (List UInt8)) : Option Zone :=
  (zonesOf zs).find? (fun z => z.name = dotted t)

theorem mem_of_zoneAt {zs : List Zone} {t : List (List UInt8)} {z : Zone} (h : zoneAt zs t = some z) :
    z ∈ zonesOf zs ∧ z.name = dotted t := by
  have hname := List.find?_some h
  exact ⟨List.mem_of_find?_eq_some h, of_decide_eq_true hname⟩

theorem zoneAt_inj {zs : List Zone} : ∀ t t' z, zoneAt zs t = some z → zoneAt zs t' = some z → t = t' := by
  intro t t' z h h'
  exact dotted_inj ((mem_of_zoneAt h).2.symm.trans (mem_of_zoneAt h').2)

theorem zonesOf_eq {zs zs' : List Zone} (h : zs.mapM normalize = .ok zs') : zonesOf zs = zs' := Loops.filterMap_of_mapM_ok h

section

variable {lib : Miekg} {zs : List Zone} {s : Snapshot}

/-- What `compile` has made of the zones in normal form. -/
theorem indexed_zonesOf (h : compile lib zs = .ok s) :
    AllNormal (zonesOf zs) ∧ ((zonesOf zs).map Zone.name).Nodup ∧ Indexed lib (zonesOf zs) s := by
  obtain ⟨zs', hzs', hcompile⟩ := compile_normalize h
  rw [zonesOf_eq hzs']
  have hn := allNormal_of_mapM hzs'
  obtain ⟨-, total, hindex, -⟩ := compile_eq_ok.1 hcompile
  exact ⟨hn, ((index_ok_iff hn).1.1 ⟨_, hindex⟩).1, ((index_ok_iff hn).2 _ hindex).1⟩

/-- The snapshot has the zones under their names. -/
theorem lookup_zone (h : compile lib zs = .ok s) (k : Str) :
    (s.byName.lookup k).map View.zone = (zonesOf zs).find? (fun z => z.name = k) := by
  obtain ⟨-, hnames, hindexed⟩ := indexed_zonesOf h
  refine Option.ext fun z => ?_
  rw [Keyed.find?_eq_some hnames]
  constructor
  · intro hz
    obtain ⟨v, hv, rfl⟩ := Option.map_eq_some_iff.1 hz
    exact hindexed.zone_mem hv
  · rintro ⟨hz, rfl⟩
    obtain ⟨b, hb, hlook⟩ := hindexed.views z hz
    obtain ⟨rrs, hbuilt⟩ := build_built hb
    rw [hlook, Option.map_some, hbuilt.zone]

/-- The name of a zone is the text of some labels. -/
theorem zone_name (h : compile lib zs = .ok s) {z : Zone} (hz : z ∈ zonesOf zs) :
    ∃ v, v ≠ [] ∧ z.name = v ++ ['.'] := by
  obtain ⟨name, hname, _, _, _, _, _, _, _, heq⟩ := normalize_eq_ok.1 ((indexed_zonesOf h).1 z hz)
  rw [← heq]
  exact domain_dot hname

/-- What `find` gives for a name of the wire. -/
theorem find_zone (h : compile lib zs = .ok s) (n : List (List UInt8)) :
    (s.find (present n)).map View.zone = (n :: textTails n).findSome? (zoneAt zs) := by
  have hempty : (s.byName.lookup []).map View.zone = none := by
    rw [lookup_zone h, List.find?_eq_none]
    intro z hz
    obtain ⟨v, -, hv⟩ := zone_name h hz
    simp [hv]
  have hmap : (s.find (present n)).map View.zone =
      (suffixes (present n)).findSome? (fun k => (s.byName.lookup k).map View.zone) := by
    rw [Snapshot.find, List.map_findSome?]
    rfl
  rw [hmap, findSome?_suffixes hempty]
  by_cases hn : n = []
  · subst hn
    have hroot : (s.byName.lookup root).map View.zone = none := by
      rw [lookup_zone h, List.find?_eq_none]
      intro z hz
      obtain ⟨v, hv, hname⟩ := zone_name h hz
      rw [hname, root]
      simpa using hv
    have htails : dotTails (present []) = [[]] := by decide
    have hnone : zoneAt zs [] = none := by
      rw [zoneAt, ← lookup_zone h]
      exact hempty
    rw [htails]
    show ([root, []] : List Str).findSome? _ = ([[]] : List (List (List UInt8))).findSome? _
    simp [hroot, hempty, hnone]
  · rw [present_eq_dotted hn, dotTails_dotted, ← List.map_cons, List.findSome?_map]
    congr 1
    exact funext fun t => lookup_zone h (dotted t)

/-- The view that `find` gives is the one of a zone, under one of the cuts of the name. -/
theorem view_of_find (h : compile lib zs = .ok s) {n : List (List UInt8)} {v : View} (hfind : s.find (present n) = some v) :
    NormalZone v.zone ∧ (∃ t ∈ n :: textTails n, v.zone.name = dotted t) ∧
      ∃ b rrs, Built lib v.zone v.zone.records rrs b ∧ b.view = v := by
  have hcut := find_zone h n
  rw [hfind, Option.map_some] at hcut
  obtain ⟨t, ht, hz⟩ := List.exists_of_findSome?_eq_some hcut.symm
  obtain ⟨hmem, hname⟩ := mem_of_zoneAt hz
  obtain ⟨hn, -, hindexed⟩ := indexed_zonesOf h
  refine ⟨hn _ hmem, ⟨t, ht, hname⟩, ?_⟩
  obtain ⟨k, -, hk⟩ := List.exists_of_findSome?_eq_some hfind
  obtain ⟨z, hzmem, rfl⟩ := hindexed.names k v hk
  obtain ⟨b, hb, hlook⟩ := hindexed.views z hzmem
  obtain ⟨rrs, hbuilt⟩ := build_built hb
  rw [hlook, Option.some.injEq] at hk
  subst hk
  exact ⟨b, rrs, by rw [hbuilt.zone]; exact hbuilt, rfl⟩

end

/-! ### The order of the zones -/

section

variable {lib : Miekg} {zs zs' : List Zone} {s : Snapshot}

theorem compile_perm (h : compile lib zs = .ok s) (hp : zs.Perm zs') : ∃ s', compile lib zs' = .ok s' := by
  obtain ⟨ns, hns, hcompile⟩ := compile_normalize h
  obtain ⟨ns', hns', hperm⟩ := Loops.mapM_ok_perm hp hns
  have hn := allNormal_of_mapM hns
  obtain ⟨-, total, hindex, -⟩ := compile_eq_ok.1 hcompile
  have hids : ∀ z ∈ ns', IdsOk z.records := by
    intro z hz
    obtain ⟨rrs, -, hclean⟩ := build_ok_iff.1 (((index_ok_iff hn).1.1 ⟨_, hindex⟩).2.2 z (hperm.mem_iff.2 hz))
    exact ⟨hclean.nonneg, hclean.ids⟩
  obtain ⟨s', hs', -⟩ := compile_alike (Similar.of_perm hperm) hids hn hcompile
  obtain ⟨hlen, total', hindex', hfree⟩ := compile_eq_ok.1 hs'
  refine ⟨s', compile_eq_ok.2 ⟨?_, total', ?_, hfree⟩⟩
  · rw [← Loops.length_of_mapM_ok hns']
    exact hlen
  · rw [index_normalize hns']
    exact hindex'

theorem zoneAt_perm (h : compile lib zs = .ok s) (hp : zs.Perm zs') : zoneAt zs' = zoneAt zs :=
  funext fun t => (Keyed.find?_perm (indexed_zonesOf h).2.1 (hp.filterMap _) (dotted t)).symm

end

end Velora.Zones
